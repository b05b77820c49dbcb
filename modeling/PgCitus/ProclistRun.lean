import PgCitus.Proclist

/-!
# The lists of processes are sequences

Any number of `proclist`s that share one `proclist_node` of every process. Seen
from one list the links make a ring: `INVALID_PGPROCNO` is its anchor, which is
followed by the head and follows the tail (`listLinks`). The anchor is the same
number for all lists, but the links it has are those of the header.

`ProclistRep` says that there is such a ring for every list, that no process is in
two of them, and that the links of a process in none are zero. It is the ring that
makes the zeros a sound mark: a process with zero on both sides would be preceded
and followed by process zero, so that this would be in the list twice
(`ProclistRep.node_eq_zero_iff`).
-/

namespace Proclist

open Links (Apart)

/-! ## What the writes are, as links -/

/-- `setNext`, of a process in the array. -/
def ProcGlobal.withNext (g : ProcGlobal) (procno v : ℤ) : ProcGlobal :=
  { g with
    allProcs := Function.update g.allProcs procno { g.allProcs procno with next := v } }

/-- `setPrev`, of a process in the array. -/
def ProcGlobal.withPrev (g : ProcGlobal) (procno v : ℤ) : ProcGlobal :=
  { g with
    allProcs := Function.update g.allProcs procno { g.allProcs procno with prev := v } }

namespace ProcGlobal

variable {g : ProcGlobal} {p q v : ℤ}

@[simp] theorem valid_withNext : (g.withNext p v).Valid q ↔ g.Valid q := Iff.rfl

@[simp] theorem valid_withPrev : (g.withPrev p v).Valid q ↔ g.Valid q := Iff.rfl

@[simp] theorem withNext_next :
    ((g.withNext p v).allProcs q).next = if q = p then v else (g.allProcs q).next := by
  show (Function.update g.allProcs p _ q).next = _
  rw [Function.update_apply]
  split_ifs <;> rfl

@[simp] theorem withNext_prev : ((g.withNext p v).allProcs q).prev = (g.allProcs q).prev := by
  show (Function.update g.allProcs p _ q).prev = _
  rw [Function.update_apply]
  split_ifs with h
  · rw [h]
  · rfl

@[simp] theorem withPrev_prev :
    ((g.withPrev p v).allProcs q).prev = if q = p then v else (g.allProcs q).prev := by
  show (Function.update g.allProcs p _ q).prev = _
  rw [Function.update_apply]
  split_ifs <;> rfl

@[simp] theorem withPrev_next : ((g.withPrev p v).allProcs q).next = (g.allProcs q).next := by
  show (Function.update g.allProcs p _ q).next = _
  rw [Function.update_apply]
  split_ifs with h
  · rw [h]
  · rfl

end ProcGlobal

variable {g g' : ProcGlobal} {list list' : ProclistHead} {p q v x a b : ℤ}

theorem pgAssert_of {c : Prop} [Decidable c] (h : c) : pgAssert c = some () := if_pos h

theorem proclistNodeGet_of (hp : g.Valid p) : proclistNodeGet g p = some (g.allProcs p) :=
  if_pos hp

theorem setNext_of (hp : g.Valid p) : setNext g p v = some (g.withNext p v) := if_pos hp

theorem setPrev_of (hp : g.Valid p) : setPrev g p v = some (g.withPrev p v) := if_pos hp

/-- **The links, seen from one list**: those of the header are the anchor's. -/
def listLinks (list : ProclistHead) (g : ProcGlobal) : Links ℤ where
  next p := some (if p = invalidPgprocno then list.head else (g.allProcs p).next)
  prev p := some (if p = invalidPgprocno then list.tail else (g.allProcs p).prev)

@[simp] theorem listLinks_next :
    (listLinks list g).next p
      = some (if p = invalidPgprocno then list.head else (g.allProcs p).next) := rfl

@[simp] theorem listLinks_prev :
    (listLinks list g).prev p
      = some (if p = invalidPgprocno then list.tail else (g.allProcs p).prev) := rfl

/-- **`proclist_push_head_offset` links the process in** between the anchor and the
head there was. -/
theorem proclistPushHeadOffset_inserts (hx : g.Valid x) (hxi : x ≠ invalidPgprocno)
    (hzero : g.allProcs x = ⟨0, 0⟩) (hxh : x ≠ list.head) (hxt : x ≠ list.tail)
    (hempty : list.head = invalidPgprocno ↔ list.tail = invalidPgprocno)
    (hhead : list.head ≠ invalidPgprocno → g.Valid list.head) :
    ∃ list' g', proclistPushHeadOffset g list x = some (list', g') ∧
      g'.allProcCount = g.allProcCount ∧
      (listLinks list g).Inserts (listLinks list' g') invalidPgprocno x list.head := by
  by_cases hc : list.head = invalidPgprocno
  · refine ⟨⟨x, x⟩, (g.withPrev x invalidPgprocno).withNext x invalidPgprocno, ?_, rfl,
      Links.inserts_of_eq hxi hxh (fun v => ?_) fun v => ?_⟩
    · simp [proclistPushHeadOffset, proclistNodeGet_of, setNext_of, setPrev_of, pgAssert, hx,
        hzero, hc, hempty.mp hc]
    · simp only [listLinks_next, ProcGlobal.withNext_next, ProcGlobal.withPrev_next, hc]
      split_ifs <;> rfl
    · simp only [listLinks_prev, ProcGlobal.withNext_prev, ProcGlobal.withPrev_prev, hc]
      split_ifs <;> rfl
  · have ht := mt hempty.mpr hc
    refine ⟨{ list with head := x }, ((g.withNext x list.head).withPrev list.head x).withPrev x
      invalidPgprocno, ?_, rfl, Links.inserts_of_eq hxi hxh (fun v => ?_) fun v => ?_⟩
    · simp [proclistPushHeadOffset, proclistNodeGet_of, setNext_of, setPrev_of, pgAssert, hx,
        hzero, hc, ht, hxh.symm, hxt.symm, hhead hc]
    · simp only [listLinks_next, ProcGlobal.withNext_next, ProcGlobal.withPrev_next]
      split_ifs <;> rfl
    · simp only [listLinks_prev, ProcGlobal.withNext_prev, ProcGlobal.withPrev_prev]
      split_ifs <;> simp_all

/-- **`proclist_push_tail_offset` links the process in** between the tail there was and
the anchor. -/
theorem proclistPushTailOffset_inserts (hx : g.Valid x) (hxi : x ≠ invalidPgprocno)
    (hzero : g.allProcs x = ⟨0, 0⟩) (hxh : x ≠ list.head) (hxt : x ≠ list.tail)
    (hempty : list.head = invalidPgprocno ↔ list.tail = invalidPgprocno)
    (htail : list.tail ≠ invalidPgprocno → g.Valid list.tail) :
    ∃ list' g', proclistPushTailOffset g list x = some (list', g') ∧
      g'.allProcCount = g.allProcCount ∧
      (listLinks list g).Inserts (listLinks list' g') list.tail x invalidPgprocno := by
  by_cases hc : list.tail = invalidPgprocno
  · refine ⟨⟨x, x⟩, (g.withPrev x invalidPgprocno).withNext x invalidPgprocno, ?_, rfl,
      Links.inserts_of_eq hxt hxi (fun v => ?_) fun v => ?_⟩
    · simp [proclistPushTailOffset, proclistNodeGet_of, setNext_of, setPrev_of, pgAssert, hx,
        hzero, hc, hempty.mpr hc]
    · simp only [listLinks_next, ProcGlobal.withNext_next, ProcGlobal.withPrev_next, hc]
      split_ifs <;> rfl
    · simp only [listLinks_prev, ProcGlobal.withNext_prev, ProcGlobal.withPrev_prev, hc]
      split_ifs <;> rfl
  · have hh := mt hempty.mp hc
    refine ⟨{ list with tail := x }, ((g.withPrev x list.tail).withNext list.tail x).withNext x
      invalidPgprocno, ?_, rfl, Links.inserts_of_eq hxt hxi (fun v => ?_) fun v => ?_⟩
    · simp [proclistPushTailOffset, proclistNodeGet_of, setNext_of, setPrev_of, pgAssert, hx,
        hzero, hc, hh, hxh.symm, hxt.symm, htail hc]
    · simp only [listLinks_next, ProcGlobal.withNext_next, ProcGlobal.withPrev_next]
      split_ifs <;> simp_all
    · simp only [listLinks_prev, ProcGlobal.withNext_prev, ProcGlobal.withPrev_prev]
      split_ifs <;> rfl

/-- The first half of a deletion writes the link forwards of what precedes. -/
theorem proclistDeletePrev_links (hx : g.Valid x) (hnode : g.allProcs x = ⟨b, a⟩)
    (hxa : x ≠ a) (hhead : a = invalidPgprocno → list.head = x)
    (ha : a ≠ invalidPgprocno → g.Valid a) :
    ∃ list' g', proclistDeletePrev g list x = some (list', g') ∧
      g'.allProcCount = g.allProcCount ∧ list'.tail = list.tail ∧
      g'.allProcs x = ⟨b, a⟩ ∧
      (∀ v, (listLinks list' g').next v
        = if v = a then some b else (listLinks list g).next v) ∧
      ∀ v, (listLinks list' g').prev v = (listLinks list g).prev v := by
  by_cases hc : a = invalidPgprocno
  · refine ⟨{ list with head := b }, g, ?_, rfl, rfl, hnode, fun v => ?_, fun v => rfl⟩
    · simp [proclistDeletePrev, proclistNodeGet_of, pgAssert, hx, hnode, hc, hhead hc]
    · simp only [listLinks_next, hc]
      split_ifs <;> rfl
  · refine ⟨list, g.withNext a b, ?_, rfl, rfl, ?_, fun v => ?_, fun v => ?_⟩
    · simp [proclistDeletePrev, proclistNodeGet_of, setNext_of, hx, hnode, hc, ha hc]
    · show Function.update g.allProcs a _ x = _
      rw [Function.update_of_ne hxa, hnode]
    · simp only [listLinks_next, ProcGlobal.withNext_next]
      split_ifs <;> simp_all
    · simp only [listLinks_prev, ProcGlobal.withNext_prev]

/-- The second half writes the link backwards of what follows. -/
theorem proclistDeleteNext_links (hx : g.Valid x) (hnode : g.allProcs x = ⟨b, a⟩)
    (htail : b = invalidPgprocno → list.tail = x)
    (hb : b ≠ invalidPgprocno → g.Valid b) :
    ∃ list' g', proclistDeleteNext g list x = some (list', g') ∧
      g'.allProcCount = g.allProcCount ∧
      (∀ v, (listLinks list' g').prev v
        = if v = b then some a else (listLinks list g).prev v) ∧
      ∀ v, (listLinks list' g').next v = (listLinks list g).next v := by
  by_cases hc : b = invalidPgprocno
  · refine ⟨{ list with tail := a }, g, ?_, rfl, fun v => ?_, fun v => rfl⟩
    · simp [proclistDeleteNext, proclistNodeGet_of, pgAssert, hx, hnode, hc, htail hc]
    · simp only [listLinks_prev, hc]
      split_ifs <;> rfl
  · refine ⟨list, g.withPrev b a, ?_, rfl, fun v => ?_, fun v => ?_⟩
    · simp [proclistDeleteNext, proclistNodeGet_of, setPrev_of, hx, hnode, hc, hb hc]
    · simp only [listLinks_prev, ProcGlobal.withPrev_prev]
      split_ifs <;> simp_all
    · simp only [listLinks_next, ProcGlobal.withPrev_next]

/-- **`proclist_delete_offset` takes the process out** from between its neighbours,
and marks it as being in no list. -/
theorem proclistDeleteOffset_unlinks (hx : g.Valid x) (hnode : g.allProcs x = ⟨b, a⟩)
    (hnz : b ≠ 0 ∨ a ≠ 0) (hxa : x ≠ a) (hxb : x ≠ b)
    (hhead : a = invalidPgprocno → list.head = x)
    (htail : b = invalidPgprocno → list.tail = x)
    (ha : a ≠ invalidPgprocno → g.Valid a) (hb : b ≠ invalidPgprocno → g.Valid b) :
    ∃ list' g', proclistDeleteOffset g list x = some (list', g') ∧
      g'.allProcCount = g.allProcCount ∧ g'.allProcs x = ⟨0, 0⟩ ∧
      (listLinks list g).Unlinks (listLinks list' g') a x b := by
  obtain ⟨l₁, g₁, h₁, hcount₁, htail₁, hnode₁, hnext₁, hprev₁⟩ :=
    proclistDeletePrev_links hx hnode hxa hhead ha
  have hvalid₁ : ∀ {p}, g.Valid p → g₁.Valid p := fun hp => by
    rwa [ProcGlobal.Valid, hcount₁]
  obtain ⟨l₂, g₂, h₂, hcount₂, hprev₂, hnext₂⟩ :=
    proclistDeleteNext_links (hvalid₁ hx) hnode₁
      (fun hbi => htail₁.trans (htail hbi)) (fun hbi => hvalid₁ (hb hbi))
  have hx₂ : g₂.Valid x := by
    rw [ProcGlobal.Valid, hcount₂]
    exact hvalid₁ hx
  refine ⟨l₂, (g₂.withPrev x 0).withNext x 0, ?_, hcount₂.trans hcount₁, ?_, ?_⟩
  · simp [proclistDeleteOffset, proclistNodeGet_of, setPrev_of, setNext_of, pgAssert, hx,
      hnode, hnz, h₁, h₂, hx₂]
  · have hn : (((g₂.withPrev x 0).withNext x 0).allProcs x).next = 0 := by simp
    have hp : (((g₂.withPrev x 0).withNext x 0).allProcs x).prev = 0 := by simp
    exact congrArg₂ ProclistNode.mk hn hp
  · have hnext : ∀ v, v ≠ x → (listLinks l₂ ((g₂.withPrev x 0).withNext x 0)).next v
        = if v = a then some b else (listLinks list g).next v := by
      intro v hv
      rw [← hnext₁, ← hnext₂]
      simp [hv]
    have hprev : ∀ v, v ≠ x → (listLinks l₂ ((g₂.withPrev x 0).withNext x 0)).prev v
        = if v = b then some a else (listLinks list g).prev v := by
      intro v hv
      rw [← hprev₁, ← hprev₂]
      simp [hv]
    refine ⟨⟨?_, ?_⟩, fun v hva hvx => ?_, fun v hvb hvx => ?_⟩
    · rw [hnext a hxa.symm, if_pos rfl]
    · rw [hprev b hxb.symm, if_pos rfl]
    · rw [hnext v hvx, if_neg hva]
    · rw [hprev v hvx, if_neg hvb]

/-! ## The representation -/

variable {ι : Type*} [DecidableEq ι] {heads : ι → ProclistHead} {σ : ι → List ℤ} {i : ι}
  {xs ys new : List ℤ}

/-- **The headers and the nodes represent the sequences.** -/
structure ProclistRep (g : ProcGlobal) (heads : ι → ProclistHead) (σ : ι → List ℤ) :
    Prop where
  /-- `INVALID_PGPROCNO` is larger than the number of any process. -/
  count_le : g.allProcCount ≤ invalidPgprocno
  /-- The links lead round each list. -/
  isRing : ∀ i, (listLinks (heads i) g).IsRing invalidPgprocno (σ i)
  /-- What is in a list is a process. -/
  valid : ∀ ⦃i p⦄, p ∈ σ i → g.Valid p
  /-- No process is in two lists. -/
  apart : Apart σ
  /-- A process in no list is marked. -/
  zero : ∀ p, g.Valid p → (∀ i, p ∉ σ i) → g.allProcs p = ⟨0, 0⟩

namespace ProclistRep

omit [DecidableEq ι] in
theorem ne_invalid (hr : ProclistRep g heads σ) (hp : g.Valid p) : p ≠ invalidPgprocno :=
  Int.ne_of_lt (Int.lt_of_lt_of_le hp.2 hr.count_le)

omit [DecidableEq ι] in
/-- The header has the ends of the sequence. -/
theorem head_eq (hr : ProclistRep g heads σ) (i : ι) :
    heads i = ⟨(σ i).headD invalidPgprocno, (σ i).getLastD invalidPgprocno⟩ := by
  have hnext := (hr.isRing i).next_anchor
  have hprev := (hr.isRing i).prev_anchor
  rw [listLinks_next, if_pos rfl, Option.some.injEq] at hnext
  rw [listLinks_prev, if_pos rfl, Option.some.injEq] at hprev
  rw [← hnext, ← hprev]

omit [DecidableEq ι] in
/-- A process has the links to its neighbours in the sequence. -/
theorem node_eq (hr : ProclistRep g heads σ) (hσ : σ i = xs ++ p :: ys) :
    g.allProcs p = ⟨ys.headD invalidPgprocno, xs.getLastD invalidPgprocno⟩ := by
  have hring := hr.isRing i
  have hp : p ≠ invalidPgprocno := hr.ne_invalid (hr.valid (i := i) (by simp [hσ]))
  rw [hσ] at hring
  have hnext := hring.next_element
  have hprev := hring.prev_element
  rw [listLinks_next, if_neg hp, Option.some.injEq] at hnext
  rw [listLinks_prev, if_neg hp, Option.some.injEq] at hprev
  rw [← hnext, ← hprev]

omit [DecidableEq ι] in
/-- **The mark is sound**: no process in a list has zero on both sides. -/
theorem node_ne_zero (hr : ProclistRep g heads σ) (hp : p ∈ σ i) :
    g.allProcs p ≠ ⟨0, 0⟩ := by
  obtain ⟨xs, ys, hσ⟩ := List.append_of_mem hp
  rw [hr.node_eq hσ]
  intro hzero
  rw [ProclistNode.mk.injEq] at hzero
  have hinv : invalidPgprocno ≠ 0 := by decide
  have hnd := (hr.isRing i).nodup_elements
  -- process zero would be on both sides of `p`
  have hxs : (0 : ℤ) ∈ xs := by
    have := Links.getLastD_mem_cons invalidPgprocno xs
    rw [hzero.2, List.mem_cons] at this
    exact this.resolve_left hinv.symm
  have hys : (0 : ℤ) ∈ ys := by
    have := Links.headD_mem invalidPgprocno [] ys
    rw [hzero.1, List.nil_append, List.mem_cons] at this
    exact this.resolve_left hinv.symm
  rw [hσ, List.nodup_append] at hnd
  exact hnd.2.2 0 hxs 0 (List.mem_cons_of_mem _ hys) rfl

omit [DecidableEq ι] in
/-- A process is in no list if and only if both its links are zero. -/
theorem node_eq_zero_iff (hr : ProclistRep g heads σ) (hp : g.Valid p) :
    (∀ i, p ∉ σ i) ↔ g.allProcs p = ⟨0, 0⟩ :=
  ⟨hr.zero p hp, fun hzero _ hin => hr.node_ne_zero hin hzero⟩

end ProclistRep

/-- A process that is in no list. -/
def Free (g : ProcGlobal) (σ : ι → List ℤ) (p : ℤ) : Prop := g.Valid p ∧ ∀ i, p ∉ σ i

/-- Links of a process that are not written. -/
theorem node_eq_of_links (hv : v ≠ invalidPgprocno)
    (hnext : (listLinks list' g').next v = (listLinks list g).next v)
    (hprev : (listLinks list' g').prev v = (listLinks list g).prev v) :
    g'.allProcs v = g.allProcs v := by
  rw [listLinks_next, listLinks_next, if_neg hv, if_neg hv, Option.some.injEq] at hnext
  rw [listLinks_prev, listLinks_prev, if_neg hv, if_neg hv, Option.some.injEq] at hprev
  exact congrArg₂ ProclistNode.mk hnext hprev

/-- **A change of one list**: its sequence becomes `new`, and no process of another one
is written. -/
structure Changes (g : ProcGlobal) (heads : ι → ProclistHead) (σ : ι → List ℤ) (i : ι)
    (new : List ℤ) (list' : ProclistHead) (g' : ProcGlobal) : Prop where
  /-- What there is now represents the new sequences. -/
  rep : ProclistRep g' (Function.update heads i list') (Function.update σ i new)
  /-- The frame. -/
  keeps : ∀ j, j ≠ i → ∀ p ∈ σ j, g'.allProcs p = g.allProcs p

namespace Changes

theorem refl (hr : ProclistRep g heads σ) (i : ι) : Changes g heads σ i (σ i) (heads i) g where
  rep := by rwa [Function.update_eq_self, Function.update_eq_self]
  keeps := fun _ _ _ _ => rfl

/-- Two changes of one list, one after the other. -/
theorem trans {list₁ list₂ : ProclistHead} {g₁ g₂ : ProcGlobal}
    (h₁ : Changes g heads σ i xs list₁ g₁)
    (h₂ : Changes g₁ (Function.update heads i list₁) (Function.update σ i xs) i ys list₂ g₂) :
    Changes g heads σ i ys list₂ g₂ where
  rep := by
    have := h₂.rep
    rwa [Function.update_idem, Function.update_idem] at this
  keeps := fun j hj p hp => by
    rw [h₂.keeps j hj p (by rwa [Function.update_of_ne hj]), h₁.keeps j hj p hp]

/-- A change, from the ring of the list itself: what is not in the list is left as it
is, and what goes out of it is marked. -/
theorem of_isRing (hr : ProclistRep g heads σ) (hcount : g'.allProcCount = g.allProcCount)
    (hring : (listLinks list' g').IsRing invalidPgprocno new)
    (hnew : ∀ v ∈ new, v ∈ σ i ∨ Free g σ v)
    (hout : ∀ v ∈ σ i, v ∉ new → g'.allProcs v = ⟨0, 0⟩)
    (hkeeps : ∀ v, g.Valid v → v ∉ σ i → v ∉ new → g'.allProcs v = g.allProcs v) :
    Changes g heads σ i new list' g' := by
  have hvalid : ∀ {v}, g'.Valid v ↔ g.Valid v := fun {v} => by
    rw [ProcGlobal.Valid, ProcGlobal.Valid, hcount]
  have hother : ∀ j, j ≠ i → ∀ v ∈ σ j, g'.allProcs v = g.allProcs v := by
    intro j hj v hv
    refine hkeeps v (hr.valid hv) (fun hi => hj (hr.apart hv hi)) fun hn => ?_
    rcases hnew v hn with hi | hfree
    · exact hj (hr.apart hv hi)
    · exact hfree.2 j hv
  refine ⟨⟨hcount ▸ hr.count_le, fun j => ?_, fun j v hv => ?_, ?_, fun v hv hno => ?_⟩,
    hother⟩
  · by_cases hj : j = i
    · subst hj
      rwa [Function.update_self, Function.update_self]
    · rw [Function.update_of_ne hj, Function.update_of_ne hj]
      refine (hr.isRing j).congr (fun v hv => ?_) fun v hv => ?_ <;>
        rcases List.mem_cons.mp hv with rfl | hv
      · rfl
      · rw [listLinks_next, listLinks_next, hother j hj v hv]
      · rfl
      · rw [listLinks_prev, listLinks_prev, hother j hj v hv]
  · rw [hvalid]
    by_cases hj : j = i
    · rw [hj, Function.update_self] at hv
      exact (hnew v hv).elim (fun hi => hr.valid hi) fun hfree => hfree.1
    · rw [Function.update_of_ne hj] at hv
      exact hr.valid hv
  · exact hr.apart.update fun v hv => (hnew v hv).imp_right fun hfree => hfree.2
  · have hno_new : v ∉ new := by
      have := hno i
      rwa [Function.update_self] at this
    by_cases hi : v ∈ σ i
    · exact hout v hi hno_new
    · rw [hkeeps v (hvalid.mp hv) hi hno_new]
      refine hr.zero v (hvalid.mp hv) fun j => ?_
      by_cases hj : j = i
      · rwa [hj]
      · have := hno j
        rwa [Function.update_of_ne hj] at this

/-- A process is linked in. -/
theorem insert (hr : ProclistRep g heads σ) (hσ : σ i = xs ++ ys) (hx : Free g σ x)
    (hcount : g'.allProcCount = g.allProcCount)
    (hi : (listLinks (heads i) g).Inserts (listLinks list' g')
      (xs.getLastD invalidPgprocno) x (ys.headD invalidPgprocno)) :
    Changes g heads σ i (xs ++ x :: ys) list' g' := by
  have hring := hr.isRing i
  have hxσ := hx.2 i
  rw [hσ] at hring hxσ
  have hxr : x ∉ invalidPgprocno :: (xs ++ ys) := by
    rw [List.mem_cons, not_or]
    exact ⟨hr.ne_invalid hx.1, hxσ⟩
  refine of_isRing hr hcount (hring.insert hxr hi) (fun v hv => ?_) (fun v hv hnot => ?_)
    fun v hv hno hnot => ?_
  · rw [List.mem_append, List.mem_cons] at hv
    rw [hσ, List.mem_append]
    rcases hv with hv | rfl | hv
    · exact Or.inl (Or.inl hv)
    · exact Or.inr hx
    · exact Or.inl (Or.inr hv)
  · rw [hσ, List.mem_append] at hv
    rw [List.mem_append, List.mem_cons] at hnot
    tauto
  · have hvi := hr.ne_invalid hv
    have hvx : v ≠ x := fun he => hnot (by simp [he])
    have hvr : ∀ w ∈ invalidPgprocno :: (xs ++ ys), v ≠ w := by
      rintro w hw rfl
      exact (List.mem_cons.mp hw).elim hvi fun hw => hno (hσ ▸ hw)
    exact node_eq_of_links hvi
      (hi.next_of_ne v (hvr _ (Links.getLastD_mem _ xs ys)) hvx)
      (hi.prev_of_ne v (hvr _ (Links.headD_mem _ xs ys)) hvx)

/-- A process is taken out. -/
theorem remove (hr : ProclistRep g heads σ) (hσ : σ i = xs ++ x :: ys)
    (hcount : g'.allProcCount = g.allProcCount) (hzero : g'.allProcs x = ⟨0, 0⟩)
    (hu : (listLinks (heads i) g).Unlinks (listLinks list' g')
      (xs.getLastD invalidPgprocno) x (ys.headD invalidPgprocno)) :
    Changes g heads σ i (xs ++ ys) list' g' := by
  have hring := hr.isRing i
  rw [hσ] at hring
  refine of_isRing hr hcount (hring.remove hu) (fun v hv => ?_) (fun v hv hnot => ?_)
    fun v hv hno hnot => ?_
  · rw [List.mem_append] at hv
    rw [hσ, List.mem_append, List.mem_cons]
    tauto
  · have hvx : v = x := by
      rw [hσ, List.mem_append, List.mem_cons] at hv
      rw [List.mem_append] at hnot
      tauto
    rw [hvx, hzero]
  · have hvi := hr.ne_invalid hv
    have hvx : v ≠ x := fun he => hno (by simp [hσ, he])
    have hvr : ∀ w ∈ invalidPgprocno :: (xs ++ ys), v ≠ w := by
      rintro w hw rfl
      exact (List.mem_cons.mp hw).elim hvi hnot
    exact node_eq_of_links hvi
      (hu.next_of_ne v (hvr _ (Links.getLastD_mem _ xs ys)) hvx)
      (hu.prev_of_ne v (hvr _ (Links.headD_mem _ xs ys)) hvx)

end Changes

/-! ## The functions -/

omit [DecidableEq ι] in
/-- An end of a list is another process than one in no list. -/
theorem Free.ne (hr : ProclistRep g heads σ) (hx : Free g σ x) {w : ℤ}
    (hw : w ∈ invalidPgprocno :: σ i) : x ≠ w := by
  rintro rfl
  rcases List.mem_cons.mp hw with hw | hw
  · exact hr.ne_invalid hx.1 hw
  · exact hx.2 i hw

namespace ProclistRep

omit [DecidableEq ι] in
/-- What a link of a list is: the anchor, or a process. -/
theorem valid_of_mem (hr : ProclistRep g heads σ) {w : ℤ}
    (hw : w ∈ invalidPgprocno :: σ i) (hne : w ≠ invalidPgprocno) : g.Valid w :=
  hr.valid ((List.mem_cons.mp hw).resolve_left hne)

omit [DecidableEq ι] in
theorem head_headD (hr : ProclistRep g heads σ) (i : ι) :
    (heads i).head = (σ i).headD invalidPgprocno := by rw [hr.head_eq i]

omit [DecidableEq ι] in
theorem tail_getLastD (hr : ProclistRep g heads σ) (i : ι) :
    (heads i).tail = (σ i).getLastD invalidPgprocno := by rw [hr.head_eq i]

omit [DecidableEq ι] in
/-- The ends of a list are the anchor, or processes of it. -/
theorem head_mem (hr : ProclistRep g heads σ) (i : ι) :
    (heads i).head ∈ invalidPgprocno :: σ i := by
  rw [hr.head_headD i]
  exact Links.headD_mem invalidPgprocno [] (σ i)

omit [DecidableEq ι] in
theorem tail_mem (hr : ProclistRep g heads σ) (i : ι) :
    (heads i).tail ∈ invalidPgprocno :: σ i := by
  rw [hr.tail_getLastD i]
  exact Links.getLastD_mem_cons invalidPgprocno (σ i)

omit [DecidableEq ι] in
theorem head_eq_invalid_iff (hr : ProclistRep g heads σ) (i : ι) :
    (heads i).head = invalidPgprocno ↔ σ i = [] := by
  rw [hr.head_eq i]
  exact Links.headD_eq_iff (hr.isRing i).anchor_notMem

omit [DecidableEq ι] in
theorem tail_eq_invalid_iff (hr : ProclistRep g heads σ) (i : ι) :
    (heads i).tail = invalidPgprocno ↔ σ i = [] := by
  rw [hr.head_eq i]
  exact Links.getLastD_eq_iff (hr.isRing i).anchor_notMem

end ProclistRep

omit [DecidableEq ι] in
/-- A process that follows nothing is the head. -/
theorem ProclistRep.head_of_prev (hr : ProclistRep g heads σ) (hσ : σ i = xs ++ x :: ys)
    (ha : xs.getLastD invalidPgprocno = invalidPgprocno) : (heads i).head = x := by
  have hnot := (hr.isRing i).anchor_notMem
  rw [hσ, List.mem_append, not_or] at hnot
  rw [Links.getLastD_eq_iff hnot.1] at ha
  rw [hr.head_eq i, hσ, ha]
  rfl

omit [DecidableEq ι] in
/-- A process that nothing follows is the tail. -/
theorem ProclistRep.tail_of_next (hr : ProclistRep g heads σ) (hσ : σ i = xs ++ x :: ys)
    (hb : ys.headD invalidPgprocno = invalidPgprocno) : (heads i).tail = x := by
  have hnot := (hr.isRing i).anchor_notMem
  rw [hσ, List.mem_append, List.mem_cons, not_or, not_or] at hnot
  rw [Links.headD_eq_iff hnot.2.2] at hb
  rw [hr.head_eq i, hσ, hb]
  exact List.getLastD_concat

theorem proclistPushHeadOffset_changes (hr : ProclistRep g heads σ) (i : ι)
    (hx : Free g σ x) :
    ∃ list' g', proclistPushHeadOffset g (heads i) x = some (list', g') ∧
      Changes g heads σ i (x :: σ i) list' g' := by
  obtain ⟨list', g', hg', hcount, hi⟩ := proclistPushHeadOffset_inserts hx.1
    (hr.ne_invalid hx.1) (hr.zero x hx.1 hx.2) (hx.ne hr (hr.head_mem i)) (hx.ne hr (hr.tail_mem i))
    ((hr.head_eq_invalid_iff i).trans (hr.tail_eq_invalid_iff i).symm)
    (hr.valid_of_mem (hr.head_mem i))
  have hσ : σ i = [] ++ σ i := rfl
  rw [hr.head_headD i] at hi
  exact ⟨list', g', hg', Changes.insert hr hσ hx hcount hi⟩

theorem proclistPushTailOffset_changes (hr : ProclistRep g heads σ) (i : ι)
    (hx : Free g σ x) :
    ∃ list' g', proclistPushTailOffset g (heads i) x = some (list', g') ∧
      Changes g heads σ i (σ i ++ [x]) list' g' := by
  obtain ⟨list', g', hg', hcount, hi⟩ := proclistPushTailOffset_inserts hx.1
    (hr.ne_invalid hx.1) (hr.zero x hx.1 hx.2) (hx.ne hr (hr.head_mem i)) (hx.ne hr (hr.tail_mem i))
    ((hr.head_eq_invalid_iff i).trans (hr.tail_eq_invalid_iff i).symm)
    (hr.valid_of_mem (hr.tail_mem i))
  have hσ : σ i = σ i ++ [] := (List.append_nil _).symm
  rw [hr.tail_getLastD i] at hi
  exact ⟨list', g', hg', Changes.insert hr hσ hx hcount hi⟩

theorem proclistDeleteOffset_changes (hr : ProclistRep g heads σ)
    (hσ : σ i = xs ++ x :: ys) :
    ∃ list' g', proclistDeleteOffset g (heads i) x = some (list', g') ∧
      Changes g heads σ i (xs ++ ys) list' g' := by
  have hx : x ∈ σ i := by simp [hσ]
  have hnode := hr.node_eq hσ
  have hnz := hr.node_ne_zero hx
  rw [hnode, ne_eq, ProclistNode.mk.injEq, not_and_or] at hnz
  obtain ⟨hxr, -⟩ := Links.nodup_middle.mp (hσ ▸ (hr.isRing i).nodup)
  have ham := Links.getLastD_mem invalidPgprocno xs ys
  have hbm := Links.headD_mem invalidPgprocno xs ys
  have hsub : ∀ w ∈ invalidPgprocno :: (xs ++ ys), w ∈ invalidPgprocno :: σ i := by
    intro w hw
    rw [hσ]
    simp only [List.mem_cons, List.mem_append] at hw ⊢
    tauto
  obtain ⟨list', g', hg', hcount, hzero, hu⟩ := proclistDeleteOffset_unlinks
    (hr.valid hx) hnode hnz (ne_of_mem_of_not_mem ham hxr).symm
    (ne_of_mem_of_not_mem hbm hxr).symm (hr.head_of_prev hσ) (hr.tail_of_next hσ)
    (hr.valid_of_mem (hsub _ ham)) (hr.valid_of_mem (hsub _ hbm))
  exact ⟨list', g', hg', Changes.remove hr hσ hcount hzero hu⟩

theorem proclistPopHeadNodeOffset_changes (hr : ProclistRep g heads σ)
    (hσ : σ i = x :: ys) :
    ∃ list' g', proclistPopHeadNodeOffset g (heads i) = some (x, list', g') ∧
      Changes g heads σ i ys list' g' := by
  have hσ' : σ i = [] ++ x :: ys := hσ
  have hhead : (heads i).head = x := by
    rw [hr.head_eq i, hσ]
    rfl
  have hx : g.Valid x := hr.valid (i := i) (by simp [hσ])
  obtain ⟨list', g', hg', hc⟩ := proclistDeleteOffset_changes hr hσ'
  refine ⟨list', g', ?_, hc⟩
  simp [proclistPopHeadNodeOffset, proclistIsEmpty, pgAssert, hhead, hr.ne_invalid hx,
    proclistNodeGet_of hx, hg']

omit [DecidableEq ι] in
/-- **`proclist_contains_offset`** of a process in the list, and of one in none. -/
theorem proclistContainsOffset_eq (hr : ProclistRep g heads σ) (i : ι) :
    (x ∈ σ i → proclistContainsOffset g (heads i) x = some true) ∧
      (Free g σ x → proclistContainsOffset g (heads i) x = some false) := by
  constructor
  · intro hx
    obtain ⟨xs, ys, hσ⟩ := List.append_of_mem hx
    have hnode := hr.node_eq hσ
    have hnz := hr.node_ne_zero hx
    rw [hnode, ne_eq, ProclistNode.mk.injEq] at hnz
    rw [proclistContainsOffset, proclistNodeGet_of (hr.valid hx), hnode]
    show (if _ then _ else _) = _
    rw [if_neg (mt And.symm hnz), pgAssert_of (or_iff_not_imp_left.mpr fun ha =>
      hr.head_of_prev hσ (not_not.mp ha)), pgAssert_of (or_iff_not_imp_left.mpr fun hb =>
      hr.tail_of_next hσ (not_not.mp hb))]
    rfl
  · intro hx
    simp [proclistContainsOffset, proclistNodeGet_of hx.1, hr.zero x hx.1 hx.2]

/-! ## Deleting while iterating -/

omit [DecidableEq ι] in
theorem proclistIterNext_of (hr : ProclistRep g heads σ) {w : ℤ}
    (hw : w ∈ invalidPgprocno :: σ i) : ∃ next, proclistIterNext g w = some next := by
  rw [proclistIterNext]
  by_cases hwi : w = invalidPgprocno
  · exact ⟨_, if_pos hwi⟩
  · rw [if_neg hwi, proclistNodeGet_of (hr.valid_of_mem hw hwi)]
    exact ⟨_, rfl⟩

/-- The rest of an iteration whose body deletes the processes with `d`, once `xs` are
the processes that were kept. -/
theorem proclistForeachModify_run (d : ℤ → Bool) :
    ∀ (ys xs seen : List ℤ) {g : ProcGlobal} {heads : ι → ProclistHead} {σ : ι → List ℤ}
      {next : ℤ} {fuel : ℕ},
      ProclistRep g heads σ → σ i = xs ++ ys → ys.length < fuel →
      proclistIterNext g (ys.headD invalidPgprocno) = some next →
      ∃ list' g', Loop.run (proclistForeachModifyBody fun g list cur =>
          if d cur then proclistDeleteOffset g list cur else some (list, g)) fuel
          ⟨heads i, g, ys.headD invalidPgprocno, next, seen⟩
          = some ((list', g'), seen ++ ys) ∧
        Changes g heads σ i (xs ++ ys.filter fun v => !d v) list' g'
  | [], xs, seen, g, heads, σ, next, fuel, hr, hσ, hf, _ => by
    obtain ⟨fuel, rfl⟩ := Nat.exists_eq_succ_of_ne_zero (Nat.ne_of_gt hf)
    refine ⟨heads i, g, Loop.run_done (by simp [proclistForeachModifyBody]) fuel, ?_⟩
    have := Changes.refl hr i
    rwa [hσ] at this
  | y :: ys, xs, seen, g, heads, σ, next, fuel, hr, hσ, hf, hnext => by
    obtain ⟨fuel, rfl⟩ := Nat.exists_eq_succ_of_ne_zero (Nat.ne_of_gt (Nat.zero_lt_of_lt hf))
    have hf' : ys.length < fuel := by simpa using hf
    have hy : g.Valid y := hr.valid (i := i) (by simp [hσ])
    have hyi := hr.ne_invalid hy
    obtain rfl : ys.headD invalidPgprocno = next := by
      rw [List.headD_cons, proclistIterNext, if_neg hyi, proclistNodeGet_of hy,
        hr.node_eq hσ] at hnext
      exact Option.some.inj hnext
    -- the round: the body, and the number of the process after the next one
    have hgo : ∀ {list₁ g₁ next₁},
        (if d y then proclistDeleteOffset g (heads i) y else some (heads i, g))
          = some (list₁, g₁) →
        proclistIterNext g₁ (ys.headD invalidPgprocno) = some next₁ →
        proclistForeachModifyBody (fun g list cur =>
          if d cur then proclistDeleteOffset g list cur else some (list, g))
          ⟨heads i, g, (y :: ys).headD invalidPgprocno, ys.headD invalidPgprocno, seen⟩
          = .next ⟨list₁, g₁, ys.headD invalidPgprocno, next₁, seen ++ [y]⟩ := by
      intro list₁ g₁ next₁ h₁ hn₁
      show (if y = invalidPgprocno then _ else _) = _
      rw [if_neg hyi]
      dsimp only [List.headD_cons]
      rw [h₁]
      dsimp only
      rw [hn₁]
    cases hd : d y with
    | true =>
      obtain ⟨l₁, g₁, h₁, hc₁⟩ := proclistDeleteOffset_changes hr hσ
      have hσ₁ : Function.update σ i (xs ++ ys) i = xs ++ ys := Function.update_self i _ σ
      obtain ⟨next₁, hn₁⟩ := proclistIterNext_of hc₁.rep
        (hσ₁.symm ▸ Links.headD_mem invalidPgprocno xs ys)
      obtain ⟨l₂, g₂, h₂, hc₂⟩ :=
        proclistForeachModify_run d ys xs (seen ++ [y]) hc₁.rep hσ₁ hf' hn₁
      rw [Function.update_self] at h₂
      refine ⟨l₂, g₂, ?_, ?_⟩
      · rw [Loop.run_next (hgo (by rw [if_pos hd, h₁]) hn₁), h₂, List.append_assoc]
        rfl
      · rw [List.filter_cons_of_neg (by simp [hd])]
        exact hc₁.trans hc₂
    | false =>
      have hσ' : σ i = xs ++ [y] ++ ys := by simp [hσ]
      obtain ⟨next₁, hn₁⟩ := proclistIterNext_of hr
        (hσ'.symm ▸ Links.headD_mem invalidPgprocno (xs ++ [y]) ys)
      obtain ⟨l₂, g₂, h₂, hc₂⟩ :=
        proclistForeachModify_run d ys (xs ++ [y]) (seen ++ [y]) hr hσ' hf' hn₁
      refine ⟨l₂, g₂, ?_, ?_⟩
      · rw [Loop.run_next (hgo (by rw [if_neg (by simp [hd])]) hn₁), h₂, List.append_assoc]
        rfl
      · rw [List.filter_cons_of_pos (by simp [hd])]
        rwa [List.append_assoc] at hc₂

/-- **`proclist_foreach_modify`** passes every process there was, also where its body
deletes some of them, and leaves the list of the others. -/
theorem proclistForeachModify_changes (hr : ProclistRep g heads σ) (i : ι) (d : ℤ → Bool)
    {fuel : ℕ} (hf : (σ i).length < fuel) :
    ∃ list' g', proclistForeachModify g (heads i) (fun g list cur =>
        if d cur then proclistDeleteOffset g list cur else some (list, g)) fuel
        = some ((list', g'), σ i) ∧
      Changes g heads σ i ((σ i).filter fun v => !d v) list' g' := by
  have hmem := hr.head_mem i
  rw [hr.head_headD i] at hmem
  obtain ⟨next, hn⟩ := proclistIterNext_of hr hmem
  obtain ⟨list', g', h, hc⟩ := proclistForeachModify_run d (σ i) [] [] hr rfl hf hn
  refine ⟨list', g', ?_, hc⟩
  rw [proclistForeachModify, hr.head_headD i, hn]
  exact h

/-! ## Runs -/

/-- A call of one of the functions that change a list. -/
inductive ProclistOp (ι : Type*) where
  | pushHead (list : ι) (procno : ℤ)
  | pushTail (list : ι) (procno : ℤ)
  | delete (list : ι) (procno : ℤ)
  | popHeadNode (list : ι)

/-- The list the call is on. -/
def ProclistOp.target : ProclistOp ι → ι
  | .pushHead list _ | .pushTail list _ | .delete list _ | .popHeadNode list => list

/-- The call: the process it returns, the headers and the processes. -/
def proclistStep (g : ProcGlobal) (heads : ι → ProclistHead) :
    ProclistOp ι → Option (Option ℤ × (ι → ProclistHead) × ProcGlobal)
  | .pushHead list procno => (proclistPushHeadOffset g (heads list) procno).map
      fun r => (none, Function.update heads list r.1, r.2)
  | .pushTail list procno => (proclistPushTailOffset g (heads list) procno).map
      fun r => (none, Function.update heads list r.1, r.2)
  | .delete list procno => (proclistDeleteOffset g (heads list) procno).map
      fun r => (none, Function.update heads list r.1, r.2)
  | .popHeadNode list => (proclistPopHeadNodeOffset g (heads list)).map
      fun r => (some r.1, Function.update heads list r.2.1, r.2.2)

/-- **What a caller has to see to**: a process that is inserted is in no list, one that
is deleted is in the list, and there is something to pop. -/
def ProclistOp.Legal (g : ProcGlobal) (σ : ι → List ℤ) : ProclistOp ι → Prop
  | .pushHead _ procno | .pushTail _ procno => Free g σ procno
  | .delete list procno => procno ∈ σ list
  | .popHeadNode list => σ list ≠ []

/-- **What the call does to the sequence** of the list it is on. -/
def ProclistOp.spec (σ : ι → List ℤ) : ProclistOp ι → List ℤ
  | .pushHead list procno => procno :: σ list
  | .pushTail list procno => σ list ++ [procno]
  | .delete list procno => (σ list).erase procno
  | .popHeadNode list => (σ list).tail

/-- The process the call returns. -/
def ProclistOp.out (σ : ι → List ℤ) : ProclistOp ι → Option ℤ
  | .popHeadNode list => (σ list).head?
  | _ => none

/-- **One call**: no assertion fails and no process outside the array is looked up, and
the list it is on is changed as it should be. -/
theorem proclistStep_refines (hr : ProclistRep g heads σ) {op : ProclistOp ι}
    (hop : op.Legal g σ) :
    ∃ list' g', proclistStep g heads op
        = some (op.out σ, Function.update heads op.target list', g') ∧
      Changes g heads σ op.target (op.spec σ) list' g' := by
  cases op with
  | pushHead list procno =>
    obtain ⟨list', g', h, hc⟩ := proclistPushHeadOffset_changes hr list hop
    exact ⟨list', g', by rw [proclistStep, h]; rfl, hc⟩
  | pushTail list procno =>
    obtain ⟨list', g', h, hc⟩ := proclistPushTailOffset_changes hr list hop
    exact ⟨list', g', by rw [proclistStep, h]; rfl, hc⟩
  | delete list procno =>
    have hin : procno ∈ σ list := hop
    obtain ⟨xs, ys, hσ⟩ := List.append_of_mem hin
    obtain ⟨list', g', h, hc⟩ := proclistDeleteOffset_changes hr hσ
    refine ⟨list', g', by rw [proclistStep, h]; rfl, ?_⟩
    have hnd := (hr.isRing list).nodup_elements
    rw [hσ] at hnd
    have hxs : procno ∉ xs := fun hx =>
      (List.nodup_append.mp hnd).2.2 _ hx _ List.mem_cons_self rfl
    have hspec : ProclistOp.spec σ (.delete list procno) = xs ++ ys := by
      rw [ProclistOp.spec, hσ, List.erase_append_right _ hxs, List.erase_cons_head]
    rwa [hspec]
  | popHeadNode list =>
    obtain ⟨x, ys, hσ⟩ := List.exists_cons_of_ne_nil hop
    obtain ⟨list', g', h, hc⟩ := proclistPopHeadNodeOffset_changes hr hσ
    refine ⟨list', g', ?_, ?_⟩
    · rw [proclistStep, h, ProclistOp.out, hσ]
      rfl
    · rwa [ProclistOp.spec, hσ]

/-- **A run** from empty lists and processes that are in none. -/
inductive ProclistRun : ProcGlobal → (ι → ProclistHead) → (ι → List ℤ) → Prop where
  | start (g : ProcGlobal) (hcount : g.allProcCount ≤ invalidPgprocno)
      (hzero : ∀ p, g.Valid p → g.allProcs p = ⟨0, 0⟩) :
      ProclistRun g (fun _ => proclistInit) fun _ => []
  | step {g g' : ProcGlobal} {heads heads' : ι → ProclistHead} {σ : ι → List ℤ}
      {op : ProclistOp ι} {out : Option ℤ} :
      ProclistRun g heads σ → op.Legal g σ → proclistStep g heads op = some (out, heads', g') →
      ProclistRun g' heads' (Function.update σ op.target (op.spec σ))

/-- After any run the headers and the nodes represent the sequences. -/
theorem ProclistRun.rep (hrun : ProclistRun g heads σ) : ProclistRep g heads σ := by
  induction hrun with
  | start g hcount hzero =>
    exact ⟨hcount, fun i => Links.IsRing.empty rfl rfl,
      fun _ _ hp => absurd hp List.not_mem_nil, fun _ _ _ hp => absurd hp List.not_mem_nil,
      fun p hp _ => hzero p hp⟩
  | step _ hop hstep ih =>
    obtain ⟨list', g', h, hc⟩ := proclistStep_refines ih hop
    rw [hstep, Option.some.injEq, Prod.mk.injEq, Prod.mk.injEq] at h
    rw [h.2.1, h.2.2]
    exact hc.rep

/-- **A list is the sequence**: its header has the ends, every process in it has the
links to its neighbours, and it is found to be in it. -/
structure ProclistReads (g : ProcGlobal) (list : ProclistHead) (s : List ℤ) : Prop where
  nodup : s.Nodup
  head_eq : list = ⟨s.headD invalidPgprocno, s.getLastD invalidPgprocno⟩
  node_eq : ∀ xs p ys, s = xs ++ p :: ys →
    g.allProcs p = ⟨ys.headD invalidPgprocno, xs.getLastD invalidPgprocno⟩
  isEmpty_iff : proclistIsEmpty list = true ↔ s = []
  contains : ∀ p ∈ s, proclistContainsOffset g list p = some true

/-- **Every run is a run of sequences.** After any run, over any number of lists, each
list is a sequence of distinct processes, no two of them having one in common; a process
is in no list if and only if its links are both zero, and then it is found to be in
none; every list can be iterated over, deleting processes on the way; and whatever may
be called next fails no assertion, returns what it should, and changes the list it is on
as it should, and no other. -/
theorem proclistRun_refines (hrun : ProclistRun g heads σ) :
    ProclistRep g heads σ ∧ (∀ i, ProclistReads g (heads i) (σ i)) ∧
      (∀ p, g.Valid p → ((∀ i, p ∉ σ i) ↔ g.allProcs p = ⟨0, 0⟩)) ∧
      (∀ i p, Free g σ p → proclistContainsOffset g (heads i) p = some false) ∧
      (∀ (i : ι) (d : ℤ → Bool) (fuel : ℕ), (σ i).length < fuel →
        ∃ list' g', proclistForeachModify g (heads i) (fun g list cur =>
            if d cur then proclistDeleteOffset g list cur else some (list, g)) fuel
            = some ((list', g'), σ i) ∧
          Changes g heads σ i ((σ i).filter fun v => !d v) list' g') ∧
      ∀ op : ProclistOp ι, op.Legal g σ → ∃ list' g', proclistStep g heads op
          = some (op.out σ, Function.update heads op.target list', g') ∧
        Changes g heads σ op.target (op.spec σ) list' g' := by
  have hr := hrun.rep
  refine ⟨hr, fun i => ⟨(hr.isRing i).nodup_elements, hr.head_eq i,
      fun xs p ys hσ => hr.node_eq hσ, ?_, fun p hp => (proclistContainsOffset_eq hr i).1 hp⟩,
    fun p hp => hr.node_eq_zero_iff hp, fun i p hp => (proclistContainsOffset_eq hr i).2 hp,
    fun i d fuel hf => proclistForeachModify_changes hr i d hf,
    fun op hop => proclistStep_refines hr hop⟩
  rw [proclistIsEmpty, decide_eq_true_iff]
  exact hr.head_eq_invalid_iff i

/-- Two lists of three processes: processes 1 and 0 are put into the first one, and 2
into the second, and process 1 is deleted again. -/
theorem proclistRun_refines_three :
    ∃ (g : ProcGlobal) (heads : Bool → ProclistHead),
      proclistContainsOffset g (heads false) 0 = some true ∧
      proclistContainsOffset g (heads false) 1 = some false ∧
      g.allProcs 0 = ⟨invalidPgprocno, invalidPgprocno⟩ := by
  have h₀ : ProclistRun ⟨3, fun _ => ⟨0, 0⟩⟩ (fun _ : Bool => proclistInit) fun _ => [] :=
    .start _ (by decide) fun _ _ => rfl
  have h₁ := h₀.step
    (show ProclistOp.Legal _ _ (.pushHead false 1) from ⟨by decide, by simp⟩) rfl
  have h₂ := h₁.step
    (show ProclistOp.Legal _ _ (.pushTail false 0) from ⟨by decide, by decide⟩) rfl
  have h₃ := h₂.step
    (show ProclistOp.Legal _ _ (.pushHead true 2) from ⟨by decide, by decide⟩) rfl
  have h₄ := h₃.step
    (show ProclistOp.Legal _ _ (.delete false 1) from List.mem_cons_self) rfl
  have h := proclistRun_refines h₄
  exact ⟨_, _, (h.2.1 false).contains 0 (by decide),
    h.2.2.2.1 false 1 ⟨by decide, by decide⟩, (h.2.1 false).node_eq [] 0 [] (by decide)⟩

end Proclist

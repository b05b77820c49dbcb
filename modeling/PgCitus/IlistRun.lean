import Mathlib.Data.Set.Insert
import PgCitus.Ilist

/-!
# The lists of a heap are sequences

Any number of `dlist`s in one heap, under any sequence of operations. `heads` are
the addresses of the headers and `σ h` is the sequence of the list with header `h`:
what the list is for. `DlistRep` connects the two: the links lead round every list
in the order of its sequence, a header of two null pointers standing for an empty
one, and no node is in two lists.

Every operation changes one list, the way `DlistOp.spec` changes its sequence
(`dlistStep_refines`), and writes to no node of another one. So what holds of
headers that are initialized or zeroed holds after every run, and the functions
that look at a list answer as they do for the sequence (`dlistRun_refines`).
-/

namespace Ilist

variable {P : Type*} [DecidableEq P] {heads : Set P} {m m' m'' : DlistHeap P}
  {σ : P → List P} {h x : P} {xs ys new : List P}

open Links (Apart)

/-- **The heap represents the sequences.** -/
structure DlistRep (heads : Set P) (m : DlistHeap P) (σ : P → List P) : Prop where
  /-- The links lead round the list, or the header is a pair of null pointers. -/
  header : ∀ h ∈ heads, (links m).IsRing h (σ h) ∨ (m h = ⟨none, none⟩ ∧ σ h = [])
  /-- No header is in a list. -/
  notMem_heads : ∀ ⦃h x⦄, x ∈ σ h → x ∉ heads
  /-- Only headers have a list. -/
  eq_nil : ∀ h ∉ heads, σ h = []
  /-- No node is in two lists. -/
  apart : Apart σ

/-- A node that is in no list, nor the header of one. -/
def Free (heads : Set P) (σ : P → List P) (x : P) : Prop := x ∉ heads ∧ ∀ h, x ∉ σ h

namespace DlistRep

omit [DecidableEq P] in
theorem mem_heads (hr : DlistRep heads m σ) (hx : x ∈ σ h) : h ∈ heads := by
  by_contra hh
  rw [hr.eq_nil h hh] at hx
  exact List.not_mem_nil hx

omit [DecidableEq P] in
/-- A list that is not empty is linked. -/
theorem isRing (hr : DlistRep heads m σ) (hx : x ∈ σ h) : (links m).IsRing h (σ h) := by
  rcases hr.header h (hr.mem_heads hx) with hring | ⟨-, hnil⟩
  · exact hring
  · rw [hnil] at hx
    exact absurd hx List.not_mem_nil

omit [DecidableEq P] in
/-- The vertices of one list are not those of another. -/
theorem ne_of_mem (hr : DlistRep heads m σ) (hh : h ∈ heads) {h' v w : P}
    (hh' : h' ∈ heads) (hne : h' ≠ h) (hv : v ∈ h' :: σ h') (hw : w ∈ h :: σ h) : v ≠ w := by
  rintro rfl
  rw [List.mem_cons] at hv hw
  rcases hv with rfl | hv
  · rcases hw with hw | hw
    · exact hne hw
    · exact hr.notMem_heads hw hh'
  · rcases hw with rfl | hw
    · exact hr.notMem_heads hv hh
    · exact hne (hr.apart hv hw)

end DlistRep

/-- **A change of one list**: its sequence becomes `new`, and no node of another
list, nor its header, is written. -/
structure Changes (heads : Set P) (m : DlistHeap P) (σ : P → List P) (h : P)
    (new : List P) (m' : DlistHeap P) : Prop where
  /-- The new heap represents the new sequences. -/
  rep : DlistRep heads m' (Function.update σ h new)
  /-- The frame. -/
  keeps : ∀ h' ∈ heads, h' ≠ h → ∀ v ∈ h' :: σ h', m' v = m v

namespace Changes

theorem refl (hr : DlistRep heads m σ) (h : P) : Changes heads m σ h (σ h) m where
  rep := by rwa [Function.update_eq_self]
  keeps := fun _ _ _ _ _ => rfl

/-- Two changes of one list, one after the other. -/
theorem trans (h₁ : Changes heads m σ h xs m')
    (h₂ : Changes heads m' (Function.update σ h xs) h ys m'') :
    Changes heads m σ h ys m'' where
  rep := by
    have := h₂.rep
    rwa [Function.update_idem] at this
  keeps := fun h' hh' hne v hv => by
    rw [h₂.keeps h' hh' hne v (by rwa [Function.update_of_ne hne]),
      h₁.keeps h' hh' hne v hv]

/-- A change, from the ring of the list itself. -/
theorem of_isRing (hr : DlistRep heads m σ) (hh : h ∈ heads)
    (hring : (links m').IsRing h new) (hnew : ∀ v ∈ new, v ∈ σ h ∨ Free heads σ v)
    (hkeeps : ∀ h' ∈ heads, h' ≠ h → ∀ v ∈ h' :: σ h', m' v = m v) :
    Changes heads m σ h new m' := by
  refine ⟨⟨fun h' hh' => ?_, fun h' v hv => ?_, fun h' hh' => ?_, ?_⟩, hkeeps⟩
  · by_cases hne : h' = h
    · subst hne
      rw [Function.update_self]
      exact Or.inl hring
    · rw [Function.update_of_ne hne]
      have hsame := hkeeps h' hh' hne
      refine (hr.header h' hh').imp (fun hring' => ?_) fun hnull => ?_
      · refine hring'.congr (fun v hv => ?_) fun v hv => ?_
        · rw [links_next, links_next, hsame v hv]
        · rw [links_prev, links_prev, hsame v hv]
      · rwa [hsame h' List.mem_cons_self]
  · by_cases hne : h' = h
    · rw [hne, Function.update_self] at hv
      exact (hnew v hv).elim (fun hv' => hr.notMem_heads hv') fun hfree => hfree.1
    · rw [Function.update_of_ne hne] at hv
      exact hr.notMem_heads hv
  · rw [Function.update_of_ne (ne_of_mem_of_not_mem hh hh').symm]
    exact hr.eq_nil h' hh'
  · exact hr.apart.update fun v hv => (hnew v hv).imp_right fun hfree => hfree.2

/-- A node is linked in. -/
theorem insert (hr : DlistRep heads m σ) (hh : h ∈ heads)
    (hring : (links m).IsRing h (xs ++ ys)) (hσ : σ h = xs ++ ys) (hx : Free heads σ x)
    (hi : (links m).Inserts (links m') (xs.getLastD h) x (ys.headD h)) :
    Changes heads m σ h (xs ++ x :: ys) m' := by
  have hxr : x ∉ h :: (xs ++ ys) := by
    rw [List.mem_cons, ← hσ]
    rintro (rfl | hx')
    · exact hx.1 hh
    · exact hx.2 h hx'
  refine of_isRing hr hh (hring.insert hxr hi) (fun v hv => ?_) fun h' hh' hne v hv => ?_
  · rw [List.mem_append, List.mem_cons] at hv
    rw [hσ, List.mem_append]
    rcases hv with hv | rfl | hv
    · exact Or.inl (Or.inl hv)
    · exact Or.inr hx
    · exact Or.inl (Or.inr hv)
  · have hvx : v ≠ x := by
      rintro rfl
      rcases List.mem_cons.mp hv with rfl | hv
      · exact hx.1 hh'
      · exact hx.2 h' hv
    have hother : ∀ w ∈ h :: (xs ++ ys), v ≠ w := fun w hw =>
      hr.ne_of_mem hh hh' hne hv (hσ ▸ hw)
    refine node_eq_of_links (hi.next_of_ne v (hother _ ?_) hvx)
      (hi.prev_of_ne v (hother _ ?_) hvx)
    · exact Links.getLastD_mem h xs ys
    · exact Links.headD_mem h xs ys

/-- A node is taken out. -/
theorem remove (hr : DlistRep heads m σ) (hσ : σ h = xs ++ x :: ys)
    (hu : (links m).Unlinks (links m') (xs.getLastD h) x (ys.headD h)) :
    Changes heads m σ h (xs ++ ys) m' := by
  have hx : x ∈ σ h := by simp [hσ]
  have hh := hr.mem_heads hx
  have hring := hr.isRing hx
  rw [hσ] at hring
  refine of_isRing hr hh (hring.remove hu) (fun v hv => ?_) fun h' hh' hne v hv => ?_
  · rw [List.mem_append] at hv
    rw [hσ, List.mem_append, List.mem_cons]
    tauto
  · have hother : ∀ w ∈ h :: (xs ++ x :: ys), v ≠ w := fun w hw =>
      hr.ne_of_mem hh hh' hne hv (hσ ▸ hw)
    have hvx : v ≠ x := hother x (by simp)
    refine node_eq_of_links (hu.next_of_ne v (hother _ ?_) hvx)
      (hu.prev_of_ne v (hother _ ?_) hvx)
    · exact Links.getLastD_mem h xs (x :: ys)
    · have := Links.headD_mem h (xs ++ [x]) ys
      rwa [List.append_assoc] at this

end Changes

/-! ## The functions -/

/-- `dlist_init` makes the list empty. -/
theorem dlistInit_changes (hr : DlistRep heads m σ) (hh : h ∈ heads) :
    Changes heads m σ h [] (dlistInit m h) := by
  refine Changes.of_isRing hr hh (Links.IsRing.empty ?_ ?_) (fun v hv => ?_)
    fun h' hh' hne v hv => ?_
  · simp [dlistInit]
  · simp [dlistInit]
  · exact absurd hv List.not_mem_nil
  · have hvh := hr.ne_of_mem hh hh' hne hv List.mem_cons_self
    exact node_eq_of_links (by simp [dlistInit, hvh]) (by simp [dlistInit, hvh])

/-- A null header becomes circular, and every other one stays as it is. -/
theorem dlistCircular_changes (hr : DlistRep heads m σ) (hh : h ∈ heads) :
    Changes heads m σ h (σ h) (dlistCircular m h) ∧
      (links (dlistCircular m h)).IsRing h (σ h) := by
  rw [dlistCircular]
  rcases hr.header h hh with hring | ⟨hnull, hnil⟩
  · have hnext : (m h).next ≠ none := by
      have := hring.next_anchor
      rw [links_next] at this
      rw [this]
      exact Option.some_ne_none _
    rw [if_neg hnext]
    exact ⟨Changes.refl hr h, hring⟩
  · rw [if_pos (by rw [hnull]), hnil]
    exact ⟨dlistInit_changes hr hh,
      Links.IsRing.empty (by simp [dlistInit]) (by simp [dlistInit])⟩

omit [DecidableEq P] in
/-- A header and a node that is free are not the same, nor is any node of a list. -/
theorem Free.ne (hx : Free heads σ x) (hh : h ∈ heads) {w : P} (hw : w ∈ h :: σ h) :
    x ≠ w := by
  rintro rfl
  rcases List.mem_cons.mp hw with rfl | hw
  · exact hx.1 hh
  · exact hx.2 h hw

theorem dlistPushHead_changes (hr : DlistRep heads m σ) (hh : h ∈ heads)
    (hx : Free heads σ x) :
    ∃ m', dlistPushHead m h x = some m' ∧ Changes heads m σ h (x :: σ h) m' := by
  obtain ⟨hc, hring⟩ := dlistCircular_changes hr hh
  have hself : Function.update σ h (σ h) = σ := Function.update_eq_self h σ
  have hb : (σ h).headD h ∈ h :: σ h := Links.headD_mem h [] (σ h)
  obtain ⟨m', hm', hi⟩ := dlistPushHead_inserts (m := m) hring.next_anchor
    (hx.ne hh List.mem_cons_self) (hx.ne hh hb)
  refine ⟨m', hm', hc.trans ?_⟩
  have hrep := hc.rep
  rw [hself] at hrep ⊢
  have hring' : (links (dlistCircular m h)).IsRing h ([] ++ σ h) := hring
  exact Changes.insert hrep hh hring' rfl hx hi

theorem dlistPushTail_changes (hr : DlistRep heads m σ) (hh : h ∈ heads)
    (hx : Free heads σ x) :
    ∃ m', dlistPushTail m h x = some m' ∧ Changes heads m σ h (σ h ++ [x]) m' := by
  obtain ⟨hc, hring⟩ := dlistCircular_changes hr hh
  have hself : Function.update σ h (σ h) = σ := Function.update_eq_self h σ
  obtain ⟨m', hm', hi⟩ := dlistPushTail_inserts (m := m) hring.prev_anchor
    (hx.ne hh List.mem_cons_self) (hx.ne hh (Links.getLastD_mem_cons h (σ h)))
  refine ⟨m', hm', hc.trans ?_⟩
  have hrep := hc.rep
  rw [hself] at hrep ⊢
  have hnil : (links (dlistCircular m h)).IsRing h (σ h ++ []) := by
    rwa [List.append_nil]
  exact Changes.insert hrep hh hnil (List.append_nil _).symm hx hi

theorem dlistInsertAfter_changes (hr : DlistRep heads m σ) {after : P}
    (hσ : σ h = xs ++ after :: ys) (hx : Free heads σ x) :
    ∃ m', dlistInsertAfter m after x = some m' ∧
      Changes heads m σ h (xs ++ after :: x :: ys) m' := by
  have hafter : after ∈ σ h := by simp [hσ]
  have hh := hr.mem_heads hafter
  have hring := hr.isRing hafter
  have hσ' : σ h = xs ++ [after] ++ ys := by simp [hσ]
  have hlast : (xs ++ [after]).getLastD h = after := List.getLastD_concat
  have hb : ys.headD h ∈ h :: σ h := hσ' ▸ Links.headD_mem h (xs ++ [after]) ys
  obtain ⟨m', hm', hi⟩ := dlistInsertAfter_inserts (m := m) (hσ ▸ hring).next_element
    (hx.ne hh (List.mem_cons_of_mem _ hafter)) (hx.ne hh hb)
  refine ⟨m', hm', ?_⟩
  rw [hσ'] at hring
  have := Changes.insert hr hh hring hσ' hx (by rwa [hlast])
  rwa [List.append_assoc, List.singleton_append] at this

theorem dlistInsertBefore_changes (hr : DlistRep heads m σ) {before : P}
    (hσ : σ h = xs ++ before :: ys) (hx : Free heads σ x) :
    ∃ m', dlistInsertBefore m before x = some m' ∧
      Changes heads m σ h (xs ++ x :: before :: ys) m' := by
  have hbefore : before ∈ σ h := by simp [hσ]
  have hh := hr.mem_heads hbefore
  have hring := hr.isRing hbefore
  rw [hσ] at hring
  have ha : xs.getLastD h ∈ h :: σ h := hσ ▸ Links.getLastD_mem h xs (before :: ys)
  obtain ⟨m', hm', hi⟩ := dlistInsertBefore_inserts (m := m) hring.prev_element
    (hx.ne hh ha) (hx.ne hh (List.mem_cons_of_mem _ hbefore))
  exact ⟨m', hm', Changes.insert hr hh hring hσ hx hi⟩

theorem dlistDelete_changes (hr : DlistRep heads m σ) (hσ : σ h = xs ++ x :: ys) :
    ∃ m', dlistDelete m x = some m' ∧ Changes heads m σ h (xs ++ ys) m' := by
  have hx : x ∈ σ h := by simp [hσ]
  have hring := hr.isRing hx
  rw [hσ] at hring
  obtain ⟨m', hm', hu⟩ := dlistDelete_unlinks (m := m) hring.prev_element hring.next_element
  exact ⟨m', hm', Changes.remove hr hσ hu⟩


/-- The header of a list that is not empty, or of one that is. -/
theorem dlistIsEmpty_iff (hr : DlistRep heads m σ) (hh : h ∈ heads) :
    dlistIsEmpty m h = true ↔ σ h = [] := by
  rw [dlistIsEmpty, decide_eq_true_iff]
  rcases hr.header h hh with hring | ⟨hnull, hnil⟩
  · have hnext : (m h).next = some ((σ h).headD h) := hring.next_anchor
    have hnot := hring.anchor_notMem
    rw [hnext]
    cases hσ : σ h with
    | nil => simp
    | cons y l =>
      have hyh : y ≠ h := by
        rintro rfl
        exact hnot (by simp [hσ])
      simp [hyh]
  · exact iff_of_true (Or.inl (by rw [hnull])) hnil

theorem dlistPopHeadNode_changes (hr : DlistRep heads m σ) (hσ : σ h = x :: ys) :
    ∃ m', dlistPopHeadNode m h = some (x, m') ∧ Changes heads m σ h ys m' := by
  have hx : x ∈ σ h := by simp [hσ]
  have hempty : ¬ dlistIsEmpty m h = true := by
    rw [dlistIsEmpty_iff hr (hr.mem_heads hx), hσ]
    exact List.cons_ne_nil x ys
  have hnext : (m h).next = some x := by
    have := (hr.isRing hx).next_anchor
    rwa [hσ] at this
  have hσ' : σ h = [] ++ x :: ys := hσ
  obtain ⟨m', hm', hc⟩ := dlistDelete_changes hr hσ'
  exact ⟨m', by simp [dlistPopHeadNode, hempty, hnext, hm'], hc⟩

omit [DecidableEq P] in
/-- A node that is taken out of its list is free. -/
theorem DlistRep.free_of_remove [DecidableEq P] (hr : DlistRep heads m σ)
    (hσ : σ h = xs ++ x :: ys) : Free heads (Function.update σ h (xs ++ ys)) x := by
  have hx : x ∈ σ h := by simp [hσ]
  have hnd := (hr.isRing hx).nodup
  rw [hσ] at hnd
  refine ⟨hr.notMem_heads hx, fun h' hx' => ?_⟩
  by_cases hne : h' = h
  · rw [hne, Function.update_self] at hx'
    exact (Links.nodup_middle.mp hnd).1 (List.mem_cons_of_mem _ hx')
  · rw [Function.update_of_ne hne] at hx'
    exact hne (hr.apart hx' hx)

theorem dlistMoveHead_changes (hr : DlistRep heads m σ) (hσ : σ h = xs ++ x :: ys) :
    ∃ m', dlistMoveHead m h x = some m' ∧ Changes heads m σ h (x :: (xs ++ ys)) m' := by
  have hx : x ∈ σ h := by simp [hσ]
  rw [dlistMoveHead]
  by_cases hfast : (m h).next = some x
  · rw [if_pos hfast]
    have hring := hr.isRing hx
    rw [hσ] at hring
    obtain rfl := hring.eq_nil_of_next_anchor hfast
    refine ⟨m, rfl, ?_⟩
    have := Changes.refl hr h
    rwa [hσ] at this
  · rw [if_neg hfast]
    obtain ⟨m₁, hm₁, hc₁⟩ := dlistDelete_changes hr hσ
    obtain ⟨m₂, hm₂, hc₂⟩ := dlistPushHead_changes hc₁.rep (hr.mem_heads hx)
      (hr.free_of_remove hσ)
    refine ⟨m₂, by simp [hm₁, hm₂], hc₁.trans ?_⟩
    rwa [Function.update_self] at hc₂

theorem dlistMoveTail_changes (hr : DlistRep heads m σ) (hσ : σ h = xs ++ x :: ys) :
    ∃ m', dlistMoveTail m h x = some m' ∧ Changes heads m σ h (xs ++ ys ++ [x]) m' := by
  have hx : x ∈ σ h := by simp [hσ]
  rw [dlistMoveTail]
  by_cases hfast : (m h).prev = some x
  · rw [if_pos hfast]
    have hring := hr.isRing hx
    rw [hσ] at hring
    obtain rfl := hring.eq_nil_of_prev_anchor hfast
    refine ⟨m, rfl, ?_⟩
    have := Changes.refl hr h
    rwa [hσ, ← List.append_nil xs] at this
  · rw [if_neg hfast]
    obtain ⟨m₁, hm₁, hc₁⟩ := dlistDelete_changes hr hσ
    obtain ⟨m₂, hm₂, hc₂⟩ := dlistPushTail_changes hc₁.rep (hr.mem_heads hx)
      (hr.free_of_remove hσ)
    refine ⟨m₂, by simp [hm₁, hm₂], hc₁.trans ?_⟩
    rwa [Function.update_self] at hc₂


/-! ## One operation -/

/-- A call of one of the functions. -/
inductive DlistOp (P : Type*) where
  | init (head : P)
  | pushHead (head node : P)
  | pushTail (head node : P)
  | insertAfter (after node : P)
  | insertBefore (before node : P)
  | delete (node : P)
  | popHeadNode (head : P)
  | moveHead (head node : P)
  | moveTail (head node : P)

/-- The call, and the node it returns. -/
def dlistStep (m : DlistHeap P) : DlistOp P → Option (Option P × DlistHeap P)
  | .init head => some (none, dlistInit m head)
  | .pushHead head node => (dlistPushHead m head node).map (none, ·)
  | .pushTail head node => (dlistPushTail m head node).map (none, ·)
  | .insertAfter after node => (dlistInsertAfter m after node).map (none, ·)
  | .insertBefore before node => (dlistInsertBefore m before node).map (none, ·)
  | .delete node => (dlistDelete m node).map (none, ·)
  | .popHeadNode head => (dlistPopHeadNode m head).map fun r => (some r.1, r.2)
  | .moveHead head node => (dlistMoveHead m head node).map (none, ·)
  | .moveTail head node => (dlistMoveTail m head node).map (none, ·)

/-- **What a caller has to see to**: a node that is inserted is in no list, one
that is deleted, moved or inserted next to is in one, and there is something to
pop. -/
def DlistOp.Legal (heads : Set P) (σ : P → List P) : DlistOp P → Prop
  | .init head => head ∈ heads
  | .pushHead head node | .pushTail head node => head ∈ heads ∧ Free heads σ node
  | .insertAfter other node | .insertBefore other node =>
    (∃ h, other ∈ σ h) ∧ Free heads σ node
  | .delete node => ∃ h, node ∈ σ h
  | .popHeadNode head => σ head ≠ []
  | .moveHead head node | .moveTail head node => node ∈ σ head

/-- Every `a` of a sequence, replaced by the elements of `l`. -/
def seqReplace (a : P) (l : List P) (s : List P) : List P :=
  s.flatMap fun v => if v = a then l else [v]

/-- **What the call does to the sequences.** -/
def DlistOp.spec (σ : P → List P) : DlistOp P → P → List P
  | .init head => Function.update σ head []
  | .pushHead head node => Function.update σ head (node :: σ head)
  | .pushTail head node => Function.update σ head (σ head ++ [node])
  | .insertAfter after node => fun h => seqReplace after [after, node] (σ h)
  | .insertBefore before node => fun h => seqReplace before [node, before] (σ h)
  | .delete node => fun h => (σ h).erase node
  | .popHeadNode head => Function.update σ head (σ head).tail
  | .moveHead head node => Function.update σ head (node :: (σ head).erase node)
  | .moveTail head node => Function.update σ head ((σ head).erase node ++ [node])

/-- The node the call returns. -/
def DlistOp.out (σ : P → List P) : DlistOp P → Option P
  | .popHeadNode head => (σ head).head?
  | _ => none

/-- The list the call is on. -/
def DlistOp.On (σ : P → List P) (h : P) : DlistOp P → Prop
  | .init head | .pushHead head _ | .pushTail head _ | .popHeadNode head
  | .moveHead head _ | .moveTail head _ => h = head
  | .insertAfter node _ | .insertBefore node _ | .delete node => node ∈ σ h

theorem seqReplace_of_notMem {a : P} {l s : List P} (ha : a ∉ s) : seqReplace a l s = s := by
  induction s with
  | nil => rfl
  | cons v s ih =>
    rw [List.mem_cons, not_or] at ha
    rw [seqReplace, List.flatMap_cons, if_neg (Ne.symm ha.1)]
    exact congrArg (v :: ·) (ih ha.2)

theorem seqReplace_middle {a : P} {l : List P} (hnd : (xs ++ a :: ys).Nodup) :
    seqReplace a l (xs ++ a :: ys) = xs ++ l ++ ys := by
  have hperm := List.perm_middle.nodup_iff.mp hnd
  rw [List.nodup_cons, List.mem_append, not_or] at hperm
  rw [seqReplace, List.flatMap_append, List.flatMap_cons, if_pos rfl, List.append_assoc]
  exact congrArg₂ (· ++ ·) (seqReplace_of_notMem hperm.1.1)
    (congrArg (l ++ ·) (seqReplace_of_notMem hperm.1.2))

theorem erase_middle (hnd : (xs ++ x :: ys).Nodup) :
    (xs ++ x :: ys).erase x = xs ++ ys := by
  have hperm := List.perm_middle.nodup_iff.mp hnd
  rw [List.nodup_cons, List.mem_append, not_or] at hperm
  rw [List.erase_append_right _ hperm.1.1, List.erase_cons_head]

/-- **One call**: it does not fail, it does to the sequences what it should, and
every list it is not on stays as it is, in the sequence and in the memory. -/
theorem dlistStep_refines (hr : DlistRep heads m σ) {op : DlistOp P}
    (hop : op.Legal heads σ) :
    ∃ m', dlistStep m op = some (op.out σ, m') ∧ DlistRep heads m' (op.spec σ) ∧
      ∀ h ∈ heads, ¬ op.On σ h → op.spec σ h = σ h ∧ ∀ v ∈ h :: σ h, m' v = m v := by
  -- it is enough that the call changes the list it is on
  have key : ∀ {h : P} {new : List P} {m' : DlistHeap P}, op.On σ h →
      op.spec σ = Function.update σ h new → Changes heads m σ h new m' →
      dlistStep m op = some (op.out σ, m') →
      ∃ m', dlistStep m op = some (op.out σ, m') ∧ DlistRep heads m' (op.spec σ) ∧
        ∀ h ∈ heads, ¬ op.On σ h → op.spec σ h = σ h ∧ ∀ v ∈ h :: σ h, m' v = m v := by
    intro h new m' hon hspec hc hm'
    refine ⟨m', hm', hspec ▸ hc.rep, fun h' hh' hnot => ?_⟩
    have hne : h' ≠ h := fun he => hnot (he ▸ hon)
    exact ⟨by rw [hspec, Function.update_of_ne hne], hc.keeps h' hh' hne⟩
  -- a list with a given node, cut there
  have hsplit : ∀ {h v : P}, v ∈ σ h → ∃ xs ys, σ h = xs ++ v :: ys ∧
      (xs ++ v :: ys).Nodup := by
    intro h v hv
    obtain ⟨xs, ys, hσ⟩ := List.append_of_mem hv
    exact ⟨xs, ys, hσ, hσ ▸ (hr.isRing hv).nodup_elements⟩
  cases op with
  | init head => exact key rfl rfl (dlistInit_changes hr hop) rfl
  | pushHead head node =>
    obtain ⟨m', hm', hc⟩ := dlistPushHead_changes hr hop.1 hop.2
    exact key rfl rfl hc (by rw [dlistStep, hm']; rfl)
  | pushTail head node =>
    obtain ⟨m', hm', hc⟩ := dlistPushTail_changes hr hop.1 hop.2
    exact key rfl rfl hc (by rw [dlistStep, hm']; rfl)
  | insertAfter after node =>
    obtain ⟨⟨h, hin⟩, hfree⟩ := hop
    obtain ⟨xs, ys, hσ, hnd⟩ := hsplit hin
    obtain ⟨m', hm', hc⟩ := dlistInsertAfter_changes hr hσ hfree
    refine key hin ?_ hc (by rw [dlistStep, hm']; rfl)
    rw [DlistOp.spec, hr.apart.map_eq_update (fun l hl => seqReplace_of_notMem hl) hin, hσ,
      seqReplace_middle hnd]
    simp
  | insertBefore before node =>
    obtain ⟨⟨h, hin⟩, hfree⟩ := hop
    obtain ⟨xs, ys, hσ, hnd⟩ := hsplit hin
    obtain ⟨m', hm', hc⟩ := dlistInsertBefore_changes hr hσ hfree
    refine key hin ?_ hc (by rw [dlistStep, hm']; rfl)
    rw [DlistOp.spec, hr.apart.map_eq_update (fun l hl => seqReplace_of_notMem hl) hin, hσ,
      seqReplace_middle hnd]
    simp
  | delete node =>
    obtain ⟨h, hin⟩ := hop
    obtain ⟨xs, ys, hσ, hnd⟩ := hsplit hin
    obtain ⟨m', hm', hc⟩ := dlistDelete_changes hr hσ
    refine key hin ?_ hc (by rw [dlistStep, hm']; rfl)
    rw [DlistOp.spec, hr.apart.map_eq_update (fun l hl => List.erase_of_not_mem hl) hin, hσ,
      erase_middle hnd]
  | popHeadNode head =>
    obtain ⟨x, ys, hσ⟩ := List.exists_cons_of_ne_nil hop
    obtain ⟨m', hm', hc⟩ := dlistPopHeadNode_changes hr hσ
    refine key rfl ?_ hc ?_
    · rw [DlistOp.spec, hσ, List.tail_cons]
    · rw [dlistStep, hm', DlistOp.out, hσ]
      rfl
  | moveHead head node =>
    obtain ⟨xs, ys, hσ, hnd⟩ := hsplit hop
    obtain ⟨m', hm', hc⟩ := dlistMoveHead_changes hr hσ
    refine key rfl ?_ hc (by rw [dlistStep, hm']; rfl)
    rw [DlistOp.spec, hσ, erase_middle hnd]
  | moveTail head node =>
    obtain ⟨xs, ys, hσ, hnd⟩ := hsplit hop
    obtain ⟨m', hm', hc⟩ := dlistMoveTail_changes hr hσ
    refine key rfl ?_ hc (by rw [dlistStep, hm']; rfl)
    rw [DlistOp.spec, hσ, erase_middle hnd]


/-! ## What is read off a list -/

/-- **The list is read as the sequence it is.** -/
structure DlistReads (m : DlistHeap P) (h : P) (s : List P) : Prop where
  isEmpty_iff : dlistIsEmpty m h = true ↔ s = []
  headNode_eq : dlistHeadNode m h = s.head?
  tailNode_eq : dlistTailNode m h = s.getLast?
  hasNext_iff : ∀ xs x ys, s = xs ++ x :: ys → (dlistHasNext m h x = true ↔ ys ≠ [])
  nextNode_eq : ∀ xs x ys, s = xs ++ x :: ys → dlistNextNode m h x = ys.head?
  hasPrev_iff : ∀ xs x ys, s = xs ++ x :: ys → (dlistHasPrev m h x = true ↔ xs ≠ [])
  prevNode_eq : ∀ xs x ys, s = xs ++ x :: ys → dlistPrevNode m h x = xs.getLast?
  foreach_eq : ∀ fuel, s.length < fuel → dlistForeach m h fuel = some s
  reverseForeach_eq : ∀ fuel, s.length < fuel →
    dlistReverseForeach m h fuel = some s.reverse

theorem DlistRep.reads (hr : DlistRep heads m σ) (hh : h ∈ heads) :
    DlistReads m h (σ h) := by
  have hempty := dlistIsEmpty_iff hr hh
  rcases hr.header h hh with hring | ⟨hnull, hnil⟩
  · have hnext : (m h).next = some ((σ h).headD h) := hring.next_anchor
    have hprev : (m h).prev = some ((σ h).getLastD h) := hring.prev_anchor
    have hout : ∀ {xs x ys}, σ h = xs ++ x :: ys →
        (h ∉ xs ∧ h ∉ ys) ∧ (m x).next = some (ys.headD h) ∧
          (m x).prev = some (xs.getLastD h) := by
      intro xs x ys hσ
      have hnot := hring.anchor_notMem
      rw [hσ] at hring hnot
      rw [List.mem_append, List.mem_cons, not_or, not_or] at hnot
      exact ⟨⟨hnot.1, hnot.2.2⟩, hring.next_element, hring.prev_element⟩
    have hhasNext : ∀ xs x ys, σ h = xs ++ x :: ys →
        (dlistHasNext m h x = true ↔ ys ≠ []) := by
      intro xs x ys hσ
      rw [dlistHasNext, decide_eq_true_iff, (hout hσ).2.1, ne_eq, Option.some.injEq,
        Links.headD_eq_iff (hout hσ).1.2]
    have hhasPrev : ∀ xs x ys, σ h = xs ++ x :: ys →
        (dlistHasPrev m h x = true ↔ xs ≠ []) := by
      intro xs x ys hσ
      rw [dlistHasPrev, decide_eq_true_iff, (hout hσ).2.2, ne_eq, Option.some.injEq,
        Links.getLastD_eq_iff (hout hσ).1.1]
    refine ⟨hempty, ?_, ?_, hhasNext, ?_, hhasPrev, ?_, ?_, ?_⟩
    · by_cases hnil : σ h = []
      · rw [dlistHeadNode, if_pos (hempty.mpr hnil), hnil]
        rfl
      · rw [dlistHeadNode, if_neg (mt hempty.mp hnil), hnext, Links.some_headD hnil]
    · by_cases hnil : σ h = []
      · rw [dlistTailNode, if_pos (hempty.mpr hnil), hnil]
        rfl
      · rw [dlistTailNode, if_neg (mt hempty.mp hnil), hprev, Links.some_getLastD hnil]
    · intro xs x ys hσ
      by_cases hnil : ys = []
      · rw [dlistNextNode, if_neg (by rw [hhasNext xs x ys hσ]; exact not_not.mpr hnil), hnil]
        rfl
      · rw [dlistNextNode, if_pos ((hhasNext xs x ys hσ).mpr hnil), (hout hσ).2.1,
          Links.some_headD hnil]
    · intro xs x ys hσ
      by_cases hnil : xs = []
      · rw [dlistPrevNode, if_neg (by rw [hhasPrev xs x ys hσ]; exact not_not.mpr hnil), hnil]
        rfl
      · rw [dlistPrevNode, if_pos ((hhasPrev xs x ys hσ).mpr hnil), (hout hσ).2.2,
          Links.some_getLastD hnil]
    · intro fuel hf
      rw [dlistForeach, if_neg (by rw [hnext]; exact Option.some_ne_none _)]
      exact hring.walk hf
    · intro fuel hf
      rw [dlistReverseForeach, if_neg (by rw [hprev]; exact Option.some_ne_none _)]
      exact hring.reverse.walk (by rwa [List.length_reverse])
  · -- a header of null pointers: every iteration ends at once
    have hsplit : ∀ {xs x ys}, σ h = xs ++ x :: ys → False := fun hσ => by simp [hnil] at hσ
    refine ⟨hempty, ?_, ?_, fun _ _ _ hσ => (hsplit hσ).elim, fun _ _ _ hσ => (hsplit hσ).elim,
      fun _ _ _ hσ => (hsplit hσ).elim, fun _ _ _ hσ => (hsplit hσ).elim, ?_, ?_⟩
    · rw [dlistHeadNode, if_pos (hempty.mpr hnil), hnil]
      rfl
    · rw [dlistTailNode, if_pos (hempty.mpr hnil), hnil]
      rfl
    · rintro (_ | fuel) hf
      · exact absurd hf (by simp)
      · rw [dlistForeach, if_pos (by rw [hnull]), hnil]
        exact Loop.run_done (by simp) fuel
    · rintro (_ | fuel) hf
      · exact absurd hf (by simp)
      · rw [dlistReverseForeach, if_pos (by rw [hnull]), hnil]
        exact Loop.run_done (by simp) fuel


/-! ## Deleting while iterating -/

/-- The rest of an iteration whose body deletes the nodes with `p`, once `xs` are the
nodes that were kept. -/
theorem dlistForeachModify_run (p : P → Bool) :
    ∀ (ys xs seen : List P) {m : DlistHeap P} {σ : P → List P} {fuel : ℕ},
      DlistRep heads m σ → σ h = xs ++ ys → ys.length < fuel →
      ∃ m', Loop.run (dlistForeachModifyBody h
          fun m cur => if p cur then dlistDelete m cur else some m) fuel
          ⟨m, some (ys.headD h), (m (ys.headD h)).next, seen⟩ = some (m', seen ++ ys) ∧
        Changes heads m σ h (xs ++ ys.filter fun v => !p v) m'
  | [], xs, seen, m, σ, fuel, hr, hσ, hf => by
    obtain ⟨fuel, rfl⟩ := Nat.exists_eq_succ_of_ne_zero (Nat.ne_of_gt hf)
    refine ⟨m, Loop.run_done (by simp [dlistForeachModifyBody]) fuel, ?_⟩
    have := Changes.refl hr h
    rwa [hσ] at this
  | y :: ys, xs, seen, m, σ, fuel, hr, hσ, hf => by
    obtain ⟨fuel, rfl⟩ := Nat.exists_eq_succ_of_ne_zero (Nat.ne_of_gt (Nat.zero_lt_of_lt hf))
    have hf' : ys.length < fuel := by simpa using hf
    have hy : y ∈ σ h := by simp [hσ]
    have hring := hr.isRing hy
    have hyh : y ≠ h := fun he => hring.anchor_notMem (he ▸ hy)
    rw [hσ] at hring
    have hnext : (m y).next = some (ys.headD h) := hring.next_element
    have hgo : ∀ m₁, (if p y then dlistDelete m y else some m) = some m₁ →
        dlistForeachModifyBody h (fun m cur => if p cur then dlistDelete m cur else some m)
            ⟨m, some ((y :: ys).headD h), (m ((y :: ys).headD h)).next, seen⟩
          = .next ⟨m₁, some (ys.headD h), (m₁ (ys.headD h)).next, seen ++ [y]⟩ := by
      intro m₁ hm₁
      simp [dlistForeachModifyBody, hyh, hnext, hm₁]
    cases hp : p y with
    | true =>
      obtain ⟨m₁, hm₁, hc₁⟩ := dlistDelete_changes hr hσ
      obtain ⟨m₂, hm₂, hc₂⟩ := dlistForeachModify_run p ys xs (seen ++ [y]) hc₁.rep
        (Function.update_self h _ σ) hf'
      refine ⟨m₂, ?_, ?_⟩
      · rw [Loop.run_next (hgo m₁ (by rw [if_pos hp, hm₁])), hm₂, List.append_assoc]
        rfl
      · rw [List.filter_cons_of_neg (by simp [hp])]
        exact hc₁.trans hc₂
    | false =>
      have hσ' : σ h = xs ++ [y] ++ ys := by simp [hσ]
      obtain ⟨m₂, hm₂, hc₂⟩ := dlistForeachModify_run p ys (xs ++ [y]) (seen ++ [y]) hr hσ' hf'
      refine ⟨m₂, ?_, ?_⟩
      · rw [Loop.run_next (hgo m (by rw [if_neg (by simp [hp])])), hm₂, List.append_assoc]
        rfl
      · rw [List.filter_cons_of_pos (by simp [hp])]
        rwa [List.append_assoc] at hc₂

/-- **`dlist_foreach_modify`** passes every node there was, also where its body
deletes some of them, and leaves the list of the others. -/
theorem dlistForeachModify_changes (hr : DlistRep heads m σ) (hh : h ∈ heads)
    (p : P → Bool) {fuel : ℕ} (hf : (σ h).length < fuel) :
    ∃ m', dlistForeachModify m h (fun m cur => if p cur then dlistDelete m cur else some m)
        fuel = some (m', σ h) ∧
      Changes heads m σ h ((σ h).filter fun v => !p v) m' := by
  have hcur : (if (m h).next = none then some h else (m h).next)
      = some ((σ h).headD h) := by
    rcases hr.header h hh with hring | ⟨hnull, hnil⟩
    · have hnext : (m h).next = some ((σ h).headD h) := hring.next_anchor
      rw [if_neg (by rw [hnext]; exact Option.some_ne_none _), hnext]
    · rw [if_pos (by rw [hnull]), hnil]
      rfl
  obtain ⟨m', hm', hc⟩ := dlistForeachModify_run p (σ h) [] [] hr rfl hf
  refine ⟨m', ?_, hc⟩
  rw [dlistForeachModify]
  simp only [hcur]
  exact hm'

/-! ## Runs -/

/-- **A run** from headers that are initialized or zeroed, the other nodes being
whatever they are. Each call is one the caller may make. -/
inductive DlistRun (heads : Set P) : DlistHeap P → (P → List P) → Prop where
  | start (m : DlistHeap P)
      (hstart : ∀ h ∈ heads, m h = ⟨some h, some h⟩ ∨ m h = ⟨none, none⟩) :
      DlistRun heads m fun _ => []
  | step {m m' : DlistHeap P} {σ : P → List P} {op : DlistOp P} {out : Option P} :
      DlistRun heads m σ → op.Legal heads σ → dlistStep m op = some (out, m') →
      DlistRun heads m' (op.spec σ)

/-- After any run the heap represents the sequences. -/
theorem DlistRun.rep (hrun : DlistRun heads m σ) : DlistRep heads m σ := by
  induction hrun with
  | start m hstart =>
    refine ⟨fun h hh => (hstart h hh).imp (fun hcirc => ?_) fun hnull => ⟨hnull, rfl⟩,
      fun _ _ hx => absurd hx List.not_mem_nil, fun _ _ => rfl,
      fun _ _ _ hx => absurd hx List.not_mem_nil⟩
    exact Links.IsRing.empty (by rw [links_next, hcirc]) (by rw [links_prev, hcirc])
  | step _ hop hstep ih =>
    obtain ⟨m₁, hm₁, hrep, -⟩ := dlistStep_refines ih hop
    rw [hstep, Option.some.injEq, Prod.mk.injEq] at hm₁
    rw [hm₁.2]
    exact hrep

/-- **Every run is a run of sequences.** After any run, over any number of lists,
the links lead round each list in the order of its sequence, whose nodes are
distinct and in no other list; each list is read as its sequence, forwards,
backwards, and while deleting nodes; and whatever may be called next succeeds,
returns what it should, does to the sequences what it should, and leaves every
other list as it is. -/
theorem dlistRun_refines (hrun : DlistRun heads m σ) :
    DlistRep heads m σ ∧ (∀ h, (σ h).Nodup) ∧ (∀ h ∈ heads, DlistReads m h (σ h)) ∧
      (∀ h ∈ heads, ∀ (p : P → Bool) (fuel : ℕ), (σ h).length < fuel →
        ∃ m', dlistForeachModify m h
            (fun m cur => if p cur then dlistDelete m cur else some m) fuel
            = some (m', σ h) ∧
          DlistRep heads m' (Function.update σ h ((σ h).filter fun v => !p v))) ∧
      ∀ op : DlistOp P, op.Legal heads σ → ∃ m', dlistStep m op = some (op.out σ, m') ∧
        DlistRep heads m' (op.spec σ) ∧
        ∀ h ∈ heads, ¬ op.On σ h → op.spec σ h = σ h ∧ ∀ v ∈ h :: σ h, m' v = m v := by
  have hr := hrun.rep
  refine ⟨hr, fun h => ?_, fun h hh => hr.reads hh, fun h hh p fuel hf => ?_,
    fun op hop => dlistStep_refines hr hop⟩
  · cases hσ : σ h with
    | nil => exact List.nodup_nil
    | cons x l => exact hσ ▸ (hr.isRing (hσ ▸ List.mem_cons_self)).nodup_elements
  · obtain ⟨m', hm', hc⟩ := dlistForeachModify_changes hr hh p hf
    exact ⟨m', hm', hc.rep⟩


/-- Two headers, of which the first is zeroed and the second circular: node 2 is put
into the list of the first, node 3 after it, and node 3 then moved to the head. -/
theorem dlistRun_refines_moved :
    ∃ m : DlistHeap ℕ, dlistForeach m 0 3 = some [3, 2] ∧ dlistIsEmpty m 1 = true := by
  have hfree : ∀ x : ℕ, 2 ≤ x → ∀ σ : ℕ → List ℕ, (∀ h, x ∉ σ h) → Free {0, 1} σ x :=
    fun x hx σ hσ => ⟨by simp; omega, hσ⟩
  have h₀ : DlistRun {0, 1}
      (fun p => if p = 0 then ⟨none, none⟩ else ⟨some 1, some 1⟩) fun _ => [] :=
    .start _ (by simp)
  have h₁ : DlistRun {0, 1} _ (DlistOp.spec _ (.pushHead 0 2)) :=
    h₀.step ⟨by simp, hfree 2 (by decide) _ (by simp)⟩ rfl
  have h₂ : DlistRun {0, 1} _ (DlistOp.spec _ (.insertAfter 2 3)) :=
    h₁.step ⟨⟨0, by simp [DlistOp.spec]⟩, hfree 3 (by decide) _ fun h => by
      by_cases hh : h = 0 <;> simp [DlistOp.spec, hh]⟩ rfl
  have h₃ : DlistRun {0, 1} _ (DlistOp.spec _ (.moveHead 0 3)) :=
    h₂.step (by simp [DlistOp.Legal, DlistOp.spec, seqReplace]) rfl
  have h := (dlistRun_refines h₃).2.2.1
  refine ⟨_, (h 0 (by simp)).foreach_eq 3 (by decide), (h 1 (by simp)).isEmpty_iff.mpr ?_⟩
  simp [DlistOp.spec, seqReplace]

end Ilist

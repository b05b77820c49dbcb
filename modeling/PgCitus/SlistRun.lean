import Mathlib.Data.Set.Insert
import PgCitus.IlistRun
import PgCitus.Slist

/-!
# Singly linked lists are sequences

The rest of the `slist` half of `lib/ilist.h`, and what becomes of any number of lists in one
memory, of which nothing is known at the start. `heads` are the headers that have been
initialized, and `σ h` is the sequence that the list of `h` is for. A header is a node like the
others, and a call may make any node a header, or one again, that is not in a list.

A node may be put into a list only while it is in none, and only the caller sees to that: the
links of a node that was popped, or whose list was initialized again, stay as they were.
Nothing reads them (`slistRun_refines`).
-/

namespace Slist

open LinkChain
open Ilist (seqReplace seqReplace_of_notMem seqReplace_middle)
open Links (Apart)

variable {P : Type*} [DecidableEq P]

/-! ## The functions -/

/-- `slist_init`. -/
def slistInit (m : SlistHeap P) (head : P) : SlistHeap P := Function.update m head none

/-- `slist_is_empty`. -/
def slistIsEmpty (m : SlistHeap P) (head : P) : Bool := decide (m head = none)

/-- `slist_push_head`. -/
def slistPushHead (m : SlistHeap P) (head node : P) : SlistHeap P :=
  let m := Function.update m node (m head)
  Function.update m head (some node)

/-- `slist_insert_after`. -/
def slistInsertAfter (m : SlistHeap P) (after node : P) : SlistHeap P :=
  let m := Function.update m node (m after)
  Function.update m after (some node)

/-- `slist_pop_head_node`. -/
def slistPopHeadNode (m : SlistHeap P) (head : P) : Option (P × SlistHeap P) :=
  if slistIsEmpty m head then none
  else (m head).map fun node => (node, Function.update m head (m node))

/-- `slist_has_next`. -/
def slistHasNext (m : SlistHeap P) (_head node : P) : Bool := decide (m node ≠ none)

/-- `slist_next_node`. -/
def slistNextNode (m : SlistHeap P) (head node : P) : Option P :=
  if slistHasNext m head node then m node else none

/-- `slist_head_node`. -/
def slistHeadNode (m : SlistHeap P) (head : P) : Option P :=
  if slistIsEmpty m head then none else m head

/-- A round of `slist_foreach`, with a body that notes the node. -/
def slistForeachBody (m : SlistHeap P) (it : Option P × List P) :
    Loop.Step (Option P × List P) (List P) :=
  match it.1 with
  | none => .done it.2
  | some cur => .next (m cur, it.2 ++ [cur])

/-- `slist_foreach`: the nodes that are visited. -/
def slistForeach (m : SlistHeap P) (head : P) (fuel : ℕ) : Option (List P) :=
  Loop.run (slistForeachBody m) fuel (m head, [])

/-! ## Calls -/

/-- A call that writes to the memory. -/
inductive SlistOp (P : Type*) where
  | init (head : P)
  | pushHead (head node : P)
  | insertAfter (after node : P)
  | popHeadNode (head : P)
  /-- `slist_foreach_modify`, with a body that deletes the nodes with `d`. -/
  | foreachDelete (head : P) (d : P → Bool)

/-- The call, on the memory, with what it returns; `fuel` is for the loop. -/
def slistStep (fuel : ℕ) (m : SlistHeap P) : SlistOp P → Option (Option P × SlistHeap P)
  | .init head => some (none, slistInit m head)
  | .pushHead head node => some (none, slistPushHead m head node)
  | .insertAfter after node => some (none, slistInsertAfter m after node)
  | .popHeadNode head => (slistPopHeadNode m head).map fun (node, m) => (some node, m)
  | .foreachDelete head d =>
    (slistForeachModify m head (deleteThose d) fuel).map fun (m, _) => (none, m)

/-- A node that is in no list, nor the header of one. -/
def Free (heads : Set P) (σ : P → List P) (x : P) : Prop := x ∉ heads ∧ ∀ h, x ∉ σ h

/-- What the caller sees to. -/
def SlistOp.Legal (heads : Set P) (σ : P → List P) : SlistOp P → Prop
  | .init head => ∀ h, head ∉ σ h
  | .pushHead head node => head ∈ heads ∧ Free heads σ node
  | .insertAfter after node => (∃ h, after ∈ σ h) ∧ Free heads σ node
  | .popHeadNode head => σ head ≠ []
  | .foreachDelete head _ => head ∈ heads

/-- The headers afterwards. -/
def SlistOp.headers (heads : Set P) : SlistOp P → Set P
  | .init head => insert head heads
  | _ => heads

/-- **What the call does to the sequences.** -/
def SlistOp.spec (σ : P → List P) : SlistOp P → P → List P
  | .init head => Function.update σ head []
  | .pushHead head node => Function.update σ head (node :: σ head)
  | .insertAfter after node => fun h => seqReplace after [after, node] (σ h)
  | .popHeadNode head => Function.update σ head (σ head).tail
  | .foreachDelete head d => Function.update σ head ((σ head).filter fun v => !d v)

/-- The node the call returns. -/
def SlistOp.out (σ : P → List P) : SlistOp P → Option P
  | .popHeadNode head => (σ head).head?
  | _ => none

/-- The list the call is on. -/
def SlistOp.On (σ : P → List P) (h : P) : SlistOp P → Prop
  | .init head | .pushHead head _ | .popHeadNode head | .foreachDelete head _ => h = head
  | .insertAfter node _ => node ∈ σ h

/-! ## What the memory stands for -/

variable {heads : Set P} {m m' : SlistHeap P} {σ : P → List P} {h x : P} {xs ys new : List P}

/-- **The memory represents the sequences.** -/
structure SlistRep (heads : Set P) (m : SlistHeap P) (σ : P → List P) : Prop where
  /-- From each header the links lead along its sequence, and end there. -/
  isSlist : ∀ h ∈ heads, IsSlist m h (σ h)
  /-- No header is in a list. -/
  notMem_heads : ∀ ⦃h x⦄, x ∈ σ h → x ∉ heads
  /-- Only headers have a list. -/
  eq_nil : ∀ h ∉ heads, σ h = []
  /-- No node is in two lists. -/
  apart : Apart σ

namespace SlistRep

omit [DecidableEq P] in
theorem mem_heads (hr : SlistRep heads m σ) (hx : x ∈ σ h) : h ∈ heads := by
  by_contra hh
  rw [hr.eq_nil h hh] at hx
  exact List.not_mem_nil hx

omit [DecidableEq P] in
/-- The nodes of one list are not those of another. -/
theorem ne_of_mem (hr : SlistRep heads m σ) (hh : h ∈ heads) {h' v w : P} (hh' : h' ∈ heads)
    (hne : h' ≠ h) (hv : v ∈ h' :: σ h') (hw : w ∈ h :: σ h) : v ≠ w := by
  rintro rfl
  rcases List.mem_cons.mp hv with rfl | hv
  · rcases List.mem_cons.mp hw with rfl | hw
    · exact hne rfl
    · exact hr.notMem_heads hw hh'
  · rcases List.mem_cons.mp hw with rfl | hw
    · exact hr.notMem_heads hv hh
    · exact hne (hr.apart hv hw)

/-- A list is given another sequence. Nothing is written but to its nodes, those it had and
those it has now. -/
theorem update (hr : SlistRep heads m σ) (hh : h ∈ heads) (hlist : IsSlist m' h new)
    (hnew : ∀ v ∈ new, v ∈ σ h ∨ Free heads σ v)
    (hwrites : ∀ v, v ∉ h :: σ h → v ∉ new → m' v = m v) :
    SlistRep heads m' (Function.update σ h new) ∧
      ∀ h' ∈ heads, h' ≠ h → ∀ v ∈ h' :: σ h', m' v = m v := by
  have hkeeps : ∀ h' ∈ heads, h' ≠ h → ∀ v ∈ h' :: σ h', m' v = m v := by
    intro h' hh' hne v hv
    refine hwrites v (fun hw => hr.ne_of_mem hh hh' hne hv hw rfl) fun hvnew => ?_
    rcases hnew v hvnew with hin | hfree
    · exact hr.ne_of_mem hh hh' hne hv (List.mem_cons_of_mem h hin) rfl
    · rcases List.mem_cons.mp hv with rfl | hv
      · exact hfree.1 hh'
      · exact hfree.2 h' hv
  refine ⟨⟨fun h' hh' => ?_, fun h' v hv => ?_, fun h' hh' => ?_, ?_⟩, hkeeps⟩
  · by_cases hne : h' = h
    · rw [hne, Function.update_self]
      exact hlist
    · rw [Function.update_of_ne hne]
      exact (hr.isSlist h' hh').congr (hkeeps h' hh' hne)
  · by_cases hne : h' = h
    · rw [hne, Function.update_self] at hv
      exact (hnew v hv).elim (fun hin => hr.notMem_heads hin) fun hfree => hfree.1
    · rw [Function.update_of_ne hne] at hv
      exact hr.notMem_heads hv
  · rw [Function.update_of_ne (ne_of_mem_of_not_mem hh hh').symm]
    exact hr.eq_nil h' hh'
  · exact hr.apart.update fun v hv => (hnew v hv).imp_right fun hfree => hfree.2

/-- A node is put in after a node, or after the header. -/
theorem insertAfter (hr : SlistRep heads m σ) (hh : h ∈ heads) {p : P}
    (hsplit : h :: σ h = xs ++ p :: ys) (hx : Free heads σ x)
    (hnew : h :: new = xs ++ p :: x :: ys) :
    SlistRep heads (slistInsertAfter m p x) (Function.update σ h new) ∧
      ∀ h' ∈ heads, h' ≠ h → ∀ v ∈ h' :: σ h', slistInsertAfter m p x v = m v := by
  have hlist : Chain m (xs ++ p :: ys) := hsplit ▸ hr.isSlist h hh
  have hxh : x ≠ h := fun he => hx.1 (he ▸ hh)
  have hxl : x ∉ xs ++ p :: ys := by
    rw [← hsplit, List.mem_cons, not_or]
    exact ⟨hxh, hx.2 h⟩
  have hmem : ∀ v, v ∈ xs ++ p :: x :: ys ↔ v = x ∨ v ∈ xs ++ p :: ys := by
    intro v
    simp only [List.mem_append, List.mem_cons]
    tauto
  refine hr.update hh ?_ (fun v hv => ?_) fun v hv hvn => ?_
  · show Chain _ (h :: new)
    rw [hnew]
    exact hlist.link hxl
  · rcases (hmem v).mp (hnew ▸ List.mem_cons_of_mem h hv) with rfl | hv'
    · exact Or.inr hx
    · rcases List.mem_cons.mp (hsplit ▸ hv') with rfl | hv'
      · -- the header comes first only
        have hnd : (v :: new).Nodup := hnew ▸ (hlist.link hxl).nodup
        exact absurd hv (List.nodup_cons.mp hnd).1
      · exact Or.inl hv'
  · rw [hsplit] at hv
    have hvp : v ≠ p := by
      rintro rfl
      exact hv (List.mem_append_right xs List.mem_cons_self)
    have hvx : v ≠ x := by
      rintro rfl
      have hin : v ∈ h :: new := hnew ▸ (hmem v).mpr (Or.inl rfl)
      exact (List.mem_cons.mp hin).elim hxh hvn
    show Function.update (Function.update m x (m p)) p (some x) v = m v
    rw [Function.update_of_ne hvp, Function.update_of_ne hvx]

/-- The first node is taken out. -/
theorem popHeadNode (hr : SlistRep heads m σ) (hσ : σ h = x :: ys) :
    slistPopHeadNode m h = some (x, Function.update m h (m x)) ∧
      SlistRep heads (Function.update m h (m x)) (Function.update σ h ys) ∧
      ∀ h' ∈ heads, h' ≠ h → ∀ v ∈ h' :: σ h', Function.update m h (m x) v = m v := by
  have hh : h ∈ heads := hr.mem_heads (hσ ▸ List.mem_cons_self)
  have hlist : Chain m (h :: x :: ys) := hσ ▸ hr.isSlist h hh
  have hfirst : m h = some x := hlist.linked.1
  have hnext : m x = ys.head? := hlist.linked.2.1
  have hpopped : Chain (Function.update m h ys.head?) ([] ++ h :: ys) := Chain.unlink hlist
  refine ⟨?_, ?_⟩
  · unfold slistPopHeadNode slistIsEmpty
    rw [hfirst]
    rfl
  · refine hr.update hh ?_ (fun v hv => Or.inl (hσ ▸ List.mem_cons_of_mem x hv)) fun v hv _ => ?_
    · rw [hnext]
      exact hpopped
    · rw [List.mem_cons, not_or] at hv
      exact Function.update_of_ne hv.1 _ _

/-- A list is made empty, of a header or of any node that is in no list. -/
theorem init (hr : SlistRep heads m σ) (hh : ∀ h', h ∉ σ h') :
    SlistRep (insert h heads) (slistInit m h) (Function.update σ h []) ∧
      ∀ h' ∈ heads, h' ≠ h → ∀ v ∈ h' :: σ h', slistInit m h v = m v := by
  have hkeeps : ∀ h', h' ≠ h → ∀ v ∈ h' :: σ h', slistInit m h v = m v := by
    intro h' hne v hv
    refine Function.update_of_ne ?_ _ _
    rintro rfl
    exact (List.mem_cons.mp hv).elim (fun he => hne he.symm) (hh h')
  refine ⟨⟨fun h' hh' => ?_, fun h' v hv => ?_, fun h' hh' => ?_, ?_⟩,
    fun h' _ hne => hkeeps h' hne⟩
  · by_cases hne : h' = h
    · rw [hne, Function.update_self]
      exact Chain.single m h
    · rw [Function.update_of_ne hne]
      exact (hr.isSlist h' (Set.mem_of_mem_insert_of_ne hh' hne)).congr (hkeeps h' hne)
  · by_cases hne : h' = h
    · rw [hne, Function.update_self] at hv
      exact absurd hv List.not_mem_nil
    · rw [Function.update_of_ne hne] at hv
      exact fun hvi => (Set.mem_insert_iff.mp hvi).elim (fun he => hh h' (he ▸ hv))
        (hr.notMem_heads hv)
  · rw [Set.mem_insert_iff, not_or] at hh'
    rw [Function.update_of_ne hh'.1]
    exact hr.eq_nil h' hh'.2
  · exact hr.apart.update fun v hv => absurd hv List.not_mem_nil

/-- Nodes are deleted while iterating. -/
theorem foreachDelete (hr : SlistRep heads m σ) (hh : h ∈ heads) (d : P → Bool) {fuel : ℕ}
    (hf : (σ h).length < fuel) :
    ∃ m', slistForeachModify m h (deleteThose d) fuel = some (m', σ h) ∧
      SlistRep heads m' (Function.update σ h ((σ h).filter fun v => !d v)) ∧
      ∀ h' ∈ heads, h' ≠ h → ∀ v ∈ h' :: σ h', m' v = m v := by
  obtain ⟨m', hrun, hchain, hframe⟩ :=
    slistForeachModify_run d (σ h) [] [] (hr.isSlist h hh) hf
  refine ⟨m', ?_, ?_⟩
  · unfold slistForeachModify
    dsimp only
    rw [show m h = (σ h).head? from (hr.isSlist h hh).linked.1]
    exact hrun
  · exact hr.update hh hchain (fun v hv => Or.inl (List.mem_of_mem_filter hv))
      fun v hv _ => hframe v hv

end SlistRep

/-- **One call**: it does not fail, it returns and does to the sequences what it should, and
every list it is not on stays as it is, in the sequence and in the memory. -/
theorem slistStep_refines (hr : SlistRep heads m σ) {op : SlistOp P} (hop : op.Legal heads σ)
    {fuel : ℕ} (hf : ∀ h, op.On σ h → (σ h).length < fuel) :
    ∃ m', slistStep fuel m op = some (op.out σ, m') ∧
      SlistRep (op.headers heads) m' (op.spec σ) ∧
      ∀ h ∈ heads, ¬ op.On σ h → op.spec σ h = σ h ∧ ∀ v ∈ h :: σ h, m' v = m v := by
  -- it is enough that the call changes the list it is on
  have key {h : P} {new : List P} {m' : SlistHeap P} (hon : op.On σ h)
      (hspec : op.spec σ = Function.update σ h new)
      (hstep : slistStep fuel m op = some (op.out σ, m'))
      (hc : SlistRep (op.headers heads) m' (Function.update σ h new) ∧
        ∀ h' ∈ heads, h' ≠ h → ∀ v ∈ h' :: σ h', m' v = m v) :
      ∃ m', slistStep fuel m op = some (op.out σ, m') ∧
        SlistRep (op.headers heads) m' (op.spec σ) ∧
        ∀ h ∈ heads, ¬ op.On σ h → op.spec σ h = σ h ∧ ∀ v ∈ h :: σ h, m' v = m v := by
    refine ⟨m', hstep, hspec ▸ hc.1, fun h' hh' hnot => ?_⟩
    have hne : h' ≠ h := fun he => hnot (he ▸ hon)
    exact ⟨by rw [hspec, Function.update_of_ne hne], hc.2 h' hh' hne⟩
  cases op with
  | init head => exact key rfl rfl rfl (hr.init hop)
  | pushHead head node =>
    have hsplit : head :: σ head = [] ++ head :: σ head := rfl
    have hnew : head :: node :: σ head = [] ++ head :: node :: σ head := rfl
    exact key rfl rfl rfl (hr.insertAfter hop.1 hsplit hop.2 hnew)
  | insertAfter after node =>
    obtain ⟨⟨h, hin⟩, hfree⟩ := hop
    obtain ⟨xs, ys, hσ⟩ := List.append_of_mem hin
    have hnd : (xs ++ after :: ys).Nodup :=
      hσ ▸ (List.nodup_cons.mp (hr.isSlist h (hr.mem_heads hin)).nodup).2
    have hsplit : h :: σ h = (h :: xs) ++ after :: ys := congrArg (h :: ·) hσ
    have hnew : h :: (xs ++ after :: node :: ys) = (h :: xs) ++ after :: node :: ys := rfl
    refine key hin ?_ rfl (hr.insertAfter (hr.mem_heads hin) hsplit hfree hnew)
    rw [SlistOp.spec, hr.apart.map_eq_update (fun l hl => seqReplace_of_notMem hl) hin, hσ,
      seqReplace_middle hnd, List.append_assoc]
    rfl
  | popHeadNode head =>
    obtain ⟨x, ys, hσ⟩ := List.exists_cons_of_ne_nil hop
    obtain ⟨hpop, hc⟩ := hr.popHeadNode hσ
    refine key rfl ?_ ?_ hc
    · rw [SlistOp.spec, hσ]
      rfl
    · rw [slistStep, hpop, SlistOp.out, hσ]
      rfl
  | foreachDelete head d =>
    obtain ⟨m', hm', hc⟩ := hr.foreachDelete hop d (hf head rfl)
    refine key rfl rfl ?_ hc
    rw [slistStep, hm']
    rfl

/-- What the functions that look at a list answer, for its sequence. -/
structure SlistReads (m : SlistHeap P) (h : P) (l : List P) : Prop where
  isEmpty_iff : slistIsEmpty m h = true ↔ l = []
  headNode_eq : slistHeadNode m h = l.head?
  hasNext_iff : ∀ xs x ys, l = xs ++ x :: ys → (slistHasNext m h x = true ↔ ys ≠ [])
  nextNode_eq : ∀ xs x ys, l = xs ++ x :: ys → slistNextNode m h x = ys.head?
  foreach_eq : ∀ fuel, l.length < fuel → slistForeach m h fuel = some l

omit [DecidableEq P] in
/-- The rest of an iteration, with `ys` to come. -/
theorem slistForeach_run (seen : List P) {fuel : ℕ} (hlinked : Linked m ys)
    (hf : ys.length < fuel) :
    Loop.run (slistForeachBody m) fuel (ys.head?, seen) = some (seen ++ ys) := by
  induction ys generalizing seen fuel with
  | nil =>
    obtain ⟨fuel, rfl⟩ := Nat.exists_eq_succ_of_ne_zero (Nat.ne_of_gt hf)
    rw [List.append_nil]
    exact Loop.run_done rfl fuel
  | cons y ys ih =>
    obtain ⟨fuel, rfl⟩ := Nat.exists_eq_succ_of_ne_zero (Nat.ne_of_gt (Nat.zero_lt_of_lt hf))
    have hbody : slistForeachBody m ((y :: ys).head?, seen) = .next (ys.head?, seen ++ [y]) := by
      show Loop.Step.next (m y, seen ++ [y]) = _
      rw [hlinked.1]
    rw [Loop.run_next hbody, ih (seen ++ [y]) hlinked.2 (Nat.lt_of_succ_lt_succ hf),
      List.append_assoc]
    rfl

omit [DecidableEq P] in
theorem SlistRep.reads (hr : SlistRep heads m σ) (hh : h ∈ heads) : SlistReads m h (σ h) := by
  have hlinked := (hr.isSlist h hh).linked
  have hfirst : m h = (σ h).head? := hlinked.1
  have hempty : slistIsEmpty m h = true ↔ σ h = [] := by
    rw [slistIsEmpty, decide_eq_true_iff, hfirst, List.head?_eq_none_iff]
  have hnext {xs : List P} {x : P} {ys : List P} (hσ : σ h = xs ++ x :: ys) :
      m x = ys.head? := by
    have hl := hlinked
    rw [hσ, ← List.cons_append] at hl
    exact hl.next_eq
  have hhas {xs : List P} {x : P} {ys : List P} (hσ : σ h = xs ++ x :: ys) :
      slistHasNext m h x = true ↔ ys ≠ [] := by
    rw [slistHasNext, decide_eq_true_iff, hnext hσ, ne_eq, List.head?_eq_none_iff]
  refine ⟨hempty, ?_, fun _ _ _ hσ => hhas hσ, fun xs x ys hσ => ?_, fun fuel hf => ?_⟩
  · by_cases hnil : σ h = []
    · rw [slistHeadNode, if_pos (hempty.mpr hnil), hnil]
      rfl
    · rw [slistHeadNode, if_neg (mt hempty.mp hnil), hfirst]
  · by_cases hnil : ys = []
    · rw [slistNextNode, if_neg (fun hp => (hhas hσ).mp hp hnil), hnil]
      rfl
    · rw [slistNextNode, if_pos ((hhas hσ).mpr hnil), hnext hσ]
  · rw [slistForeach, hfirst]
    exact slistForeach_run [] hlinked.2 hf

/-! ## Runs -/

/-- **A run**, from a memory with anything in it and no list yet. Each call is one the caller
may make, and it ends. -/
inductive SlistRun : Set P → SlistHeap P → (P → List P) → Prop where
  | start (m : SlistHeap P) : SlistRun ∅ m fun _ => []
  | step {heads : Set P} {m m' : SlistHeap P} {σ : P → List P} (op : SlistOp P)
      (out : Option P) (fuel : ℕ) :
      SlistRun heads m σ → op.Legal heads σ → slistStep fuel m op = some (out, m') →
      SlistRun (op.headers heads) m' (op.spec σ)

omit [DecidableEq P] in
/-- There is fuel for every call. -/
theorem SlistRep.exists_fuel (hr : SlistRep heads m σ) (op : SlistOp P) :
    ∃ fuel, ∀ h, op.On σ h → (σ h).length < fuel := by
  have hone (head : P) : ∃ fuel, ∀ h, h = head → (σ h).length < fuel :=
    ⟨(σ head).length + 1, fun h he => by
      rw [he]
      exact Nat.lt_succ_self _⟩
  cases op with
  | insertAfter after node =>
    show ∃ fuel, ∀ h, after ∈ σ h → (σ h).length < fuel
    by_cases hin : ∃ h, after ∈ σ h
    · obtain ⟨h, hin⟩ := hin
      obtain ⟨fuel, hfuel⟩ := hone h
      exact ⟨fuel, fun h' hin' => hfuel h' (hr.apart hin' hin)⟩
    · exact ⟨0, fun h hin' => absurd ⟨h, hin'⟩ hin⟩
  | init head => exact hone head
  | pushHead head node => exact hone head
  | popHeadNode head => exact hone head
  | foreachDelete head d => exact hone head

/-- What a call returns does not depend on the fuel. -/
theorem slistStep_mono {op : SlistOp P} {r : Option P × SlistHeap P} {fuel fuel' : ℕ}
    (hle : fuel ≤ fuel') (hr : slistStep fuel m op = some r) :
    slistStep fuel' m op = some r := by
  cases op with
  | foreachDelete head d =>
    obtain ⟨r', hr', rfl⟩ := Option.map_eq_some_iff.mp hr
    exact Option.map_eq_some_iff.mpr ⟨r', Loop.run_mono hle hr', rfl⟩
  | _ => exact hr

/-- After any run the memory represents the sequences. -/
theorem SlistRun.rep (hrun : SlistRun heads m σ) : SlistRep heads m σ := by
  induction hrun with
  | start m =>
    exact ⟨fun h hh => absurd hh (Set.notMem_empty h), fun _ _ hx => absurd hx List.not_mem_nil,
      fun _ _ => rfl, fun _ _ _ hx => absurd hx List.not_mem_nil⟩
  | @step heads m m' σ op out fuel _ hop hstep ih =>
    -- the call ends with more fuel as well
    obtain ⟨n, hn⟩ := ih.exists_fuel op
    have hfuel : ∀ h, op.On σ h → (σ h).length < max fuel n := fun h hon =>
      (hn h hon).trans_le (Nat.le_max_right fuel n)
    obtain ⟨m₁, hm₁, hrep, -⟩ := slistStep_refines ih hop hfuel
    rw [slistStep_mono (Nat.le_max_left fuel n) hstep, Option.some.injEq, Prod.mk.injEq] at hm₁
    rw [hm₁.2]
    exact hrep

/-- **Every run is a run of sequences**, over any number of lists, whatever the memory holds at
the start and whatever the nodes were used for before. After it the links lead from each header
along its sequence, whose nodes are distinct and in no other list, and each list is read as its
sequence; whatever may be called next succeeds, be it a loop that deletes nodes, returns what it
should, does to the sequences what it should, and leaves every other list as it is. -/
theorem slistRun_refines (hrun : SlistRun heads m σ) :
    SlistRep heads m σ ∧ (∀ h, (σ h).Nodup) ∧ (∀ h ∈ heads, SlistReads m h (σ h)) ∧
      ∀ op : SlistOp P, op.Legal heads σ → ∀ fuel, (∀ h, op.On σ h → (σ h).length < fuel) →
        ∃ m', slistStep fuel m op = some (op.out σ, m') ∧
          SlistRep (op.headers heads) m' (op.spec σ) ∧
          ∀ h ∈ heads, ¬ op.On σ h → op.spec σ h = σ h ∧ ∀ v ∈ h :: σ h, m' v = m v := by
  have hr := hrun.rep
  refine ⟨hr, fun h => ?_, fun h hh => hr.reads hh,
    fun op hop fuel hf => slistStep_refines hr hop hf⟩
  cases hσ : σ h with
  | nil => exact List.nodup_nil
  | cons x l =>
    have hh : h ∈ heads := hr.mem_heads (hσ ▸ List.mem_cons_self)
    exact hσ ▸ (List.nodup_cons.mp (hr.isSlist h hh).nodup).2

/-- Two lists in a memory where everything leads to node 9: node 2 is put into the first and
node 3 after it; node 2 is popped, and put into the second list. -/
theorem slistRun_refines_moved :
    ∃ m : SlistHeap ℕ, slistForeach m 0 2 = some [3] ∧ slistForeach m 1 2 = some [2] := by
  have h₀ : SlistRun ∅ (fun _ : ℕ => some 9) fun _ => [] := .start _
  have h₁ := h₀.step (.init 0) none 0 (fun _ => List.not_mem_nil) rfl
  have h₂ := h₁.step (.init 1) none 0
    (fun h => by by_cases hh : h = 0 <;> simp [SlistOp.spec, hh]) rfl
  have h₃ := h₂.step (.pushHead 0 2) none 0
    ⟨by simp [SlistOp.headers], by simp [SlistOp.headers], fun h => by
      by_cases hh : h = 0 <;> by_cases hh' : h = 1 <;> simp [SlistOp.spec, hh, hh']⟩ rfl
  have h₄ := h₃.step (.insertAfter 2 3) none 0
    ⟨⟨0, by simp [SlistOp.spec]⟩, by simp [SlistOp.headers], fun h => by
      by_cases hh : h = 0 <;> by_cases hh' : h = 1 <;> simp [SlistOp.spec, hh, hh']⟩ rfl
  have h₅ := h₄.step (.popHeadNode 0) (some 2) 0
    (by simp [SlistOp.Legal, SlistOp.spec, seqReplace]) rfl
  have h₆ := h₅.step (.pushHead 1 2) none 0
    ⟨by simp [SlistOp.headers], by simp [SlistOp.headers], fun h => by
      by_cases hh : h = 0 <;> by_cases hh' : h = 1 <;>
        simp [SlistOp.spec, seqReplace, hh, hh']⟩ rfl
  have h := (slistRun_refines h₆).2.2.1
  exact ⟨_, (h 0 (by simp [SlistOp.headers])).foreach_eq 2 (by decide),
    (h 1 (by simp [SlistOp.headers])).foreach_eq 2 (by decide)⟩

end Slist

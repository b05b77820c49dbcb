import PgCitus.AtomicsGeneric
import PgCitus.Library.LoadLinked

/-!
# Atomic operations on PowerPC

`port/atomics/arch-ppc.h` has the compare-and-exchange and the addition of a PowerPC in
assembly: `lwarx` loads and reserves, `stwcx.` stores if the reservation is still there,
and the branches, which are written as distances in bytes, go back to the `lwarx` if it is
not. A constant operand that fits into 16 bits is put into the instruction. The rest of
`port/atomics.h` comes from `generic.h`, where reads and writes of 64 bits may be plain.

The assembly is a list of instructions, and a thread that runs it is at one of them; what
the registers have before is anything. The variants for 32 and 64 bits differ in the width.
-/

namespace AtomicsPpc

open AtomicsGeneric CasLoop LoadLinked

variable {w : ℕ} {R : Type*}

/-! ## The assembly -/

/-- An operand: a register, or 16 bits in the instruction. -/
inductive Operand (w : ℕ)
  | reg (v : BitVec w)
  | imm (i : BitVec 16)

/-- What an operand stands for. -/
def Operand.value : Operand w → BitVec w
  | reg v => v
  | imm i => i.signExtend w

/-- Which kind of operand a value becomes, which the compiler may know to be constant. -/
def operand (constant : Bool) (v : BitVec w) : Operand w :=
  if constant && decide (v.toInt ≤ 32767) && decide (-32768 ≤ v.toInt) then .imm (v.setWidth 16)
  else .reg v

/-- The registers: what was loaded, what is added up, the condition register with the bit of
an overflow that goes into it, and where that is copied to. -/
structure Regs (w : ℕ) where
  found : BitVec w
  sum : BitVec w
  cr : BitVec 32
  so : Bool
  conditionRegister : BitVec 32

/-- An instruction. -/
inductive Instr (w : ℕ)
  | sync
  | isync
  | larx
  | cmp (b : Operand w)
  | add (b : Operand w)
  | stcx (src : Regs w → BitVec w)
  | bne (distance : ℤ)
  | mfcr

/-- The assembly of `pg_atomic_compare_exchange_*_impl`. -/
def compareExchangeAsm (expected : Operand w) (newval : BitVec w) : List (Instr w) :=
  [.sync, .larx, .cmp expected, .bne 12, .stcx fun _ => newval, .bne (-16), .isync, .mfcr]

/-- The assembly of `pg_atomic_fetch_add_*_impl`. -/
def fetchAddAsm (add : Operand w) : List (Instr w) :=
  [.sync, .larx, .add add, .stcx Regs.sum, .bne (-12), .isync]

/-- The first four bits of the condition register: less, greater, equal, overflow. -/
def setCr0 (cr : BitVec 32) (lt gt eq so : Bool) : BitVec 32 :=
  (cr &&& 0x0fffffff) |||
    (BitVec.ofBool lt ++ BitVec.ofBool gt ++ BitVec.ofBool eq ++ BitVec.ofBool so).setWidth 32 <<<
      28

/-- What `bne` looks at. -/
def eqBit (cr : BitVec 32) : Bool := cr.getLsbD 29

/-- `(condition_register >> 29) & 1`. -/
def retBit (conditionRegister : BitVec 32) : Bool := (conditionRegister >>> 29) &&& 1 ≠ 0

theorem eqBit_setCr0 (cr : BitVec 32) (lt gt eq so : Bool) :
    eqBit (setCr0 cr lt gt eq so) = eq := by
  unfold eqBit setCr0
  cases lt <;> cases gt <;> cases eq <;> cases so <;> simp

theorem retBit_eq (cr : BitVec 32) : retBit cr = eqBit cr := by
  have h : (cr >>> 29) &&& 1 = if eqBit cr then 1 else 0 := by
    unfold eqBit
    refine BitVec.eq_of_getLsbD_eq fun i _ => ?_
    cases i with
    | zero => cases h : cr.getLsbD 29 <;> simpa using h
    | succ i => cases h : cr.getLsbD 29 <;> simp
  unfold retBit
  rw [h]
  cases eqBit cr <;> rfl

/-- A constant in an instruction stands for itself. -/
theorem value_operand (hw : 16 ≤ w) (constant : Bool) (v : BitVec w) :
    (operand constant v).value = v := by
  unfold operand
  split
  · rename_i h
    simp only [Bool.and_eq_true, decide_eq_true_eq] at h
    show (v.setWidth 16).signExtend w = v
    refine BitVec.eq_of_toInt_eq ?_
    rw [BitVec.toInt_signExtend_of_le hw, BitVec.toInt_setWidth,
      ← Int.bmod_bmod_of_dvd (Nat.pow_dvd_pow 2 hw), ← BitVec.toInt_eq_toNat_bmod]
    exact Int.bmod_eq_of_le (by omega) (by omega)
  · rfl

/-! ## Threads -/

/-- **The code around the assembly.** -/
inductive Code (w : ℕ) (R : Type*)
  | ret (r : R)
  /-- `old = ptr->value`, and it is ok if the read is not atomic. -/
  | read (k : BitVec w → Code w R)
  /-- `ptr->value`, where a read is atomic. -/
  | load (k : BitVec w → Code w R)
  /-- `ptr->value = val`. -/
  | store (val : BitVec w) (k : Code w R)
  /-- `pg_atomic_compare_exchange_*_impl`. -/
  | compareExchange (expected newval : BitVec w) (k : Bool → BitVec w → Code w R)
  /-- `while (!pg_atomic_compare_exchange_*_impl(ptr, &old, ..))`. -/
  | whileNot (old : BitVec w) (newval : BitVec w → BitVec w) (k : BitVec w → Code w R)
  /-- `pg_atomic_fetch_add_*_impl`. -/
  | fetchAdd (add : BitVec w) (k : BitVec w → Code w R)

/-- The assembly that the code comes to next. -/
def Code.asm (constant : Bool) : Code w R → List (Instr w)
  | compareExchange expected newval _ => compareExchangeAsm (operand constant expected) newval
  | whileNot old newval _ => compareExchangeAsm (operand constant old) (newval old)
  | fetchAdd add _ => fetchAddAsm (operand constant add)
  | _ => []

/-- **How the code goes on after it.** A comparison that failed puts what was found where the
expected value was. -/
def Code.resume (regs : Regs w) : Code w R → Code w R
  | compareExchange expected _ k =>
    if retBit regs.conditionRegister then k true expected else k false regs.found
  | whileNot old newval k =>
    if retBit regs.conditionRegister then k old else whileNot regs.found newval k
  | fetchAdd _ k => k regs.found
  | c => c

/-- A thread is in the code, or at an instruction of the assembly that the code came to. -/
inductive Thread (w : ℕ) (R : Type*)
  | code (c : Code w R)
  | asm (is : List (Instr w)) (pc : ℕ) (regs : Regs w) (c : Code w R)

/-- What the model leaves open: whether an operand is a constant, and what registers have
before they are set. -/
abbrev Choice (w : ℕ) := Bool × Regs w

/-- **One instruction.** -/
def exec (is : List (Instr w)) (pc : ℕ) (regs : Regs w) (c : Code w R) :
    Instr w → Access (BitVec w) R (Thread w R) (Choice w)
  | .sync | .isync => .inner fun _ => .asm is (pc + 1) regs c
  | .larx => .loadLinked fun v => .asm is (pc + 1) { regs with found := v } c
  | .cmp b => .inner fun _ => .asm is (pc + 1)
      { regs with
        cr := setCr0 regs.cr (regs.found.slt b.value) (b.value.slt regs.found)
          (regs.found == b.value) regs.so } c
  | .add b => .inner fun _ => .asm is (pc + 1) { regs with sum := regs.found + b.value } c
  | .stcx src => .storeConditional (src regs) fun ok => .asm is (pc + 1)
      { regs with cr := setCr0 regs.cr false false ok regs.so } c
  | .bne distance => .inner fun _ =>
      .asm is (if eqBit regs.cr then pc + 1 else (pc + distance / 4).toNat) regs c
  | .mfcr => .inner fun _ => .asm is (pc + 1) { regs with conditionRegister := regs.cr } c

/-- **What a thread does next.** -/
def next : Thread w R → Access (BitVec w) R (Thread w R) (Choice w)
  | .code (.ret r) => .ret r
  | .code (.read k) | .code (.load k) => .load fun v => .code (k v)
  | .code (.store val k) => .store val (.code k)
  | .code c => .inner fun (constant, regs) => .asm (c.asm constant) 0 regs c
  | .asm is pc regs c =>
    match is[pc]? with
    | some i => exec is pc regs c i
    | none => .inner fun _ => .code (c.resume regs)

/-- A call begins in the code of its function. -/
def enter {Op : Type*} (impl : Op → Option (Code w R)) (op : Op) : Option (Thread w R) :=
  (impl op).map .code

/-- A variable of 32 bits and the threads that use it. -/
abbrev StateU32 (Pid : Type*) :=
  LoadLinked.State (BitVec 32) (BitVec 32) (Thread 32 (BitVec 32)) (AtomicOp 32) Pid

/-- A variable of 64 bits and the threads that use it. -/
abbrev StateU64 (Pid : Type*) :=
  LoadLinked.State (BitVec 64) (Option (BitVec 64)) (Thread 64 (Option (BitVec 64))) AtomicOpU64 Pid

/-! ## The functions -/

/-- The functions of `atomics.h` on 32 bits. -/
def callU32 : AtomicOp 32 → Option (Code 32 (BitVec 32))
  | .exchange newval => some (.read fun old => .whileNot old (fun _ => newval) .ret)
  | .fetchAdd add => some (.fetchAdd add .ret)
  | .fetchSub sub => if sub = BitVec.intMin 32 then none else some (.fetchAdd (-sub) .ret)
  | .fetchAnd and => some (.read fun old => .whileNot old (fun old => old &&& and) .ret)
  | .fetchOr or => some (.read fun old => .whileNot old (fun old => old ||| or) .ret)
  | .addFetch add => some (.fetchAdd add fun old => .ret (old + add))
  | .subFetch sub =>
    if sub = BitVec.intMin 32 then none else some (.fetchAdd (-sub) fun old => .ret (old - sub))

/-- The functions of `atomics.h` on 64 bits, where plain reads and writes are atomic. -/
def callU64 : AtomicOpU64 → Option (Code 64 (Option (BitVec 64)))
  | .rmw (.exchange newval) =>
    some (.read fun old => .whileNot old (fun _ => newval) fun old => .ret (some old))
  | .rmw (.fetchAdd add) => some (.fetchAdd add fun old => .ret (some old))
  | .rmw (.fetchSub sub) =>
    if sub = BitVec.intMin 64 then none else some (.fetchAdd (-sub) fun old => .ret (some old))
  | .rmw (.fetchAnd and) =>
    some (.read fun old => .whileNot old (fun old => old &&& and) fun old => .ret (some old))
  | .rmw (.fetchOr or) =>
    some (.read fun old => .whileNot old (fun old => old ||| or) fun old => .ret (some old))
  | .rmw (.addFetch add) => some (.fetchAdd add fun old => .ret (some (old + add)))
  | .rmw (.subFetch sub) =>
    if sub = BitVec.intMin 64 then none
    else some (.fetchAdd (-sub) fun old => .ret (some (old - sub)))
  | .read => some (.load fun v => .ret (some v))
  | .write val => some (.store val (.ret none))

/-! ## The assembly does what the generic code does -/

/-- **The same code on a compare-and-swap.** -/
def Code.generic : Code w R → Prog (BitVec w) R
  | ret r => .ret r
  | read k => .read fun v => (k v).generic
  | load k => .cas 0 0 fun _ v => (k v).generic
  | store val k => .read fun old => .casUntil old (fun _ => val) fun _ => k.generic
  | compareExchange expected newval k => .cas expected newval fun ok v => (k ok v).generic
  | whileNot old newval k => .casUntil old newval fun v => (k v).generic
  | fetchAdd add k => .read fun old => .casUntil old (· + add) fun v => (k v).generic

/-- Code that comes to a compare-and-exchange, and how it goes on. -/
inductive Exchanges : Code w R → BitVec w → BitVec w → Code w R → (BitVec w → Code w R) → Prop
  | compareExchange (expected newval : BitVec w) (k : Bool → BitVec w → Code w R) :
      Exchanges (.compareExchange expected newval k) expected newval (k true expected) (k false)
  | whileNot (old : BitVec w) (newval : BitVec w → BitVec w) (k : BitVec w → Code w R) :
      Exchanges (.whileNot old newval k) old (newval old) (k old) fun v => .whileNot v newval k

section Exchanges

variable {c : Code w R} {expected newval : BitVec w} {succeed : Code w R}
  {fail : BitVec w → Code w R}

theorem Exchanges.resume (h : Exchanges c expected newval succeed fail) (regs : Regs w) :
    c.resume regs = if retBit regs.conditionRegister then succeed else fail regs.found := by
  cases h <;> rfl

/-- The exchange. -/
theorem Exchanges.steps (h : Exchanges c expected newval succeed fail) :
    Steps expected c.generic newval succeed.generic := by
  cases h with
  | compareExchange expected newval k => exact .cas fun ok v => (k ok v).generic
  | whileNot old newval k => exact .casUntil fun v => (k v).generic

/-- The comparison that fails. -/
theorem Exchanges.steps_fail (h : Exchanges c expected newval succeed fail) {v : BitVec w}
    (hv : v ≠ expected) : Steps v c.generic v (fail v).generic := by
  cases h with
  | compareExchange expected newval k => exact .cas_ne (fun ok v => (k ok v).generic) hv
  | whileNot old newval k => exact .casUntil_ne (fun v => (k v).generic) hv

end Exchanges

/-- **A thread in a compare-and-exchange.** Until it has stored, or loaded something that was
not expected, the program is where it was; and between loading what was expected and
storing, the variable has that value as long as it is reserved. -/
inductive ExchangeAt (c : Code w R) (expected : BitVec w) (succeed : Code w R)
    (fail : BitVec w → Code w R) :
    ℕ → Regs w → Prog (BitVec w) R → Option (BitVec w) → Prop
  | load {pc : ℕ} {regs : Regs w} {lk : Option (BitVec w)} (hpc : pc = 0 ∨ pc = 1) :
      ExchangeAt c expected succeed fail pc regs c.generic lk
  | compare {regs : Regs w} (h : regs.found = expected) :
      ExchangeAt c expected succeed fail 2 regs c.generic (some expected)
  | compareNe {regs : Regs w} {lk : Option (BitVec w)} (h : regs.found ≠ expected) :
      ExchangeAt c expected succeed fail 2 regs (fail regs.found).generic lk
  | branch {regs : Regs w} (h : eqBit regs.cr = true) :
      ExchangeAt c expected succeed fail 3 regs c.generic (some expected)
  | branchNe {regs : Regs w} {lk : Option (BitVec w)} (h : eqBit regs.cr = false) :
      ExchangeAt c expected succeed fail 3 regs (fail regs.found).generic lk
  | store {regs : Regs w} :
      ExchangeAt c expected succeed fail 4 regs c.generic (some expected)
  | stored {regs : Regs w} {lk : Option (BitVec w)} (h : eqBit regs.cr = true) :
      ExchangeAt c expected succeed fail 5 regs succeed.generic lk
  | notStored {regs : Regs w} {lk : Option (BitVec w)} (h : eqBit regs.cr = false) :
      ExchangeAt c expected succeed fail 5 regs c.generic lk
  | done {pc : ℕ} {regs : Regs w} {lk : Option (BitVec w)} (hpc : pc = 6 ∨ pc = 7) :
      ExchangeAt c expected succeed fail pc regs
        (if eqBit regs.cr then succeed else fail regs.found).generic lk
  | finish {regs : Regs w} {lk : Option (BitVec w)} :
      ExchangeAt c expected succeed fail 8 regs
        (if eqBit regs.conditionRegister then succeed else fail regs.found).generic lk

/-- **A thread in an addition.** -/
inductive AddAt (c : Code w R) (add : BitVec w) (k : BitVec w → Code w R) :
    ℕ → Regs w → Prog (BitVec w) R → Option (BitVec w) → Prop
  | load {pc : ℕ} {regs : Regs w} {lk : Option (BitVec w)} (hpc : pc = 0 ∨ pc = 1) :
      AddAt c add k pc regs c.generic lk
  | add {regs : Regs w} : AddAt c add k 2 regs c.generic (some regs.found)
  | store {regs : Regs w} (h : regs.sum = regs.found + add) :
      AddAt c add k 3 regs c.generic (some regs.found)
  | stored {regs : Regs w} {lk : Option (BitVec w)} (h : eqBit regs.cr = true) :
      AddAt c add k 4 regs (k regs.found).generic lk
  | notStored {regs : Regs w} {lk : Option (BitVec w)} (h : eqBit regs.cr = false) :
      AddAt c add k 4 regs c.generic lk
  | done {pc : ℕ} {regs : Regs w} {lk : Option (BitVec w)} (hpc : pc = 5 ∨ pc = 6) :
      AddAt c add k pc regs (k regs.found).generic lk

/-- **Threads and programs.** -/
inductive Sim : Thread w R → Prog (BitVec w) R → Option (BitVec w) → Prop
  | code (c : Code w R) (lk : Option (BitVec w)) : Sim (.code c) c.generic lk
  | exchange {c : Code w R} {expected newval : BitVec w} {succeed : Code w R}
      {fail : BitVec w → Code w R} (hc : Exchanges c expected newval succeed fail)
      {b : Operand w} (hb : b.value = expected) {pc : ℕ} {regs : Regs w}
      {p : Prog (BitVec w) R} {lk : Option (BitVec w)}
      (hat : ExchangeAt c expected succeed fail pc regs p lk) :
      Sim (.asm (compareExchangeAsm b newval) pc regs c) p lk
  | add {add : BitVec w} {k : BitVec w → Code w R} {b : Operand w} (hb : b.value = add) {pc : ℕ}
      {regs : Regs w} {p : Prog (BitVec w) R} {lk : Option (BitVec w)}
      (hat : AddAt (.fetchAdd add k) add k pc regs p lk) :
      Sim (.asm (fetchAddAsm b) pc regs (.fetchAdd add k)) p lk

/-- **The instructions of a compare-and-exchange.** -/
theorem ExchangeAt.ok {c : Code w R} {expected newval : BitVec w} {succeed : Code w R}
    {fail : BitVec w → Code w R} (hc : Exchanges c expected newval succeed fail) {b : Operand w}
    (hb : b.value = expected) {pc : ℕ} {regs : Regs w} {p : Prog (BitVec w) R}
    {lk : Option (BitVec w)} (h : ExchangeAt c expected succeed fail pc regs p lk) :
    (next (.asm (compareExchangeAsm b newval) pc regs c)).Ok Sim p lk := by
  cases h with
  | load hpc =>
    rcases hpc with rfl | rfl
    · exact fun _ => .exchange hc hb (.load (Or.inr rfl))
    · intro v
      by_cases hv : v = expected
      · subst hv
        exact ⟨_, .nil _ _, .exchange hc hb (.compare rfl)⟩
      · exact ⟨_, hc.steps_fail hv, .exchange hc hb (.compareNe hv)⟩
  | compare h =>
    refine fun _ => .exchange hc hb (.branch ?_)
    rw [eqBit_setCr0, hb]
    exact beq_iff_eq.mpr h
  | compareNe h =>
    refine fun _ => .exchange hc hb (.branchNe ?_)
    rw [eqBit_setCr0, hb]
    exact beq_eq_false_iff_ne.mpr h
  | branch h =>
    intro _
    show Sim (.asm _ (if eqBit regs.cr then 3 + 1 else _) regs c) _ _
    rw [if_pos h]
    exact .exchange hc hb .store
  | branchNe h =>
    intro _
    show Sim (.asm _ (if eqBit regs.cr then _ else 6) regs c) _ _
    have hdone : ExchangeAt c expected succeed fail 6 regs _ lk := .done (Or.inl rfl)
    rw [h] at hdone ⊢
    exact .exchange hc hb hdone
  | store =>
    exact ⟨⟨expected, _, rfl, hc.steps, .exchange hc hb (.stored (eqBit_setCr0 _ _ _ _ _))⟩,
      .exchange hc hb (.notStored (eqBit_setCr0 _ _ _ _ _))⟩
  | stored h =>
    intro _
    show Sim (.asm _ (if eqBit regs.cr then 5 + 1 else _) regs c) _ _
    have hdone : ExchangeAt c expected succeed fail 6 regs _ lk := .done (Or.inl rfl)
    rw [h] at hdone ⊢
    exact .exchange hc hb hdone
  | notStored h =>
    intro _
    show Sim (.asm _ (if eqBit regs.cr then _ else 1) regs c) _ _
    rw [h]
    exact .exchange hc hb (.load (Or.inr rfl))
  | done hpc =>
    rcases hpc with rfl | rfl
    · exact fun _ => .exchange hc hb (.done (Or.inr rfl))
    · exact fun _ => .exchange hc hb .finish
  | finish =>
    intro _
    show Sim (.code (c.resume regs)) _ _
    rw [hc.resume, retBit_eq]
    exact .code _ _

/-- **The instructions of an addition.** -/
theorem AddAt.ok {add : BitVec w} {k : BitVec w → Code w R} {b : Operand w} (hb : b.value = add)
    {pc : ℕ} {regs : Regs w} {p : Prog (BitVec w) R} {lk : Option (BitVec w)}
    (h : AddAt (.fetchAdd add k) add k pc regs p lk) :
    (next (.asm (fetchAddAsm b) pc regs (.fetchAdd add k))).Ok Sim p lk := by
  cases h with
  | load hpc =>
    rcases hpc with rfl | rfl
    · exact fun _ => .add hb (.load (Or.inr rfl))
    · exact fun v => ⟨_, .nil _ _, .add hb .add⟩
  | add => exact fun _ => .add hb (.store (congrArg (regs.found + ·) hb))
  | store h =>
    refine ⟨⟨regs.found, _, rfl, ?_, .add hb (.stored (eqBit_setCr0 _ _ _ _ _))⟩,
      .add hb (.notStored (eqBit_setCr0 _ _ _ _ _))⟩
    rw [h]
    exact .loop fun v => (k v).generic
  | stored h =>
    intro _
    show Sim (.asm _ (if eqBit regs.cr then 4 + 1 else _) regs _) _ _
    rw [if_pos h]
    exact .add hb (.done (Or.inl rfl))
  | notStored h =>
    intro _
    show Sim (.asm _ (if eqBit regs.cr then _ else 1) regs _) _ _
    rw [h]
    exact .add hb (.load (Or.inr rfl))
  | done hpc =>
    rcases hpc with rfl | rfl
    · exact fun _ => .add hb (.done (Or.inr rfl))
    · exact fun _ => .code _ _

/-- **Threads do what programs do**, if 16 bits are no more than a register has. -/
theorem simulates (hw : 16 ≤ w) : Simulates (next : Thread w R → _) Sim := by
  intro l p lk h
  cases h with
  | code c lk =>
    cases c with
    | ret r => rfl
    | read k => exact fun v => ⟨_, .read fun v => (k v).generic, .code _ _⟩
    | load k => exact fun v => ⟨_, .cas_self fun v => (k v).generic, .code _ _⟩
    | store val k => exact fun v => ⟨_, .loop fun _ => k.generic, .code _ _⟩
    | compareExchange expected newval k =>
      exact fun (constant, _) => .exchange (.compareExchange expected newval k)
        (value_operand hw constant expected) (.load (Or.inl rfl))
    | whileNot old newval k =>
      exact fun (constant, _) => .exchange (.whileNot old newval k)
        (value_operand hw constant old) (.load (Or.inl rfl))
    | fetchAdd add k =>
      exact fun (constant, _) => .add (value_operand hw constant add) (.load (Or.inl rfl))
  | exchange hc hb hat => exact hat.ok hc hb
  | add hb hat => exact hat.ok hb

/-! ## A thread alone -/

section Exchanges

variable {c : Code w R} {expected newval : BitVec w} {succeed : Code w R}
  {fail : BitVec w → Code w R} {o : Operand w} {v : BitVec w} {b : Bool} {regs : Regs w}

/-- After the assembly the code goes on. -/
theorem Exchanges.returns_finish (hc : Exchanges c expected newval succeed fail)
    (hs : eqBit regs.conditionRegister = true → Returns next v b (.code succeed))
    (hf : eqBit regs.conditionRegister = false → Returns next v b (.code (fail regs.found))) :
    Returns next v b (.asm (compareExchangeAsm o newval) 8 regs c) := by
  refine .inner rfl fun _ => ?_
  show Returns next v b (.code (c.resume regs))
  rw [hc.resume, retBit_eq]
  cases heq : eqBit regs.conditionRegister with
  | true => exact hs heq
  | false => exact hf heq

theorem Exchanges.returns_mfcr (hc : Exchanges c expected newval succeed fail)
    (hs : eqBit regs.cr = true → Returns next v b (.code succeed))
    (hf : eqBit regs.cr = false → Returns next v b (.code (fail regs.found))) :
    Returns next v b (.asm (compareExchangeAsm o newval) 7 regs c) :=
  .inner rfl fun _ => hc.returns_finish hs hf

theorem Exchanges.returns_isync (hc : Exchanges c expected newval succeed fail)
    (hs : eqBit regs.cr = true → Returns next v b (.code succeed))
    (hf : eqBit regs.cr = false → Returns next v b (.code (fail regs.found))) :
    Returns next v b (.asm (compareExchangeAsm o newval) 6 regs c) :=
  .inner rfl fun _ => hc.returns_mfcr hs hf

/-- **From the load on** a thread that is alone stores if it finds what is expected, and fails
otherwise. -/
theorem Exchanges.returns_load (hc : Exchanges c expected newval succeed fail)
    (ho : o.value = expected) (hs : v = expected → Returns next newval false (.code succeed))
    (hf : v ≠ expected → Returns next v true (.code (fail v))) :
    Returns next v b (.asm (compareExchangeAsm o newval) 1 regs c) := by
  refine .loadLinked rfl (.inner rfl fun _ => .inner rfl fun _ => ?_)
  by_cases hv : v = expected
  · have heq : (v == o.value) = true := beq_iff_eq.mpr (hv.trans ho.symm)
    show Returns next v true (.asm _ (if eqBit (setCr0 _ _ _ (v == o.value) _) then 4 else _) _ c)
    rw [eqBit_setCr0, if_pos heq]
    refine .stored rfl (.inner rfl fun _ => ?_)
    show Returns next newval false (.asm _ (if eqBit (setCr0 _ _ _ true _) then 6 else _) _ c)
    rw [eqBit_setCr0]
    refine hc.returns_isync (fun _ => hs hv) fun hne => ?_
    exact nomatch hne.symm.trans (eqBit_setCr0 _ _ _ _ _)
  · have hne : (v == o.value) = false := beq_eq_false_iff_ne.mpr (ho ▸ hv)
    show Returns next v true (.asm _ (if eqBit (setCr0 _ _ _ (v == o.value) _) then _ else 6) _ c)
    rw [eqBit_setCr0, hne]
    refine hc.returns_isync (fun heq => ?_) fun _ => hf hv
    exact nomatch heq.symm.trans (eqBit_setCr0 _ _ _ _ _)

/-- A thread anywhere in a compare-and-exchange returns if it does after that. -/
theorem Exchanges.returns (hc : Exchanges c expected newval succeed fail)
    (ho : o.value = expected) (hs : ∀ v b, Returns next v b (.code succeed))
    (hf : ∀ u v b, Returns next v b (.code (fail u))) {pc : ℕ} {p : Prog (BitVec w) R}
    {lk : Option (BitVec w)} (hat : ExchangeAt c expected succeed fail pc regs p lk) :
    Returns next v b (.asm (compareExchangeAsm o newval) pc regs c) := by
  have hload {v : BitVec w} {b : Bool} {regs : Regs w} :
      Returns next v b (.asm (compareExchangeAsm o newval) 1 regs c) :=
    hc.returns_load ho (fun _ => hs _ _) fun _ => hf _ _ _
  have hdone {v : BitVec w} {b : Bool} {regs : Regs w} :
      Returns next v b (.asm (compareExchangeAsm o newval) 6 regs c) :=
    hc.returns_isync (fun _ => hs _ _) fun _ => hf _ _ _
  have hbne {v : BitVec w} {b : Bool} {regs : Regs w} :
      Returns next v b (.asm (compareExchangeAsm o newval) 5 regs c) := by
    refine .inner rfl fun _ => ?_
    show Returns next v b (.asm _ (if eqBit regs.cr then 6 else 1) regs c)
    split
    · exact hdone
    · exact hload
  have hstore {v : BitVec w} {b : Bool} {regs : Regs w} :
      Returns next v b (.asm (compareExchangeAsm o newval) 4 regs c) := by
    cases b with
    | true => exact .stored rfl hbne
    | false => exact .notStored rfl hbne
  have hbranch {v : BitVec w} {b : Bool} {regs : Regs w} :
      Returns next v b (.asm (compareExchangeAsm o newval) 3 regs c) := by
    refine .inner rfl fun _ => ?_
    show Returns next v b (.asm _ (if eqBit regs.cr then 4 else 6) regs c)
    split
    · exact hstore
    · exact hdone
  cases hat with
  | load hpc =>
    rcases hpc with rfl | rfl
    · exact .inner rfl fun _ => hload
    · exact hload
  | compare _ | compareNe _ => exact .inner rfl fun _ => hbranch
  | branch _ | branchNe _ => exact hbranch
  | store => exact hstore
  | stored _ | notStored _ => exact hbne
  | done hpc =>
    rcases hpc with rfl | rfl
    · exact hdone
    · exact hc.returns_mfcr (fun _ => hs _ _) fun _ => hf _ _ _
  | finish => exact hc.returns_finish (fun _ => hs _ _) fun _ => hf _ _ _

/-- A thread anywhere in an addition returns if it does after that. -/
theorem returns_add {add : BitVec w} {k : BitVec w → Code w R}
    (hk : ∀ u v b, Returns next v b (.code (k u))) {pc : ℕ} {p : Prog (BitVec w) R}
    {lk : Option (BitVec w)} (hat : AddAt (.fetchAdd add k) add k pc regs p lk) :
    Returns next v b (.asm (fetchAddAsm o) pc regs (.fetchAdd add k)) := by
  have hdone {v : BitVec w} {b : Bool} {regs : Regs w} :
      Returns next v b (.asm (fetchAddAsm o) 5 regs (.fetchAdd add k)) :=
    .inner rfl fun _ => .inner rfl fun _ => hk _ _ _
  have hload {v : BitVec w} {b : Bool} {regs : Regs w} :
      Returns next v b (.asm (fetchAddAsm o) 1 regs (.fetchAdd add k)) := by
    refine .loadLinked rfl (.inner rfl fun _ => .stored rfl (.inner rfl fun _ => ?_))
    show Returns next _ false (.asm _ (if eqBit (setCr0 _ _ _ true _) then 5 else _) _ _)
    rw [eqBit_setCr0]
    exact hdone
  have hbne {v : BitVec w} {b : Bool} {regs : Regs w} :
      Returns next v b (.asm (fetchAddAsm o) 4 regs (.fetchAdd add k)) := by
    refine .inner rfl fun _ => ?_
    show Returns next v b (.asm _ (if eqBit regs.cr then 5 else 1) regs _)
    split
    · exact hdone
    · exact hload
  have hstore {v : BitVec w} {b : Bool} {regs : Regs w} :
      Returns next v b (.asm (fetchAddAsm o) 3 regs (.fetchAdd add k)) := by
    cases b with
    | true => exact .stored rfl hbne
    | false => exact .notStored rfl hbne
  cases hat with
  | load hpc =>
    rcases hpc with rfl | rfl
    · exact .inner rfl fun _ => hload
    · exact hload
  | add => exact .inner rfl fun _ => hstore
  | store _ => exact hstore
  | stored _ | notStored _ => exact hbne
  | done hpc =>
    rcases hpc with rfl | rfl
    · exact hdone
    · exact .inner rfl fun _ => hk _ _ _

end Exchanges

/-- **Code that is alone returns.** A loop around an exchange that fails finds in the next round
what it expects. -/
theorem returns_code (hw : 16 ≤ w) (c : Code w R) (v : BitVec w) (b : Bool) :
    Returns next v b (.code c) := by
  induction c generalizing v b with
  | ret r => exact .ret rfl
  | read k ih | load k ih => exact .load rfl (ih v v b)
  | store val k ih => exact .store rfl (ih val b)
  | compareExchange expected newval k ih =>
    exact .inner rfl fun (constant, _) => (Exchanges.compareExchange expected newval k).returns
      (value_operand hw constant expected) (ih true expected) (ih false)
      (.load (Or.inl rfl) : ExchangeAt _ _ _ _ 0 _ _ none)
  | whileNot old newval k ih =>
    have hround {v : BitVec w} {b : Bool} : Returns next v b (.code (.whileNot v newval k)) :=
      .inner rfl fun (constant, _) => .inner rfl fun _ =>
        (Exchanges.whileNot v newval k).returns_load (value_operand hw constant v)
          (fun _ => ih _ _ _) fun hne => absurd rfl hne
    exact .inner rfl fun (constant, _) => .inner rfl fun _ =>
      (Exchanges.whileNot old newval k).returns_load (value_operand hw constant old)
        (fun _ => ih _ _ _) fun _ => hround
  | fetchAdd add k ih =>
    exact .inner rfl fun _ => returns_add ih (.load (Or.inl rfl) : AddAt _ _ _ 0 _ _ none)

/-- **A thread that is alone returns**, wherever it is. -/
theorem returns (hw : 16 ≤ w) {l : Thread w R} {p : Prog (BitVec w) R} {lk : Option (BitVec w)}
    (h : Sim l p lk) (v : BitVec w) (b : Bool) : Returns next v b l := by
  cases h with
  | code c lk => exact returns_code hw c v b
  | exchange hc hb hat =>
    exact hc.returns hb (fun _ _ => returns_code hw _ _ _) (fun _ _ _ => returns_code hw _ _ _) hat
  | add hb hat => exact returns_add (fun _ _ _ => returns_code hw _ _ _) hat

/-! ## The functions are the generic ones -/

theorem generic_callU32 (op : AtomicOp 32) :
    (callU32 op).map Code.generic = AtomicsGeneric.callU32 op := by
  cases op with
  | fetchSub sub | subFetch sub =>
    show Option.map _ (if _ then _ else _) = if _ then _ else _
    split <;> rfl
  | _ => rfl

theorem generic_callU64 (op : AtomicOpU64) :
    (callU64 op).map Code.generic = AtomicsGeneric.callU64 op := by
  cases op with
  | rmw op =>
    cases op with
    | fetchSub sub | subFetch sub =>
      show Option.map _ (if _ then _ else _) = if _ then _ else _
      split <;> rfl
    | _ => rfl
  | _ => rfl

/-- A thread starts with the code of its function. -/
theorem sim_enter {Op : Type*} {impl : Op → Option (Code w R)}
    {progs : Op → Option (Prog (BitVec w) R)} (h : ∀ op, (impl op).map Code.generic = progs op)
    (op : Op) (l : Thread w R) (hl : enter impl op = some l) :
    ∃ p, progs op = some p ∧ Sim l p none := by
  obtain ⟨c, hc, rfl⟩ := Option.map_eq_some_iff.mp hl
  refine ⟨c.generic, ?_, .code c none⟩
  rw [← h, hc]
  rfl

/-! ## Any interleaving -/

section Runs

variable {Pid : Type*} [DecidableEq Pid]

/-- What threads do that call functions on 32 bits. -/
def stepU32 : StateU32 Pid → LoadLinked.Action (Choice 32) (AtomicOp 32) Pid →
    Option (StateU32 Pid) := LoadLinked.step next (enter callU32)

/-- What threads do that call functions on 64 bits. -/
def stepU64 : StateU64 Pid → LoadLinked.Action (Choice 64) AtomicOpU64 Pid →
    Option (StateU64 Pid) := LoadLinked.step next (enter callU64)

/-- **The assembly refines the generic code.** However the instructions of any number of
threads are interleaved, whichever operands the compiler puts into instructions, whatever
the registers have before, and however often a reservation is lost, the calls and returns
are those of a run of the functions of `generic.h` on a compare-and-exchange that is one
step, with the same value in the end. So they are linearizable. -/
theorem ppc_refines_generic :
    (∀ (v₀ : BitVec 32) (as : List (LoadLinked.Action (Choice 32) (AtomicOp 32) Pid))
        (s : StateU32 Pid), Run.run stepU32 (LoadLinked.start v₀) as = some s →
      (∃ (bs : List (CasLoop.Action (BitVec 32) (AtomicOp 32) Pid))
          (t : CasLoop.State (BitVec 32) (BitVec 32) (AtomicOp 32) Pid),
        Run.run (CasLoop.step AtomicsGeneric.callU32) (CasLoop.start v₀) bs = some t ∧
          t.value = s.value ∧ erase t.log = s.log) ∧
      ∃ order, Linearizes AtomicOp.sem v₀ s.value s.log order) ∧
    (∀ (v₀ : BitVec 64) (as : List (LoadLinked.Action (Choice 64) AtomicOpU64 Pid))
        (s : StateU64 Pid), Run.run stepU64 (LoadLinked.start v₀) as = some s →
      (∃ (bs : List (CasLoop.Action (BitVec 64) AtomicOpU64 Pid))
          (t : CasLoop.State (BitVec 64) (Option (BitVec 64)) AtomicOpU64 Pid),
        Run.run (CasLoop.step AtomicsGeneric.callU64) (CasLoop.start v₀) bs = some t ∧
          t.value = s.value ∧ erase t.log = s.log) ∧
      ∃ order, Linearizes AtomicOpU64.sem v₀ s.value s.log order) := by
  have h32 : 16 ≤ 32 := by decide
  have h64 : 16 ≤ 64 := by decide
  refine ⟨fun v₀ as s h => ⟨?_, ?_⟩, fun v₀ as s h => ⟨?_, ?_⟩⟩
  · exact refines_of_run (simulates h32) (sim_enter generic_callU32) h
  · exact LoadLinked.linearizes_of_run (simulates h32) (sim_enter generic_callU32)
      performs_callU32 h
  · exact refines_of_run (simulates h64) (sim_enter generic_callU64) h
  · exact LoadLinked.linearizes_of_run (simulates h64) (sim_enter generic_callU64)
      performs_callU64 h

/-- Two additions that meet. The first one loses its reservation to the second one, and goes
back to the load. -/
theorem ppc_refines_generic_two_adds :
    ∃ order, Linearizes AtomicOp.sem 5#32 12#32
      [.invoke 0 (.fetchAdd 3), .invoke 1 (.addFetch 4), .respond 1 9, .respond 0 9] order :=
  let go (i : Bool) : LoadLinked.Action (Choice 32) (AtomicOp 32) Bool :=
    .step i (i, ⟨7, 7, 7, true, 7⟩) true
  (ppc_refines_generic.1 5
    ([.invoke false (.fetchAdd 3), go false, go false, go false, .invoke true (.addFetch 4)] ++
      List.replicate 8 (go true) ++ [.respond true] ++ List.replicate 9 (go false) ++
      [.respond false]) _ rfl).2

/-- **A call that runs alone returns.** In every state that threads come to, whatever they are
in the middle of, one that goes on while the others rest, and that loses no reservation for
no reason, can return from its call after some number of instructions. -/
theorem ppc_returns_alone :
    (∀ (v₀ : BitVec 32) (as : List (LoadLinked.Action (Choice 32) (AtomicOp 32) Pid))
        (s : StateU32 Pid) (i : Pid) (c : LoadLinked.Call (Thread 32 (BitVec 32)) (AtomicOp 32))
        (ch : ℕ → Choice 32), Run.run stepU32 (LoadLinked.start v₀) as = some s →
      s.calls i = some c → ∃ n s' s'', Run.run stepU32 s (alone i ch n) = some s' ∧
        stepU32 s' (.respond i) = some s'') ∧
    (∀ (v₀ : BitVec 64) (as : List (LoadLinked.Action (Choice 64) AtomicOpU64 Pid))
        (s : StateU64 Pid) (i : Pid)
        (c : LoadLinked.Call (Thread 64 (Option (BitVec 64))) AtomicOpU64) (ch : ℕ → Choice 64),
      Run.run stepU64 (LoadLinked.start v₀) as = some s → s.calls i = some c →
      ∃ n s' s'', Run.run stepU64 s (alone i ch n) = some s' ∧
        stepU64 s' (.respond i) = some s'') := by
  have h32 : 16 ≤ 32 := by decide
  have h64 : 16 ≤ 64 := by decide
  refine ⟨fun v₀ as s i c ch h hc => ?_, fun v₀ as s i c ch h hc => ?_⟩
  · obtain ⟨p, lk, hsim⟩ := sim_of_run (simulates h32) (sim_enter generic_callU32) h hc
    exact (returns h32 hsim s.value (s.linked i)).run hc rfl rfl ch
  · obtain ⟨p, lk, hsim⟩ := sim_of_run (simulates h64) (sim_enter generic_callU64) h hc
    exact (returns h64 hsim s.value (s.linked i)).run hc rfl rfl ch

/-- A thread before its `stwcx.`, whose reservation is lost. -/
theorem ppc_returns_alone_fetch_or :
    ∃ s : StateU64 Bool, (∃ as, Run.run stepU64 (LoadLinked.start 5) as = some s) ∧
      ∃ n s' s'',
        Run.run stepU64 s (alone false (fun _ => (true, ⟨7, 7, 7, true, 7⟩)) n) = some s' ∧
          stepU64 s' (.respond false) = some s'' :=
  let go (i : Bool) : LoadLinked.Action (Choice 64) AtomicOpU64 Bool :=
    .step i (i, ⟨7, 7, 7, true, 7⟩) true
  have h : Run.run stepU64 (LoadLinked.start 5) ([.invoke false (.rmw (.fetchOr 3))] ++
      List.replicate 6 (go false) ++ [.invoke true (.write 4), go true]) = some _ := rfl
  ⟨_, ⟨_, h⟩, ppc_returns_alone.2 5 _ _ false _ _ h rfl⟩

end Runs

end AtomicsPpc

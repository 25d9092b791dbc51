import SimpleScalar.Isa.Def

/-!
# Only the trap instructions call the system

`Micro.Quiet m Q` says that no path through `m` makes a system call and that every
result satisfies `Q`.  It distributes over sequencing (`quiet_bind`), so that the
definitions of `ss.def` can be checked one accessor at a time.

* `Opcode.expr_silent_of_not_trap`: an instruction without the trap flag makes no system call.
-/

namespace SimpleScalar

namespace Micro

variable {α β : Type}

/-- No path makes a system call, every result satisfies `Q`. -/
def Quiet (Q : α → Prop) : Micro α → Prop
  | ret a => Q a
  | get _ k => ∀ v, Quiet Q (k v)
  | use _ k => Quiet Q k
  | put _ _ k => Quiet Q k
  | cpc k => ∀ v, Quiet Q (k v)
  | setNpc _ k => Quiet Q k
  | setTpc _ k => Quiet Q k
  | load _ _ k => ∀ v, Quiet Q (k v)
  | store _ _ _ k => Quiet Q k
  | ifail _ k => Quiet Q k
  | syscall _ => False
  | undefined => True

theorem quiet_bind {m : Micro α} {f : α → Micro β} {Q : β → Prop} :
    Quiet Q (m.bind f) ↔ Quiet (fun a => Quiet Q (f a)) m := by
  induction m with
  | ret a => exact Iff.rfl
  | get _ k ih => exact forall_congr' ih
  | use _ k ih => exact ih
  | put _ _ k ih => exact ih
  | cpc k ih => exact forall_congr' ih
  | setNpc _ k ih => exact ih
  | setTpc _ k ih => exact ih
  | load _ _ k ih => exact forall_congr' ih
  | store _ _ _ k ih => exact ih
  | ifail _ k ih => exact ih
  | syscall k ih => exact Iff.rfl
  | undefined => exact Iff.rfl

end Micro

open Micro

/-- Nothing is asked of the result. -/
abbrev Silent {α : Type} (m : Micro α) : Prop := Quiet (fun _ => True) m

variable {α β : Type}

theorem quiet_ite {p : Prop} [Decidable p] {m n : Micro α} {Q : α → Prop} :
    Quiet Q (if p then m else n) ↔ (p → Quiet Q m) ∧ (¬p → Quiet Q n) := by
  split <;> simp [*]

attribute [simp] Quiet quiet_bind quiet_ite

/-! ### Accessors -/

@[simp] theorem gpr_silent (n : Nat) : Silent (gpr n) := by
  unfold gpr
  split <;> simp

variable {n : Nat} {e : Micro Word}

@[simp] theorem setGpr_silent :
    Silent (setGpr n e) ↔ (n < 32 → Silent e) := by
  unfold setGpr
  split <;> simp [*]

@[simp] theorem fprL_silent (n : Nat) : Silent (fprL n) := by
  unfold fprL
  split <;> simp

@[simp] theorem setFprL_silent :
    Silent (setFprL n e) ↔ (n < 32 → Silent e) := by
  unfold setFprL
  split <;> simp [*]

@[simp] theorem fprD_silent (n : Nat) : Silent (fprD n) := by
  simp [fprD]

@[simp] theorem setFprD_silent {e : Micro (Word × Word)} :
    Silent (setFprD n e) ↔ (evenFloor n + 1 < 32 → Silent e) := by
  unfold setFprD
  split <;> simp [*]

@[simp] theorem setHi_silent : Silent (setHi e) ↔ Silent e := by
  simp [setHi]

@[simp] theorem setLo_silent : Silent (setLo e) ↔ Silent e := by
  simp [setLo]

@[simp] theorem setFcc_silent : Silent (setFcc e) ↔ Silent e := by
  simp [setFcc]

@[simp] theorem div0_silent (zero : Bool) : Silent (div0 zero) := by
  simp [div0, ifail]

@[simp] theorem intalign_silent (n : Nat) : Silent (intalign n) := by
  simp [intalign, ifail]

@[simp] theorem fpalign_silent (n : Nat) : Silent (fpalign n) := by
  simp [fpalign, ifail]

@[simp] theorem talign_silent (targ : Word) : Silent (talign targ) := by
  simp [talign, ifail]

@[simp] theorem over_silent (x y : Word) : Silent (checkOver x y) := by
  simp [checkOver, ifail]

@[simp] theorem under_silent (x y : Word) : Silent (checkUnder x y) := by
  simp [checkUnder, ifail]

/-! ### Helper functions -/

@[simp] theorem ssForeTab_silent (size op : Nat) : Silent (ssForeTab size op) := by
  unfold ssForeTab
  split <;> simp

@[simp] theorem ssAftTab_silent (size op : Nat) : Silent (ssAftTab size op) := by
  unfold ssAftTab
  split <;> simp

@[simp] theorem incDec_silent {inst : Inst} {expr : Micro Unit} {reg size : Nat}
    (h : Silent expr) : Silent (incDec inst expr reg size) := by
  simp [incDec, h]

theorem sraLoop_silent (rd : Nat) : ∀ n, Silent (sraLoop rd n) := by
  intro n
  induction n with
  | zero => simp [sraLoop]
  | succ n ih => simp [sraLoop, ih]

theorem multLoop_silent {op1 op2 : Micro Word} (h1 : Silent op1) (h2 : Silent op2) :
    ∀ n, Silent (multLoop op1 op2 n) := by
  intro n
  induction n with
  | zero => simp [multLoop]
  | succ n ih => simp [multLoop, ih, h1, h2, hi, lo]

/-- The division macros of both simulators. -/
structure Engine.Silent (c : Engine) : Prop where
  idiv : ∀ a b, SimpleScalar.Silent (c.idiv a b)
  imod : ∀ a b, SimpleScalar.Silent (c.imod a b)
  idivu : ∀ a b, SimpleScalar.Silent (c.idivu a b)
  imodu : ∀ a b, SimpleScalar.Silent (c.imodu a b)

theorem Engine.outorder_silent (fpu : Fpu) (n : Nat) (b : Bool) : (Engine.outorder fpu n b).Silent := by
  constructor <;> intro x y <;> simp [outorder, cDiv, cMod, cDivu, cModu]

/-- Only `SYSCALL` makes a system call. -/
theorem Opcode.expr_silent {c : Engine} (hc : c.Silent) (inst : Inst) {op : Opcode}
    (h : op ≠ .syscall) : Silent (op.expr c inst) := by
  cases op <;> first
    | exact absurd rfl h
    | simp [Opcode.expr, branch, dispAddr, rrAddr, loadGpr, loadFpr, storeGpr, storeFpr, aluRR,
        aluRI, fpuRRS, fpuRRD, fpuR, fpuCmp, setTpc, setNpc, SimpleScalar.cpc, instSRA, instSRAV,
        instMULT, instMULTU, sraLoop_silent, multLoop_silent, readSignedByte, readUnsignedByte,
        readSignedHalf, readUnsignedHalf, readWord, writeByte, writeHalf, writeWord, hi, lo, fcc,
        cShl, cShr, cSar, hc.idiv, hc.imod, hc.idivu, hc.imodu]

/-- An instruction without the trap flag makes no system call. -/
theorem Opcode.expr_silent_of_not_trap {c : Engine} (hc : c.Silent) (inst : Inst) {op : Opcode}
    (h : op.has F.trap = false) : Silent (op.expr c inst) := by
  refine Opcode.expr_silent hc inst ?_
  rintro rfl
  exact absurd h (by decide)

end SimpleScalar

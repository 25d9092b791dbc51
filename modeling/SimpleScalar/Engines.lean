import SimpleScalar.Safe

/-!
# The division macros of the simulators

`ruu_dispatch` redefines the macros for division and for the conversion to integers before
it includes `ss.def`, so that a wrong path cannot trap.  On operands that `sim-safe`
accepts they mean the same: the definitions check the divisor before they divide, and a
NaN is the one operand that the conversions treat in their own way.

* `run_engine`: an instruction with either set of macros.
-/

namespace SimpleScalar

variable {ld : Segments}

/-! ### Reading registers -/

/-- An expression that reads registers only. -/
def Reads {α : Type} (m : Micro α) (e : (Reg → Word) → Option α) : Prop :=
  ∀ (pf : Platform) (ld : Segments) (inst : Inst) (pc : Word) (k : α → Micro Unit) (x : Safe.Exec pf),
    Safe.run pf ld inst pc (m.bind k) x = match e x.arch.regs with
      | some v => Safe.run pf ld inst pc (k v) x
      | none => .error .undefined

theorem reads_gpr (n : Nat) :
    ∃ e, Reads (gpr n) e ∧ ∀ a v, e (Function.update a .lo v) = e a := by
  by_cases hn : n < 32
  · refine ⟨fun a => some (a (.r ⟨n, hn⟩)), fun pf ld inst pc k x => ?_, fun a v => ?_⟩
    · rw [gpr, dif_pos hn]
      rfl
    · exact congrArg some (Function.update_of_ne (show Reg.r ⟨n, hn⟩ ≠ .lo by simp) v a)
  · refine ⟨fun _ => none, fun pf ld inst pc k x => ?_, fun a v => rfl⟩
    rw [gpr, dif_neg hn]
    rfl

theorem reads_fprL (n : Nat) : ∃ e, Reads (fprL n) e := by
  by_cases hn : n < 32
  · refine ⟨fun a => some (a (.f ⟨n, hn⟩)), fun pf ld inst pc k x => ?_⟩
    rw [fprL, dif_pos hn]
    rfl
  · refine ⟨fun _ => none, fun pf ld inst pc k x => ?_⟩
    rw [fprL, dif_neg hn]
    rfl

theorem reads_fprD (n : Nat) : ∃ e, Reads (fprD n) e := by
  obtain ⟨e₁, h₁⟩ := reads_fprL (evenFloor n)
  obtain ⟨e₂, h₂⟩ := reads_fprL (evenFloor n + 1)
  refine ⟨fun a => (e₁ a).bind fun u => (e₂ a).map fun v => (u, v), fun pf ld inst pc k x => ?_⟩
  unfold fprD
  simp only [Micro.bind_eq, Micro.pure_eq, Micro.bind_assoc, Micro.bind]
  rw [h₁]
  cases e₁ x.arch.regs with
  | none => rfl
  | some u =>
    dsimp only [Option.bind]
    rw [h₂]
    cases e₂ x.arch.regs <;> rfl

/-! ### Division -/

section

variable {pf : Platform} {inst : Inst} {pc : Word} {x : Safe.Exec pf}

theorem run_fpalign {n : Nat} {k k' : Unit → Micro Unit}
    (h : Safe.run pf ld inst pc (k ()) x = Safe.run pf ld inst pc (k' ()) x) :
    Safe.run pf ld inst pc ((fpalign n).bind k) x = Safe.run pf ld inst pc ((fpalign n).bind k') x := by
  unfold fpalign
  split
  · rfl
  · exact h

/-- Behind `DIV0` the divisor is not zero. -/
theorem run_div0 {zero : Bool} {k k' : Unit → Micro Unit}
    (h : zero = false → Safe.run pf ld inst pc (k ()) x = Safe.run pf ld inst pc (k' ()) x) :
    Safe.run pf ld inst pc ((div0 zero).bind k) x = Safe.run pf ld inst pc ((div0 zero).bind k') x := by
  cases zero with
  | true => rfl
  | false => exact h rfl

/-- A division of floating point numbers. -/
def fdivide {α : Type} (inst : Inst) (get : Nat → Micro α) (set : Nat → Micro α → Micro Unit)
    (zero : α → Bool) (f : α → α → α) : Micro Unit := do
  fpalign inst.rd
  fpalign inst.rs
  fpalign inst.rt
  div0 (zero (← get inst.rt))
  set inst.rd (do return f (← get inst.rs) (← get inst.rt))

theorem run_fdivide {α : Type} {get : Nat → Micro α} {set : Nat → Micro α → Micro Unit} {zero : α → Bool}
    {f f' : α → α → α} (hGet : ∀ n, ∃ e, Reads (get n) e)
    (hSet : ∀ n e e', (∀ k, Safe.run pf ld inst pc (e.bind k) x = Safe.run pf ld inst pc (e'.bind k) x) →
      Safe.run pf ld inst pc (set n e) x = Safe.run pf ld inst pc (set n e') x)
    (hf : ∀ a b, zero b = false → f a b = f' a b) :
    Safe.run pf ld inst pc (fdivide inst get set zero f) x =
      Safe.run pf ld inst pc (fdivide inst get set zero f') x := by
  obtain ⟨s, hs⟩ := hGet inst.rs
  obtain ⟨t, ht⟩ := hGet inst.rt
  unfold fdivide
  simp only [Micro.bind_eq, Micro.pure_eq]
  refine run_fpalign (run_fpalign (run_fpalign ?_))
  rw [ht, ht]
  cases hb : t x.arch.regs with
  | none => rfl
  | some b =>
    refine run_div0 fun hZero => hSet _ _ _ fun k => ?_
    simp only [Micro.bind_assoc, Micro.bind]
    rw [hs, hs]
    cases s x.arch.regs with
    | none => rfl
    | some a =>
      dsimp only
      rw [ht, ht, hb]
      dsimp only
      rw [hf a b hZero]

/-- A division of integers. -/
def divide (inst : Inst) (f g : Word → Word → Micro Word) : Micro Unit := do
  div0 (decide ((← gpr inst.rt) = 0))
  setLo (do f (← gpr inst.rs) (← gpr inst.rt))
  setHi (do g (← gpr inst.rs) (← gpr inst.rt))

theorem run_divide {f f' g g' : Word → Word → Micro Word}
    (hf : ∀ a b, b ≠ 0 → f a b = f' a b) (hg : ∀ a b, b ≠ 0 → g a b = g' a b)
    (hPure : ∀ a b, f' a b = .undefined ∨ ∃ v, f' a b = .ret v) :
    Safe.run pf ld inst pc (divide inst f g) x = Safe.run pf ld inst pc (divide inst f' g') x := by
  obtain ⟨s, hs, hsLo⟩ := reads_gpr inst.rs
  obtain ⟨t, ht, htLo⟩ := reads_gpr inst.rt
  unfold divide setLo setHi
  simp only [Micro.bind_eq, Micro.bind_assoc, Micro.bind]
  rw [ht, ht]
  cases hb : t x.arch.regs with
  | none => rfl
  | some b =>
    refine run_div0 fun hZero => ?_
    have hb0 : b ≠ 0 := by simpa using hZero
    simp only [Safe.run]
    rw [hs, hs]
    cases ha : s x.arch.regs with
    | none => rfl
    | some a =>
      dsimp only
      rw [ht, ht, hb]
      dsimp only
      rw [hf a b hb0]
      rcases hPure a b with hUndef | ⟨v, hv⟩
      · rw [hUndef]
        rfl
      · rw [hv]
        simp only [Micro.bind, Safe.run]
        have hs' : s (x.arch.setReg .lo v).regs = some a := (hsLo _ v).trans ha
        have ht' : t (x.arch.setReg .lo v).regs = some b := (htLo _ v).trans hb
        rw [hs, hs, hs']
        dsimp only
        rw [ht, ht, ht']
        dsimp only
        rw [hg a b hb0]

end

/-! ### Both sets of macros -/

/-- Floating point is the same in both simulators: where `sim-outorder` gives zero for a NaN, the
host does so too. -/
structure SameFloat (fpu : Fpu) : Prop where
  intS : ∀ a, fpu.isNanS a = true → fpu.intS a = 0
  intD : ∀ a, fpu.isNanD a = true → fpu.intD a = 0

/-- The instructions whose definition uses a macro that `ruu_dispatch` redefines. -/
def Opcode.divides (op : Opcode) : Bool :=
  op = .div || op = .divu || op = .fdiv_s || op = .fdiv_d

theorem expr_engine {fpu : Fpu} (hFloat : SameFloat fpu) (b : Bool) (inst : Inst) {op : Opcode}
    (hOp : op.divides = false) :
    op.expr (Engine.outorder fpu 0 b) inst = op.expr (Engine.default fpu 0 b) inst := by
  have hIntS : (Engine.outorder fpu 0 b).fintS = (Engine.default fpu 0 b).fintS := by
    funext a
    show (if fpu.isNanS a then 0 else fpu.intS a) = fpu.intS a
    split
    · exact (hFloat.intS a ‹_›).symm
    · rfl
  have hIntD : (Engine.outorder fpu 0 b).fintD = (Engine.default fpu 0 b).fintD := by
    funext a
    show (if fpu.isNanD a then 0 else fpu.intD a) = fpu.intD a
    split
    · exact (hFloat.intD a ‹_›).symm
    · rfl
  cases op <;> first
    | rfl
    | exact absurd hOp (by decide)
    | exact congrArg (fpuR inst setFprL fprL) hIntS
    | exact congrArg (fpuR inst setFprL fprD) hIntD

/-- The macros that `ruu_dispatch` redefines only differ for operands that both simulators refuse. -/
theorem run_engine {pf : Platform} (hFloat : SameFloat pf.fpu) (b : Bool) (inst : Inst) (pc : Word)
    (op : Opcode) (x : Safe.Exec pf) :
    Safe.run pf ld inst pc (op.expr (Engine.outorder pf.fpu 0 b) inst) x =
      Safe.run pf ld inst pc (op.expr (Engine.default pf.fpu 0 b) inst) x := by
  have hPureDiv : ∀ a b, cDiv a b = .undefined ∨ ∃ v, cDiv a b = .ret v := by
    intro a b
    unfold cDiv
    split
    · exact .inl rfl
    · exact .inr ⟨_, rfl⟩
  have hPureDivu : ∀ a b, cDivu a b = .undefined ∨ ∃ v, cDivu a b = .ret v := by
    intro a b
    unfold cDivu
    split
    · exact .inl rfl
    · exact .inr ⟨_, rfl⟩
  by_cases hOp : op.divides = true
  · simp only [Opcode.divides, Bool.or_eq_true, decide_eq_true_eq] at hOp
    rcases hOp with ((rfl | rfl) | rfl) | rfl
    · exact run_divide (fun a b hb => if_neg hb) (fun a b hb => if_neg hb) hPureDiv
    · exact run_divide (fun a b hb => if_neg hb) (fun a b hb => if_neg hb) hPureDivu
    · refine run_fdivide reads_fprL (fun n e e' h => ?_) fun a b hb => if_neg (Bool.eq_false_iff.mp hb)
      unfold setFprL
      split
      · exact h _
      · rfl
    · refine run_fdivide reads_fprD (fun n e e' h => ?_) fun a b hb => if_neg (Bool.eq_false_iff.mp hb)
      unfold setFprD
      split
      · exact h _
      · rfl
  · rw [expr_engine hFloat b inst (by simpa using hOp)]

end SimpleScalar

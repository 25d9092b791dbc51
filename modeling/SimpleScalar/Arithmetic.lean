import Mathlib.Data.Nat.Bitwise
import SimpleScalar.Safe

/-!
# Integer arithmetic

The instructions of `ss.def` against exact arithmetic.  `InstMULT` and `InstMULTU` multiply by
shifting and adding in the pair `HI`, `LO`; `ADD`, `ADDI` and `SUB` check for overflow with
inequalities between `int`s before they compute.

* `product_exact`: the pair ends as the 64-bit product, signed and unsigned.
* `traps_exact`: the checks are exact but for three boundary cases.
-/

namespace SimpleScalar

variable {e : Micro Word}

namespace Safe

variable {pf : Platform} {ld : Segments} {inst : Inst} {pc : Word} {x : Exec pf}

/-- One expression after the other. -/
theorem run_bind {m : Micro Unit} {k : Unit → Micro Unit} : ∀ {x : Exec pf},
    run pf ld inst pc (m.bind k) x = run pf ld inst pc m x >>= run pf ld inst pc (k ()) := by
  induction m with
  | ret a => intro x; rfl
  | get r k ih => intro x; exact ih _
  | use r k ih => intro x; exact ih
  | put r v k ih => intro x; exact ih
  | cpc k ih => intro x; exact ih _
  | setNpc v k ih => intro x; exact ih
  | setTpc v k ih => intro x; exact ih
  | load t addr k ih =>
    intro x
    simp only [Micro.bind, run]
    cases memValid ld .read addr t.size with
    | ok _ => exact ih _
    | error e => rfl
  | store t addr v k ih =>
    intro x
    simp only [Micro.bind, run]
    cases memValid ld .write addr t.size with
    | ok _ => exact ih
    | error e => rfl
  | ifail msg k ih => intro x; rfl
  | syscall k ih =>
    intro x
    simp only [Micro.bind, run]
    cases ssSyscall pf ld inst x.host x.arch with
    | ok r => exact ih
    | error e => rfl
  | undefined => intro x; rfl

/-! ### The pair `HI`, `LO` -/

/-- `HI` and `LO` set to `h` and `l`. -/
def Exec.pair (x : Exec pf) (h l : Word) : Exec pf :=
  { x with arch := (x.arch.setReg .hi h).setReg .lo l }

section

variable (x : Exec pf) (h l v : Word)

theorem Exec.pair_hi : (x.pair h l).arch.regs .hi = h := by
  simp [pair, Arch.setReg]

theorem Exec.pair_lo : (x.pair h l).arch.regs .lo = l := by
  simp [pair, Arch.setReg]

theorem Exec.pair_gpr (n : Fin 32) : (x.pair h l).arch.regs (.r n) = x.arch.regs (.r n) := by
  simp [pair, Arch.setReg]

theorem Exec.pair_setHi :
    { x.pair h l with arch := (x.pair h l).arch.setReg .hi v } = x.pair v l := by
  have hComm := Function.update_comm (show Reg.hi ≠ Reg.lo by decide) v l x.arch.regs
  unfold pair Arch.setReg
  rw [hComm]
  simp only [Function.update_comm (show Reg.lo ≠ Reg.hi by decide), Function.update_idem]

theorem Exec.pair_setLo :
    { x.pair h l with arch := (x.pair h l).arch.setReg .lo v } = x.pair h v := by
  simp only [pair, Arch.setReg, Function.update_idem]

end

/-- An expression that has the value `v` whatever `HI` and `LO` hold. -/
def Yields (pf : Platform) (ld : Segments) (inst : Inst) (pc : Word) (x : Exec pf) (m : Micro Word) (v : Word) :
    Prop :=
  ∀ (k : Word → Micro Unit) (h l : Word),
    run pf ld inst pc (m.bind k) (x.pair h l) = run pf ld inst pc (k v) (x.pair h l)

theorem yields_ret (v : Word) : Yields pf ld inst pc x (.ret v) v := fun _ _ _ => rfl

theorem yields_gpr (n : Fin 32) : Yields pf ld inst pc x (gpr n) (x.arch.regs (.r n)) := by
  intro k h l
  rw [gpr, dif_pos n.isLt, ← x.pair_gpr h l n]
  rfl

variable {h l v : Word}

theorem run_setHi
    (he : ∀ k, run pf ld inst pc (e.bind k) (x.pair h l) = run pf ld inst pc (k v) (x.pair h l)) :
    run pf ld inst pc (setHi e) (x.pair h l) = .ok (x.pair v l) :=
  (he _).trans (congrArg Except.ok (x.pair_setHi h l v))

theorem run_setLo
    (he : ∀ k, run pf ld inst pc (e.bind k) (x.pair h l) = run pf ld inst pc (k v) (x.pair h l)) :
    run pf ld inst pc (setLo e) (x.pair h l) = .ok (x.pair h v) :=
  (he _).trans (congrArg Except.ok (x.pair_setLo h l v))

end Safe

/-! ### Multiplication -/

/-- The number in a pair of words. -/
def pairNat (h l : Word) : Nat := h.toNat * 2 ^ 32 + l.toNat

theorem pairNat_lt (h l : Word) : pairNat h l < 2 ^ 64 := by
  have hlt := h.isLt
  have llt := l.isLt
  unfold pairNat
  omega

/-- One round of the loop: the pair is doubled, and `b` added if the bit is set. -/
def multRound (bit : Bool) (b h l : Word) : Word × Word :=
  let h := h <<< 1 + extractBit l 31
  let l := l <<< 1
  if bit then (if 0xffffffff#32 - l < b then h + 1 else h, l + b) else (h, l)

theorem toNat_extractBit (v : Word) (n : Nat) : (extractBit v n).toNat = v.toNat / 2 ^ n % 2 := by
  rw [extractBit, BitVec.toNat_and, BitVec.toNat_ushiftRight, Nat.shiftRight_eq_div_pow,
    show (1#32).toNat = 2 ^ 1 - 1 from rfl, Nat.and_two_pow_sub_one_eq_mod]

theorem signBit_eq (v : Word) : signBit v = decide (2 ^ 31 ≤ v.toNat) := by
  have hlt := v.isLt
  refine decide_eq_decide.2 (not_congr ?_ |>.trans not_lt)
  rw [← BitVec.toNat_inj, BitVec.toNat_and, show (0x80000000#32).toNat = 2 ^ 31 from rfl, Nat.and_two_pow,
    Nat.testBit_eq_decide_div_mod_eq]
  rw [show BitVec.toNat (0 : Word) = 0 from rfl, Nat.mul_eq_zero, Bool.toNat_eq_zero, decide_eq_false_iff_not]
  omega

/-- The bit that a round looks at, as a factor. -/
theorem multRound_bit (a b : Word) (n : Nat) :
    (if decide (extractBit a n = 1) = true then b.toNat else 0) = a.toNat / 2 ^ n % 2 * b.toNat := by
  have hBit := toNat_extractBit a n
  rw [← hBit]
  split
  · rename_i hOne
    rw [of_decide_eq_true hOne]
    exact (Nat.one_mul _).symm
  · rename_i hNot
    have hZero : (extractBit a n).toNat = 0 := by
      have hNe : (extractBit a n).toNat ≠ 1 := fun h =>
        hNot (decide_eq_true (BitVec.eq_of_toNat_eq h))
      omega
    rw [hZero, Nat.zero_mul]

theorem pairNat_double (h l : Word) :
    pairNat (h <<< 1 + extractBit l 31) (l <<< 1) = 2 * pairNat h l % 2 ^ 64 := by
  have hlt := h.isLt
  have llt := l.isLt
  unfold pairNat
  rw [BitVec.toNat_add, toNat_extractBit, BitVec.toNat_shiftLeft, BitVec.toNat_shiftLeft, Nat.shiftLeft_eq,
    Nat.shiftLeft_eq]
  omega

/-- The carry is the one of the sum of the low words. -/
theorem pairNat_add (b h l : Word) :
    pairNat (if 0xffffffff#32 - l < b then h + 1 else h) (l + b) = (pairNat h l + b.toNat) % 2 ^ 64 := by
  have hlt := h.isLt
  have llt := l.isLt
  have blt := b.isLt
  have hSub : (0xffffffff#32 - l).toNat = 2 ^ 32 - 1 - l.toNat := by
    rw [BitVec.toNat_sub, show (0xffffffff#32).toNat = 2 ^ 32 - 1 from rfl]
    omega
  unfold pairNat
  split
  · rename_i hCarry
    rw [BitVec.lt_def, hSub] at hCarry
    rw [BitVec.toNat_add, BitVec.toNat_add, show BitVec.toNat (1 : Word) = 1 from rfl]
    omega
  · rename_i hCarry
    rw [BitVec.lt_def, hSub] at hCarry
    rw [BitVec.toNat_add]
    omega

theorem pairNat_multRound (bit : Bool) (b h l : Word) :
    pairNat (multRound bit b h l).1 (multRound bit b h l).2 =
      (2 * pairNat h l + if bit then b.toNat else 0) % 2 ^ 64 := by
  cases bit with
  | false =>
    rw [if_neg (by decide), Nat.add_zero, ← pairNat_double]
    rfl
  | true =>
    rw [if_pos rfl, ← Nat.mod_add_mod, ← pairNat_double, ← pairNat_add]
    rfl

/-- The two-word negation at the end of `InstMULT`. -/
def negPair (h l : Word) : Word × Word :=
  (if ~~~l = 0xffffffff#32 then ~~~h + 1 else ~~~h, ~~~l + 1)

theorem pairNat_negPair (h l : Word) :
    pairNat (negPair h l).1 (negPair h l).2 = (2 ^ 64 - pairNat h l) % 2 ^ 64 := by
  have hlt := h.isLt
  have llt := l.isLt
  have hOne : BitVec.toNat (1 : Word) = 1 := rfl
  unfold negPair pairNat
  split
  · rename_i hFull
    have hZero : l.toNat = 0 := by
      have := congrArg BitVec.toNat hFull
      rw [BitVec.toNat_not] at this
      have hTop : (0xffffffff#32).toNat = 2 ^ 32 - 1 := rfl
      omega
    rw [BitVec.toNat_add, BitVec.toNat_add, BitVec.toNat_not, BitVec.toNat_not, hOne]
    omega
  · rename_i hFull
    have hPos : l.toNat ≠ 0 := by
      intro hZero
      apply hFull
      rw [show l = 0#32 from BitVec.eq_of_toNat_eq hZero]
      rfl
    rw [BitVec.toNat_add, BitVec.toNat_not, BitVec.toNat_not, hOne]
    omega

/-- The operand without its sign. -/
def magnitude (v : Word) : Word := if signBit v then ~~~v + 1 else v

theorem signBit_toInt (v : Word) : signBit v = decide (v.toInt < 0) := by
  have hlt := v.isLt
  rw [signBit_eq, BitVec.toInt_eq_toNat_cond]
  refine decide_eq_decide.2 ?_
  split <;> omega

theorem natAbs_toInt_le (v : Word) : v.toInt.natAbs ≤ 2 ^ 31 := by
  have hlt := v.isLt
  rw [BitVec.toInt_eq_toNat_cond]
  split <;> omega

theorem toNat_magnitude (v : Word) : (magnitude v).toNat = v.toInt.natAbs := by
  have hlt := v.isLt
  unfold magnitude
  rw [signBit_eq, BitVec.toInt_eq_toNat_cond]
  split
  · rename_i hBit
    have hBit := of_decide_eq_true hBit
    rw [BitVec.toNat_add, BitVec.toNat_not, show BitVec.toNat (1 : Word) = 1 from rfl, if_neg (by omega)]
    omega
  · rename_i hBit
    have hBit := mt decide_eq_true hBit
    rw [if_pos (by omega)]
    omega

/-- The product of the magnitudes, negated in 64 bits if the signs differ. -/
def signedProduct (a b : Word) : Nat :=
  if signBit a ≠ signBit b then (2 ^ 64 - (magnitude a).toNat * (magnitude b).toNat) % 2 ^ 64
  else (magnitude a).toNat * (magnitude b).toNat

theorem toNat_append (h l : Word) : (h ++ l).toNat = pairNat h l := by
  rw [BitVec.toNat_append, ← Nat.shiftLeft_add_eq_or_of_lt l.isLt, Nat.shiftLeft_eq]
  rfl

/-- The sign of a product. -/
theorem toInt_of_signedProduct {a b h l : Word} (hNat : pairNat h l = signedProduct a b) :
    (h ++ l).toInt = a.toInt * b.toInt := by
  have ha := a.isLt
  have hb := b.isLt
  have hAbs : (magnitude a).toNat * (magnitude b).toNat = (a.toInt * b.toInt).natAbs := by
    rw [toNat_magnitude, toNat_magnitude, Int.natAbs_mul]
  have hLe : (a.toInt * b.toInt).natAbs ≤ 2 ^ 31 * 2 ^ 31 := by
    rw [Int.natAbs_mul]
    exact Nat.mul_le_mul (natAbs_toInt_le a) (natAbs_toInt_le b)
  rw [BitVec.toInt_eq_toNat_cond, toNat_append, hNat, signedProduct, hAbs, signBit_toInt, signBit_toInt]
  split
  · rename_i hSigns
    have hNeg : a.toInt * b.toInt ≤ 0 := by
      by_cases hSign : a.toInt < 0
      · have hSign' : 0 ≤ b.toInt := not_lt.1 fun h => hSigns (decide_eq_decide.2 (iff_of_true hSign h))
        exact Int.mul_nonpos_of_nonpos_of_nonneg hSign.le hSign'
      · have hSign' : b.toInt < 0 := not_not.1 fun h => hSigns (decide_eq_decide.2 (iff_of_false hSign h))
        exact Int.mul_nonpos_of_nonneg_of_nonpos (not_lt.1 hSign) hSign'.le
    have hCast := Int.ofNat_natAbs_of_nonpos hNeg
    omega
  · rename_i hSigns
    have hSigns := decide_eq_decide.1 (not_not.1 hSigns)
    have hPos : 0 ≤ a.toInt * b.toInt := by
      by_cases hSign : a.toInt < 0
      · exact Int.mul_nonneg_of_nonpos_of_nonpos hSign.le (hSigns.1 hSign).le
      · exact Int.mul_nonneg (not_lt.1 hSign) (not_lt.1 (mt hSigns.2 hSign))
    have hCast := Int.natAbs_of_nonneg hPos
    omega

variable {k : Micro Unit}

namespace Safe

variable {pf : Platform} {ld : Segments} {inst : Inst} {pc : Word} {x : Exec pf}

/-- The addition of a round, with its carry. -/
theorem run_addLow {op2 : Micro Word} {top b h l : Word} (h₂ : Yields pf ld inst pc x op2 b) :
    run pf ld inst pc (do
      if top - (← lo) < (← op2) then
        setHi (do return (← hi) + 1)
      setLo (do return (← lo) + (← op2))
      k) (x.pair h l) =
      run pf ld inst pc k (x.pair (if top - l < b then h + 1 else h) (l + b)) := by
  have hLow : ∀ h, run pf ld inst pc (setLo (do return (← lo) + (← op2))) (x.pair h l) = .ok (x.pair h (l + b)) := by
    intro h
    refine run_setLo fun k' => ?_
    show run pf ld inst pc ((op2.bind fun v => .ret ((x.pair h l).arch.regs .lo + v)).bind k') (x.pair h l) = _
    rw [Micro.bind_assoc, h₂, x.pair_lo]
    rfl
  show run pf ld inst pc (op2.bind _) (x.pair h l) = _
  rw [h₂, x.pair_lo]
  simp only [Micro.bind_eq] at hLow ⊢
  split
  · rw [run_bind, run_setHi fun _ => rfl]
    show run pf ld inst pc _ (x.pair _ _) = _
    rw [run_bind, hLow, x.pair_hi]
    rfl
  · rw [run_bind, hLow]
    rfl

variable {op1 op2 : Micro Word} {a b : Word}

/-- The loop with `n` rounds left: the pair is shifted by `n`, and the product of the low `n` bits
of the first operand is added. -/
theorem run_multLoop (h₁ : Yields pf ld inst pc x op1 a)
    (h₂ : Yields pf ld inst pc x op2 b) : ∀ (n : Nat) (h l : Word), ∃ h' l',
      run pf ld inst pc (multLoop op1 op2 n) (x.pair h l) = .ok (x.pair h' l') ∧
        pairNat h' l' = (2 ^ n * pairNat h l + a.toNat % 2 ^ n * b.toNat) % 2 ^ 64 := by
  intro n
  induction n with
  | zero =>
    intro h l
    refine ⟨h, l, rfl, ?_⟩
    rw [pow_zero, Nat.mod_one, Nat.zero_mul, Nat.one_mul, Nat.add_zero, Nat.mod_eq_of_lt (pairNat_lt h l)]
  | succ n ih =>
    intro h l
    have hRound : run pf ld inst pc (multLoop op1 op2 (n + 1)) (x.pair h l) =
        run pf ld inst pc (multLoop op1 op2 n) (x.pair (multRound (decide (extractBit a n = 1)) b h l).1
          (multRound (decide (extractBit a n = 1)) b h l).2) := by
      rw [multLoop]
      simp only [Micro.bind_eq]
      rw [run_bind, run_setHi fun _ => rfl]
      show run pf ld inst pc _ (x.pair _ _) = _
      rw [run_bind, run_setHi fun _ => rfl]
      show run pf ld inst pc _ (x.pair _ _) = _
      rw [run_bind, run_setLo fun _ => rfl]
      show run pf ld inst pc _ (x.pair _ _) = _
      rw [h₁, x.pair_hi, x.pair_hi, x.pair_lo, x.pair_lo]
      by_cases hBit : extractBit a n = 1
      · rw [if_pos hBit, decide_eq_true hBit]
        exact run_addLow h₂
      · rw [if_neg hBit, decide_eq_false hBit]
        rfl
    obtain ⟨h', l', hRun, hNat⟩ := ih (multRound (decide (extractBit a n = 1)) b h l).1
      (multRound (decide (extractBit a n = 1)) b h l).2
    refine ⟨h', l', hRound.trans hRun, ?_⟩
    rw [hNat, pairNat_multRound, multRound_bit, Nat.mod_pow_succ (b := 2) (k := n), ← Nat.mod_add_mod,
      Nat.mul_mod_mod, Nat.mod_add_mod]
    ring_nf

/-- Bit 31 of the first operand is taken into `LO` before the loop. -/
theorem run_topBit {bit : Bool} {b : Word} (he : Yields pf ld inst pc x e b) :
    run pf ld inst pc (if bit then (setLo e).bind fun _ => k else k) (x.pair 0 0) =
      run pf ld inst pc k (x.pair 0 (if bit then b else 0)) := by
  cases bit with
  | false => rfl
  | true =>
    rw [if_pos rfl, if_pos rfl, run_bind, run_setLo fun k => he k 0 0]
    rfl

/-- The first 32 rounds make the product of the operands as unsigned numbers. -/
theorem run_product (h₁ : Yields pf ld inst pc x op1 a) (h₂ : Yields pf ld inst pc x op2 b) : ∃ h l,
      run pf ld inst pc (multLoop op1 op2 31) (x.pair 0 (if signBit a then b else 0)) = .ok (x.pair h l) ∧
        pairNat h l = a.toNat * b.toNat := by
  obtain ⟨h, l, hRun, hNat⟩ := run_multLoop h₁ h₂ 31 0 (if signBit a then b else 0)
  refine ⟨h, l, hRun, hNat.trans ?_⟩
  have hTop : pairNat 0 (if signBit a then b else 0) = a.toNat / 2 ^ 31 * b.toNat := by
    have hlt := a.isLt
    rw [signBit_eq, pairNat]
    split
    · rename_i hBit
      rw [show a.toNat / 2 ^ 31 = 1 by have := of_decide_eq_true hBit; omega]
      rw [Nat.one_mul]
      exact Nat.zero_add _
    · rename_i hBit
      rw [show a.toNat / 2 ^ 31 = 0 by have := mt decide_eq_true hBit; omega, Nat.zero_mul]
      rfl
  have hSplit : 2 ^ 31 * (a.toNat / 2 ^ 31 * b.toNat) + a.toNat % 2 ^ 31 * b.toNat = a.toNat * b.toNat := by
    rw [← Nat.mul_assoc, ← Nat.add_mul, Nat.div_add_mod]
  have hLt : a.toNat * b.toNat < 2 ^ 32 * 2 ^ 32 := Nat.mul_lt_mul'' a.isLt b.isLt
  rw [hTop, hSplit]
  exact Nat.mod_eq_of_lt hLt

/-- `InstMULTU`. -/
theorem run_instMULTU (hs : inst.rs < 32) (ht : inst.rt < 32) : ∃ h l,
    run pf ld inst pc (instMULTU inst) x = .ok (x.pair h l) ∧
      pairNat h l = (x.arch.regs (.r ⟨inst.rs, hs⟩)).toNat * (x.arch.regs (.r ⟨inst.rt, ht⟩)).toNat := by
  have h₁ : Yields pf ld inst pc x (gpr inst.rs) _ := yields_gpr ⟨inst.rs, hs⟩
  have h₂ : Yields pf ld inst pc x (gpr inst.rt) _ := yields_gpr ⟨inst.rt, ht⟩
  obtain ⟨h, l, hRun, hNat⟩ := run_product h₁ h₂
  refine ⟨h, l, Eq.trans ?_ hRun, hNat⟩
  show run pf ld inst pc ((gpr inst.rs).bind _) (x.pair 0 0) = _
  rw [h₁]
  exact run_topBit h₂

theorem run_negate (h l : Word) :
    run pf ld inst pc (do
      setLo (do return ~~~(← lo))
      setHi (do return ~~~(← hi))
      if (← lo) = 0xffffffff#32 then
        setHi (do return (← hi) + 1)
      setLo (do return (← lo) + 1)) (x.pair h l) = .ok (x.pair (negPair h l).1 (negPair h l).2) := by
  simp only [Micro.bind_eq]
  rw [run_bind, run_setLo fun _ => rfl]
  show run pf ld inst pc _ (x.pair _ _) = _
  rw [run_bind, run_setHi fun _ => rfl]
  show run pf ld inst pc (if (x.pair _ _).arch.regs .lo = _ then _ else _) (x.pair _ _) = _
  rw [x.pair_lo, x.pair_lo, x.pair_hi]
  unfold negPair
  split
  · rw [run_bind, run_setHi fun _ => rfl]
    show run pf ld inst pc _ (x.pair _ _) = _
    rw [run_setLo fun _ => rfl, x.pair_hi, x.pair_lo]
  · rw [run_setLo fun _ => rfl, x.pair_lo]

/-- `InstMULT`. -/
theorem run_instMULT (hs : inst.rs < 32) (ht : inst.rt < 32) : ∃ h l,
    run pf ld inst pc (instMULT inst) x = .ok (x.pair h l) ∧
      pairNat h l = signedProduct (x.arch.regs (.r ⟨inst.rs, hs⟩)) (x.arch.regs (.r ⟨inst.rt, ht⟩)) := by
  have h₁ : Yields pf ld inst pc x (gpr inst.rs) _ := yields_gpr ⟨inst.rs, hs⟩
  have h₂ : Yields pf ld inst pc x (gpr inst.rt) _ := yields_gpr ⟨inst.rt, ht⟩
  have hMag : Yields pf ld inst pc x (.ret (magnitude (x.arch.regs (.r ⟨inst.rt, ht⟩)))) _ := yields_ret _
  obtain ⟨h, l, hRun, hNat⟩ := run_product (yields_ret (magnitude (x.arch.regs (.r ⟨inst.rs, hs⟩)))) hMag
  have hStart : run pf ld inst pc (instMULT inst) x = run pf ld inst pc
      (do
        if signBit (x.arch.regs (.r ⟨inst.rs, hs⟩)) ≠ signBit (x.arch.regs (.r ⟨inst.rt, ht⟩)) then
          setLo (do return ~~~(← lo))
          setHi (do return ~~~(← hi))
          if (← lo) = 0xffffffff#32 then
            setHi (do return (← hi) + 1)
          setLo (do return (← lo) + 1)) (x.pair h l) := by
    show run pf ld inst pc ((gpr inst.rs).bind _) (x.pair 0 0) = _
    rw [h₁]
    show run pf ld inst pc ((gpr inst.rt).bind _) (x.pair 0 0) = _
    rw [h₂]
    refine (run_topBit (yields_ret _)).trans ?_
    simp only [Micro.bind_eq]
    rw [run_bind]
    exact congrArg (· >>= _) hRun
  unfold signedProduct
  split
  · rename_i hSigns
    rw [if_pos hSigns] at hStart
    refine ⟨_, _, hStart.trans (run_negate h l), ?_⟩
    rw [pairNat_negPair, hNat]
  · rename_i hSigns
    rw [if_neg hSigns] at hStart
    exact ⟨h, l, hStart, hNat⟩

end Safe

/-- `MULT` leaves the signed product of its operands in `HI` and `LO`, `MULTU` the unsigned one. -/
theorem product_exact (pf : Platform) (ld : Segments) (c : Engine) (inst : Inst) (pc : Word) (x : Safe.Exec pf)
    (hs : inst.rs < 32) (ht : inst.rt < 32) :
    (∃ h l : Word, Safe.run pf ld inst pc (Opcode.mult.expr c inst) x = .ok (x.pair h l) ∧
      (h ++ l).toInt = (x.arch.regs (.r ⟨inst.rs, hs⟩)).toInt * (x.arch.regs (.r ⟨inst.rt, ht⟩)).toInt) ∧
    ∃ h l : Word, Safe.run pf ld inst pc (Opcode.multu.expr c inst) x = .ok (x.pair h l) ∧
      (h ++ l).toNat = (x.arch.regs (.r ⟨inst.rs, hs⟩)).toNat * (x.arch.regs (.r ⟨inst.rt, ht⟩)).toNat := by
  constructor
  · obtain ⟨h, l, hRun, hNat⟩ := @Safe.run_instMULT pf ld inst pc x hs ht
    exact ⟨h, l, hRun, toInt_of_signedProduct hNat⟩
  · obtain ⟨h, l, hRun, hNat⟩ := @Safe.run_instMULTU pf ld inst pc x hs ht
    exact ⟨h, l, hRun, (toNat_append h l).trans hNat⟩

/-- Registers `$1` and `$2` with the given contents, on the bare machine. -/
def Safe.Exec.ofRegs (a b : Word) : Safe.Exec Platform.bare where
  arch := { regs := fun r => if r = .r 1 then a else if r = .r 2 then b else 0, mem := fun _ => 0 }
  host := ()
  addr := 0
  nextPC := 8

/-- `mult $1, $2` and `multu $1, $2` on the most negative integer. -/
theorem product_exact_minInt :
    let x := Safe.Exec.ofRegs 0x80000000#32 0x80000000#32
    (∃ h l : Word, Safe.run Platform.bare ⟨8, 0⟩ ⟨0, 0x01020000#32⟩ 0
      (Opcode.mult.expr (Safe.engine Platform.bare) ⟨0, 0x01020000#32⟩) x = .ok (x.pair h l) ∧
      (h ++ l).toInt = 2 ^ 62) ∧
    ∃ h l : Word, Safe.run Platform.bare ⟨8, 0⟩ ⟨0, 0x01020000#32⟩ 0
      (Opcode.multu.expr (Safe.engine Platform.bare) ⟨0, 0x01020000#32⟩) x = .ok (x.pair h l) ∧
      (h ++ l).toNat = 2 ^ 62 := by
  obtain ⟨⟨h, l, hRun, hInt⟩, h', l', hRun', hNat⟩ := product_exact Platform.bare ⟨8, 0⟩
    (Safe.engine Platform.bare) ⟨0, 0x01020000#32⟩ 0 (Safe.Exec.ofRegs 0x80000000#32 0x80000000#32)
    (by decide) (by decide)
  exact ⟨⟨h, l, hRun, hInt.trans (by decide)⟩, h', l', hRun', hNat.trans (by decide)⟩

/-! ### Trapping sums and differences -/

/-- A signed 32-bit integer has the value. -/
def Fits (v : Int) : Prop := -2 ^ 31 ≤ v ∧ v < 2 ^ 31

instance decidableFits (v : Int) : Decidable (Fits v) := inferInstanceAs (Decidable (_ ∧ _))

/-- What `OVER` and `UNDER` fail with. -/
def overflowTexts : List String := ["+ overflow", "+ underflow", "- overflow", "- underflow"]

/-- Register `d` set to `w`. -/
def Safe.Exec.setGpr {pf : Platform} (x : Safe.Exec pf) (d : Fin 32) (w : Word) : Safe.Exec pf :=
  { x with arch := x.arch.setReg (.r d) w }

/-- The expression traps exactly if `v` has no 32-bit representation, and otherwise writes it to
register `d`. -/
def Safe.Traps {pf : Platform} (ld : Segments) (inst : Inst) (pc : Word) (x : Safe.Exec pf) (m : Micro Unit)
    (d : Fin 32) (v : Int) : Prop :=
  ((∃ msg ∈ overflowTexts, Safe.run pf ld inst pc m x = .error (.fatal msg)) ↔ ¬ Fits v) ∧
  (Fits v → ∃ w : Word, w.toInt = v ∧
    Safe.run pf ld inst pc m x = .ok (x.setGpr d w))

namespace Safe

variable {pf : Platform} {ld : Segments} {inst : Inst} {pc : Word} {x : Exec pf} {m : Micro Unit}

variable {high low : Prop}

/-- Two checks and then the write. -/
theorem traps_iff [Decidable high] [Decidable low] (msg₁ msg₂ : String) {d : Fin 32} {v : Int}
    (h₁ : msg₁ ∈ overflowTexts) (h₂ : msg₂ ∈ overflowTexts)
    (hRun : run pf ld inst pc m x = if high then .error (.fatal msg₁) else
      if low then .error (.fatal msg₂) else .ok (x.setGpr d (BitVec.ofInt 32 v))) :
    Traps ld inst pc x m d v ↔ (high ∨ low ↔ ¬ Fits v) := by
  have hFault : (∃ msg ∈ overflowTexts, run pf ld inst pc m x = .error (.fatal msg)) ↔ high ∨ low := by
    rw [hRun]
    split
    · rename_i hOver
      exact iff_of_true ⟨msg₁, h₁, rfl⟩ (.inl hOver)
    · rename_i hOver
      split
      · rename_i hUnder
        exact iff_of_true ⟨msg₂, h₂, rfl⟩ (.inr hUnder)
      · rename_i hUnder
        refine iff_of_false ?_ (not_or.2 ⟨hOver, hUnder⟩)
        rintro ⟨msg, -, h⟩
        cases h
  unfold Traps
  rw [hFault]
  refine and_iff_left_of_imp fun hExact hFits => ⟨BitVec.ofInt 32 v, ?_, ?_⟩
  · rw [BitVec.toInt_ofInt]
    unfold Fits at hFits
    rw [Int.bmod_def]
    omega
  · have hNone := mt hExact.1 (not_not.2 hFits)
    rw [hRun, if_neg fun h => hNone (.inl h), if_neg fun h => hNone (.inr h)]

/-- A check that passes leaves the state to the write. -/
theorem run_check [Decidable high] [Decidable low] {msg₁ msg₂ : String} :
    run pf ld inst pc (Micro.bind (do
      if high then ifail msg₁
      if low then ifail msg₂) fun _ => k) x =
      if high then .error (.fatal msg₁) else if low then .error (.fatal msg₂) else run pf ld inst pc k x := by
  by_cases hOver : high
  · simp only [if_pos hOver]
    rfl
  · simp only [if_neg hOver]
    by_cases hUnder : low
    · simp only [if_pos hUnder]
      rfl
    · simp only [if_neg hUnder]
      rfl

variable {n : Nat}

theorem run_gpr (hn : n < 32) {k : Word → Micro Unit} :
    run pf ld inst pc ((gpr n).bind k) x = run pf ld inst pc (k (x.arch.regs (.r ⟨n, hn⟩))) x := by
  rw [gpr, dif_pos hn]
  rfl

theorem run_setGpr (hn : n < 32) {v : Word}
    (he : ∀ k, run pf ld inst pc (e.bind k) x = run pf ld inst pc (k v) x) :
    run pf ld inst pc (setGpr n e) x = .ok (x.setGpr ⟨n, hn⟩ v) := by
  rw [setGpr, dif_pos hn]
  exact he _

theorem run_aluRR (hs : inst.rs < 32) (ht : inst.rt < 32) (hd : inst.rd < 32) (f : Word → Word → Word) :
    run pf ld inst pc (aluRR inst f) x = .ok (x.setGpr ⟨inst.rd, hd⟩
      (f (x.arch.regs (.r ⟨inst.rs, hs⟩)) (x.arch.regs (.r ⟨inst.rt, ht⟩)))) := by
  refine run_setGpr hd fun k => ?_
  simp only [Micro.bind_eq]
  rw [Micro.bind_assoc, run_gpr hs, Micro.bind_assoc, run_gpr ht]
  rfl

theorem run_aluRI (hs : inst.rs < 32) (ht : inst.rt < 32) (imm : Word) (f : Word → Word → Word) :
    run pf ld inst pc (aluRI inst imm f) x = .ok (x.setGpr ⟨inst.rt, ht⟩
      (f (x.arch.regs (.r ⟨inst.rs, hs⟩)) imm)) := by
  refine run_setGpr ht fun k => ?_
  simp only [Micro.bind_eq]
  rw [Micro.bind_assoc, run_gpr hs]
  rfl

end Safe

/-- `OVER` is exact but for a sum of two negative numbers that is the most negative integer: the
bound of the test is `-MAXINT_VAL`. -/
theorem over_exact_iff {a b : Int} (ha : Fits a) (hb : Fits b) :
    ((0 < a ∧ 0 < b ∧ 0x7fffffff - a < b) ∨ (a < 0 ∧ b < 0 ∧ -0x7fffffff - a > b) ↔ ¬ Fits (a + b)) ↔
      ¬ (a < 0 ∧ b < 0 ∧ a + b = -2 ^ 31) := by
  unfold Fits at *
  omega

/-- `UNDER` has the same bound, and does not look at `0 - y`. -/
theorem under_exact_iff {a b : Int} (ha : Fits a) (hb : Fits b) :
    ((0 < a ∧ b < 0 ∧ 0x7fffffff + b < a) ∨ (a < 0 ∧ 0 < b ∧ -0x7fffffff + b > a) ↔ ¬ Fits (a - b)) ↔
      ¬ (a < 0 ∧ 0 < b ∧ a - b = -2 ^ 31) ∧ ¬ (a = 0 ∧ b = -2 ^ 31) := by
  unfold Fits at *
  omega

theorem fits_toInt (v : Word) : Fits v.toInt := by
  have hlt := v.isLt
  unfold Fits
  rw [BitVec.toInt_eq_toNat_cond]
  split <;> omega

/-- `ADD`, `ADDI` and `SUB` trap exactly when they should, but for a result that is the most
negative integer, reached from operands the second test looks at, and for `0 - INT_MIN`. -/
theorem traps_exact (pf : Platform) (ld : Segments) (c : Engine) (inst : Inst) (pc : Word) (x : Safe.Exec pf)
    (hs : inst.rs < 32) (ht : inst.rt < 32) (hd : inst.rd < 32) :
    let a := (x.arch.regs (.r ⟨inst.rs, hs⟩)).toInt
    let b := (x.arch.regs (.r ⟨inst.rt, ht⟩)).toInt
    let i := (inst.b.setWidth 16).toInt
    (Safe.Traps ld inst pc x (Opcode.add.expr c inst) ⟨inst.rd, hd⟩ (a + b) ↔
      ¬ (a < 0 ∧ b < 0 ∧ a + b = -2 ^ 31)) ∧
    (Safe.Traps ld inst pc x (Opcode.addi.expr c inst) ⟨inst.rt, ht⟩ (a + i) ↔
      ¬ (a < 0 ∧ i < 0 ∧ a + i = -2 ^ 31)) ∧
    (Safe.Traps ld inst pc x (Opcode.sub.expr c inst) ⟨inst.rd, hd⟩ (a - b) ↔
      ¬ (a < 0 ∧ 0 < b ∧ a - b = -2 ^ 31) ∧ ¬ (a = 0 ∧ b = -2 ^ 31)) := by
  intro a b i
  have hImm : inst.imm.toInt = i := BitVec.toInt_signExtend_of_le (by decide)
  refine ⟨?_, ?_, ?_⟩
  · rw [← over_exact_iff (fits_toInt _) (fits_toInt _)]
    refine Safe.traps_iff "+ overflow" "+ underflow" (by decide) (by decide) ?_
    show Safe.run pf ld inst pc ((gpr inst.rs).bind _) x = _
    rw [Safe.run_gpr hs]
    show Safe.run pf ld inst pc ((gpr inst.rt).bind _) x = _
    rw [Safe.run_gpr ht]
    refine Safe.run_check.trans ?_
    rw [Safe.run_aluRR hs ht hd, BitVec.ofInt_add, BitVec.ofInt_toInt, BitVec.ofInt_toInt]
  · rw [← hImm, ← over_exact_iff (fits_toInt _) (fits_toInt _)]
    refine Safe.traps_iff "+ overflow" "+ underflow" (by decide) (by decide) ?_
    show Safe.run pf ld inst pc ((gpr inst.rs).bind _) x = _
    rw [Safe.run_gpr hs]
    refine Safe.run_check.trans ?_
    rw [Safe.run_aluRI hs ht, BitVec.ofInt_add, BitVec.ofInt_toInt, BitVec.ofInt_toInt]
  · rw [← under_exact_iff (fits_toInt _) (fits_toInt _)]
    refine Safe.traps_iff "- overflow" "- underflow" (by decide) (by decide) ?_
    show Safe.run pf ld inst pc ((gpr inst.rs).bind _) x = _
    rw [Safe.run_gpr hs]
    show Safe.run pf ld inst pc ((gpr inst.rt).bind _) x = _
    rw [Safe.run_gpr ht]
    refine Safe.run_check.trans ?_
    have hSub : ∀ v w : Word, BitVec.ofInt 32 (v.toInt - w.toInt) = v - w := fun v w =>
      BitVec.eq_of_toInt_eq ((BitVec.toInt_ofInt ..).trans BitVec.toInt_sub.symm)
    rw [Safe.run_aluRR hs ht hd, hSub]

/-- On `add $3, $1, $2`, `-5 + 7` is written and `MAXINT + 1` traps. -/
theorem traps_exact_sum :
    Safe.Traps ⟨8, 0⟩ ⟨0, 0x01020300#32⟩ 0 (Safe.Exec.ofRegs (-5) 7)
      (Opcode.add.expr (Safe.engine Platform.bare) ⟨0, 0x01020300#32⟩) 3 2 ∧
    Safe.Traps ⟨8, 0⟩ ⟨0, 0x01020300#32⟩ 0 (Safe.Exec.ofRegs 0x7fffffff#32 1)
      (Opcode.add.expr (Safe.engine Platform.bare) ⟨0, 0x01020300#32⟩) 3 (2 ^ 31) := by
  have hSmall := (traps_exact Platform.bare ⟨8, 0⟩ (Safe.engine Platform.bare) ⟨0, 0x01020300#32⟩ 0
    (Safe.Exec.ofRegs (-5) 7) (by decide) (by decide) (by decide)).1
  have hLarge := (traps_exact Platform.bare ⟨8, 0⟩ (Safe.engine Platform.bare) ⟨0, 0x01020300#32⟩ 0
    (Safe.Exec.ofRegs 0x7fffffff#32 1) (by decide) (by decide) (by decide)).1
  exact ⟨hSmall.2 (by decide), hLarge.2 (by decide)⟩

/-- `-1 + -2147483647` is the most negative integer, but the sum traps; `0 - (-2147483648)` is no
32-bit integer, but the difference does not trap. -/
theorem minInt_inexact :
    Fits ((-1 : Word).toInt + (-2147483647 : Word).toInt) ∧
    Safe.run Platform.bare ⟨8, 0⟩ ⟨0, 0x01020300#32⟩ 0 (Opcode.add.expr (Safe.engine Platform.bare) ⟨0, 0x01020300#32⟩)
      (Safe.Exec.ofRegs (-1) (-2147483647)) = .error (.fatal "+ underflow") ∧
    ¬ Fits ((0 : Word).toInt - (0x80000000#32).toInt) ∧
    Safe.run Platform.bare ⟨8, 0⟩ ⟨0, 0x01020300#32⟩ 0 (Opcode.sub.expr (Safe.engine Platform.bare) ⟨0, 0x01020300#32⟩)
      (Safe.Exec.ofRegs 0 0x80000000#32) = .ok ((Safe.Exec.ofRegs 0 0x80000000#32).setGpr 3 0x80000000#32) :=
  ⟨by decide, rfl, by decide, rfl⟩

end SimpleScalar

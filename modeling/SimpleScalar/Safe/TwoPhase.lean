import SimpleScalar.Safe.Values
import SimpleScalar.Arithmetic
import Mathlib.Data.Rat.Floor

/-!
# Sources before results

An instruction should read its source registers from the state before it, and only then write its
results, so that it does not matter whether a source and a result are the same register.  The
expressions of `ss.def` mix reads and writes, and some helper functions work in the result
register.

`Opcode.body` is an instruction without `INC_DEC`, with the results of the helper functions as
functions of their operands, and `frozen` runs it with every register read from the state before.

* `frozen_eq`: the order does not matter to an expression that reads no register it has written
  (`Fresh`).
* `twoPhase_iff`: every instruction is its body, in two phases, but for `JALR` with its link
  register as the target.
* `arithmetic_shifts`: the shifts that work in their result register round the quotient down.
-/

namespace SimpleScalar

variable {v : Word}

variable {g : Reg → Word} {p : Prop} {msg : String}

namespace Safe

variable {pf : Platform} {ld : Segments} {inst : Inst} {pc : Word} {x : Exec pf} {α β : Type}

/-! ### Two phases -/

/-- The accessor macros with every register read from `g`. -/
def frozen (pf : Platform) (ld : Segments) (inst : Inst) (regsPC : Word) (g : Reg → Word) :
    Micro Unit → Exec pf → Except Stop (Exec pf)
  | .ret _, x => .ok x
  | .get r k, x => frozen pf ld inst regsPC g (k (g r)) x
  | .use _ k, x => frozen pf ld inst regsPC g k x
  | .put r v k, x => frozen pf ld inst regsPC g k { x with arch := x.arch.setReg r v }
  | .cpc k, x => frozen pf ld inst regsPC g (k regsPC) x
  | .setNpc v k, x => frozen pf ld inst regsPC g k { x with nextPC := v }
  | .setTpc _ k, x => frozen pf ld inst regsPC g k x
  | .load t addr k, x => do
    memValid ld .read addr t.size
    frozen pf ld inst regsPC g
      (k (t.extend (join pf.bigEndian (x.arch.mem.bytes addr t.size)))) { x with addr := addr }
  | .store t addr v k, x => do
    memValid ld .write addr t.size
    frozen pf ld inst regsPC g k
      { x with
        arch := { x.arch with
          mem := x.arch.mem.store addr (split pf.bigEndian t.size v.toNat) }
        addr := addr }
  | .ifail msg _, _ => .error (.fatal msg)
  | .syscall k, x => do
    let (host, arch) ← ssSyscall pf ld inst x.host x.arch
    frozen pf ld inst regsPC g k { x with host := host, arch := arch }
  | .undefined, _ => .error .undefined

/-- No register of `W`, and none that has been written since, is read; `Q` holds of the value and
of the registers that are written by then. -/
def Fresh (Q : α → (Reg → Prop) → Prop) : Micro α → (Reg → Prop) → Prop
  | .ret a, W => Q a W
  | .get r k, W => ¬ W r ∧ ∀ v, Fresh Q (k v) W
  | .use _ k, W => Fresh Q k W
  | .put r _ k, W => Fresh Q k fun y => W y ∨ y = r
  | .cpc k, W => ∀ v, Fresh Q (k v) W
  | .setNpc _ k, W => Fresh Q k W
  | .setTpc _ k, W => Fresh Q k W
  | .load _ _ k, W => ∀ v, Fresh Q (k v) W
  | .store _ _ _ k, W => Fresh Q k W
  | .ifail _ _, _ => True
  | .syscall _, _ => False
  | .undefined, _ => True

theorem frozen_eq {m : Micro Unit} : ∀ {W : Reg → Prop} {x : Exec pf},
    Fresh (fun _ _ => True) m W → (∀ r, ¬ W r → x.arch.regs r = g r) →
      run pf ld inst pc m x = frozen pf ld inst pc g m x := by
  induction m with
  | ret a => intro W x _ _; rfl
  | get r k ih =>
    intro W x h hg
    rw [run, frozen, hg r h.1]
    exact ih _ (h.2 _) hg
  | use r k ih => intro W x h hg; exact ih h hg
  | put r v k ih =>
    intro W x h hg
    refine ih h fun r' hr' => ?_
    rw [not_or] at hr'
    exact (Function.update_of_ne hr'.2 v x.arch.regs).trans (hg r' hr'.1)
  | cpc k ih => intro W x h hg; exact ih _ (h _) hg
  | setNpc v k ih => intro W x h hg; exact ih h hg
  | setTpc v k ih => intro W x h hg; exact ih h hg
  | load t addr k ih =>
    intro W x h hg
    rw [run, frozen]
    exact congrArg _ (funext fun _ => ih _ (h _) hg)
  | store t addr v k ih =>
    intro W x h hg
    rw [run, frozen]
    exact congrArg _ (funext fun _ => ih h hg)
  | ifail msg k ih => intro W x _ _; rfl
  | syscall k ih => intro W x h _; exact h.elim
  | undefined => intro W x _ _; rfl

section Rules

variable {Q : α → (Reg → Prop) → Prop} {W : Reg → Prop}

@[simp] theorem fresh_ret {a : α} : Fresh Q (.ret a) W ↔ Q a W := Iff.rfl

@[simp] theorem fresh_bind {m : Micro β} {f : β → Micro α} :
    Fresh Q (m.bind f) W ↔ Fresh (fun b V => Fresh Q (f b) V) m W := by
  induction m generalizing W with
  | ret a => exact Iff.rfl
  | get r k ih => exact and_congr_right fun _ => forall_congr' fun v => ih v
  | use r k ih => exact ih
  | put r v k ih => exact ih
  | cpc k ih => exact forall_congr' fun v => ih v
  | setNpc v k ih => exact ih
  | setTpc v k ih => exact ih
  | load t addr k ih => exact forall_congr' fun v => ih v
  | store t addr v k ih => exact ih
  | ifail msg k ih => exact Iff.rfl
  | syscall k ih => exact Iff.rfl
  | undefined => exact Iff.rfl

@[simp] theorem fresh_ite [Decidable p] {m m' : Micro α} :
    Fresh Q (if p then m else m') W ↔ if p then Fresh Q m W else Fresh Q m' W := by
  split <;> exact Iff.rfl

end Rules

section Accessors

variable {Q : Word → (Reg → Prop) → Prop} {P : Unit → (Reg → Prop) → Prop} {W : Reg → Prop} {n : ℕ}
  {e : Micro Word}

@[simp] theorem fresh_gpr :
    Fresh Q (gpr n) W ↔ ∀ h : n < 32, ¬ W (.r ⟨n, h⟩) ∧ ∀ v, Q v W := by
  by_cases h : n < 32
  · rw [gpr_of_lt h]
    exact ⟨fun hQ _ => hQ, fun hQ => hQ h⟩
  · rw [gpr_none h]
    exact iff_of_true trivial fun h' => absurd h' h

@[simp] theorem fresh_fprL :
    Fresh Q (fprL n) W ↔ ∀ h : n < 32, ¬ W (.f ⟨n, h⟩) ∧ ∀ v, Q v W := by
  by_cases h : n < 32
  · rw [fprL_of_lt h]
    exact ⟨fun hQ _ => hQ, fun hQ => hQ h⟩
  · rw [fprL_none h]
    exact iff_of_true trivial fun h' => absurd h' h

@[simp] theorem fresh_setGpr : Fresh P (setGpr n e) W ↔
    ∀ h : n < 32, Fresh (fun _ V => P () fun y => V y ∨ y = .r ⟨n, h⟩) e W := by
  by_cases h : n < 32
  · rw [setGpr_of_lt h]
    exact fresh_bind.trans ⟨fun hP _ => hP, fun hP => hP h⟩
  · rw [setGpr_none h]
    exact iff_of_true trivial fun h' => absurd h' h

@[simp] theorem fresh_setFprL : Fresh P (setFprL n e) W ↔
    ∀ h : n < 32, Fresh (fun _ V => P () fun y => V y ∨ y = .f ⟨n, h⟩) e W := by
  by_cases h : n < 32
  · rw [setFprL_of_lt h]
    exact fresh_bind.trans ⟨fun hP _ => hP, fun hP => hP h⟩
  · rw [setFprL_none h]
    exact iff_of_true trivial fun h' => absurd h' h

/-- The double is written when its operand has been read. -/
@[simp] theorem fresh_setFprD {e : Micro (Word × Word)} : Fresh (fun _ _ => True) (setFprD n e) W ↔
    (evenFloor n + 1 < 32 → Fresh (fun _ _ => True) e W) := by
  unfold setFprD
  split
  · rename_i h
    exact fresh_bind.trans ⟨fun hP _ => hP, fun hP => hP h⟩
  · rename_i h
    exact iff_of_true trivial fun h' => absurd h' h

@[simp] theorem fresh_hi : Fresh Q hi W ↔ ¬ W .hi ∧ ∀ v, Q v W := Iff.rfl

@[simp] theorem fresh_lo : Fresh Q lo W ↔ ¬ W .lo ∧ ∀ v, Q v W := Iff.rfl

@[simp] theorem fresh_fcc : Fresh Q fcc W ↔ ¬ W .fcc ∧ ∀ v, Q v W := Iff.rfl

@[simp] theorem fresh_setHi :
    Fresh P (setHi e) W ↔ Fresh (fun _ V => P () fun y => V y ∨ y = .hi) e W := fresh_bind

@[simp] theorem fresh_setLo :
    Fresh P (setLo e) W ↔ Fresh (fun _ V => P () fun y => V y ∨ y = .lo) e W := fresh_bind

@[simp] theorem fresh_setFcc :
    Fresh P (setFcc e) W ↔ Fresh (fun _ V => P () fun y => V y ∨ y = .fcc) e W := fresh_bind

@[simp] theorem fresh_cpc : Fresh Q cpc W ↔ ∀ v, Q v W := Iff.rfl

@[simp] theorem fresh_setNpc : Fresh P (setNpc v) W ↔ P () W := Iff.rfl

@[simp] theorem fresh_setTpc : Fresh P (setTpc v) W ↔ P () W := Iff.rfl

@[simp] theorem fresh_ifail : Fresh P (ifail msg) W := trivial

@[simp] theorem fresh_undefined {R : α → (Reg → Prop) → Prop} : Fresh R .undefined W := trivial

@[simp] theorem fresh_load {t : LoadKind} {addr : Word} :
    Fresh Q (.load t addr .ret) W ↔ ∀ v, Q v W := Iff.rfl

@[simp] theorem fresh_store {t : StoreKind} {addr v : Word} :
    Fresh P (.store t addr v (.ret ())) W ↔ P () W := Iff.rfl

end Accessors

/-! ### Instructions without auto-update -/

/-- `InstSRA`, as a function of its operand. -/
def arithmeticRight (v : Word) (shamt : ℕ) : Micro Word :=
  if signBit v then .ret (v.sshiftRight shamt) else cSar v shamt

/-- `GPR(BS)+GPR(RD)+4`, of the second word of a pair. -/
def rrAddrHigh (inst : Inst) : Micro Word := do return (← rrAddr inst) + 4

/-- The pair `HI`, `LO` set to the words of a product. -/
def setProduct (product : Word → Word → BitVec 64) (inst : Inst) : Micro Unit := do
  let op1 ← gpr inst.rs
  let op2 ← gpr inst.rt
  setHi (.ret ((product op1 op2 >>> 32).setWidth 32))
  setLo (.ret ((product op1 op2).setWidth 32))

end Safe

open Safe in
/-- The instruction without `INC_DEC` and without work in its result registers. -/
def Opcode.body (c : Engine) (inst : Inst) : Opcode → Micro Unit
  | .lb => setGpr inst.rt (do readSignedByte (← dispAddr inst))
  | .lbu => setGpr inst.rt (do readUnsignedByte (← dispAddr inst))
  | .lh => setGpr inst.rt (do readSignedHalf (← dispAddr inst))
  | .lhu => setGpr inst.rt (do readUnsignedHalf (← dispAddr inst))
  | .lw => setGpr inst.rt (do readWord (← dispAddr inst))
  | .l_s => setFprL inst.rt (do readWord (← dispAddr inst))
  | .sb => do writeByte (← gpr inst.rt) (← dispAddr inst)
  | .sh => do writeHalf (← gpr inst.rt) (← dispAddr inst)
  | .sw => do writeWord (← gpr inst.rt) (← dispAddr inst)
  | .s_s => do writeWord (← fprL inst.rt) (← dispAddr inst)
  | .dlw => do
    intalign inst.rt
    let tempBs ← gpr inst.rs
    setGpr (inst.rt ^^^ c.simSwapWords) (readWord (tempBs + inst.imm))
    setGpr ((inst.rt + 1) ^^^ c.simSwapWords) (readWord (tempBs + inst.imm + 4))
  | .l_d => do
    fpalign inst.rt
    setFprL (inst.rt ^^^ c.simSwapWords) (do readWord (← dispAddr inst))
    setFprL ((inst.rt + 1) ^^^ c.simSwapWords) (do readWord ((← dispAddr inst) + 4))
  | .dsw => do
    intalign inst.rt
    writeWord (← gpr (inst.rt ^^^ c.simSwapWords)) (← dispAddr inst)
    writeWord (← gpr ((inst.rt + 1) ^^^ c.simSwapWords)) ((← dispAddr inst) + 4)
  | .dsz => do
    writeWord (← gpr 0) (← dispAddr inst)
    writeWord (← gpr 0) ((← dispAddr inst) + 4)
  | .s_d => do
    fpalign inst.rt
    writeWord (← fprL inst.rt) (← dispAddr inst)
    writeWord (← fprL (inst.rt + 1)) ((← dispAddr inst) + 4)
  | .lb_rr => setGpr inst.rt (do readSignedByte (← rrAddr inst))
  | .lbu_rr => setGpr inst.rt (do readUnsignedByte (← rrAddr inst))
  | .lh_rr => setGpr inst.rt (do readSignedHalf (← rrAddr inst))
  | .lhu_rr => setGpr inst.rt (do readUnsignedHalf (← rrAddr inst))
  | .lw_rr => setGpr inst.rt (do readWord (← rrAddr inst))
  | .l_s_rr => setFprL inst.rt (do readWord (← rrAddr inst))
  | .sb_rr => do writeByte (← gpr inst.rt) (← rrAddr inst)
  | .sh_rr => do writeHalf (← gpr inst.rt) (← rrAddr inst)
  | .sw_rr => do writeWord (← gpr inst.rt) (← rrAddr inst)
  | .s_s_rr => do writeWord (← fprL inst.rt) (← rrAddr inst)
  | .dlw_rr => do
    intalign inst.rt
    let tempBs ← gpr inst.rs
    let tempRd ← gpr inst.rd
    setGpr (inst.rt ^^^ c.simSwapWords) (readWord (tempBs + tempRd))
    setGpr ((inst.rt + 1) ^^^ c.simSwapWords) (readWord (tempBs + tempRd + 4))
  | .l_d_rr => do
    fpalign inst.rt
    setFprL (inst.rt ^^^ c.simSwapWords) (do readWord (← rrAddr inst))
    setFprL ((inst.rt + 1) ^^^ c.simSwapWords) (do readWord ((← rrAddr inst) + 4))
  | .dsw_rr => do
    intalign inst.rt
    writeWord (← gpr (inst.rt ^^^ c.simSwapWords)) (← rrAddr inst)
    writeWord (← gpr ((inst.rt + 1) ^^^ c.simSwapWords)) ((← rrAddr inst) + 4)
  | .dsz_rr => do
    writeWord (← gpr 0) (← rrAddr inst)
    writeWord (← gpr 0) ((← rrAddr inst) + 4)
  | .s_d_rr => do
    fpalign inst.rt
    writeWord (← fprL (inst.rt ^^^ c.simSwapWords)) (← rrAddr inst)
    writeWord (← fprL ((inst.rt + 1) ^^^ c.simSwapWords)) ((← rrAddr inst) + 4)
  | .l_s_rr_r2 => setFprL inst.rt (do readWord (← rrAddrHigh inst))
  | .s_s_rr_r2 => do writeWord (← fprL inst.rt) (← rrAddrHigh inst)
  | .lw_rr_r2 => setGpr inst.rt (do readWord (← rrAddrHigh inst))
  | .sw_rr_r2 => do writeWord (← gpr inst.rt) (← rrAddrHigh inst)
  | .mult => setProduct (fun a b => a.signExtend 64 * b.signExtend 64) inst
  | .multu => setProduct (fun a b => a.setWidth 64 * b.setWidth 64) inst
  | .sra => setGpr inst.rd (do arithmeticRight (← gpr inst.rt) inst.shamt)
  | .srav =>
    setGpr inst.rd (do
      let shamt := ((← gpr inst.rs) &&& 0x1f#32).toNat
      arithmeticRight (← gpr inst.rt) shamt)
  | op => op.expr c inst

namespace Safe

variable {pf : Platform} {ld : Segments} {inst : Inst} {pc : Word} {x : Exec pf}

/-- What an instruction does if it reads its sources first. -/
def twoPhase (pf : Platform) (ld : Segments) (inst : Inst) (pc : Word) (op : Opcode)
    (x : Exec pf) : Except Stop (Exec pf) :=
  frozen pf ld inst pc x.arch.regs (op.body (engine pf) inst) x

/-! ### Auto-update with the mode 0 -/

variable {n : ℕ}

/-- A step of zero. -/
theorem run_stay (hn : n < 32) :
    run pf ld inst pc (setGpr n (do return (← gpr n) + (← .ret 0#32))) x = .ok x := by
  rw [run_eq_eval, eval_setGpr hn]
  simp only [Micro.bind_eq, Micro.pure_eq, eval_bind, eval_gpr hn, Outcome.ok_bind, eval_ret,
    BitVec.add_zero]
  exact congrArg Except.ok (put_self x _)

theorem run_incDec_zero {e : Micro Unit} {size : ℕ} (hs : inst.rs < 32) (hMode : inst.compOp = 0) :
    run pf ld inst pc (incDec inst e inst.rs size) x = run pf ld inst pc e x := by
  unfold incDec
  rw [hMode]
  refine run_bind.trans ?_
  have hFore : run pf ld inst pc
      (setGpr inst.rs (do return (← gpr inst.rs) + (← ssForeTab size 0))) x = .ok x := run_stay hs
  rw [hFore]
  refine run_bind.trans ?_
  cases run pf ld inst pc e x with
  | ok y => exact run_stay hs
  | error e => rfl

/-! ### Work in the result registers -/

theorem signBit_eq_msb (v : Word) : signBit v = v.msb := by
  rw [signBit_eq, BitVec.msb_eq_decide]

/-- The bit that is or'ed in is there already. -/
theorem sshiftRight_or (h : signBit v = true) (n : ℕ) :
    ((v.sshiftRight n).sshiftRight 1) ||| 0x80000000#32 = v.sshiftRight (n + 1) := by
  rw [signBit_eq_msb] at h
  rw [← BitVec.sshiftRight_add]
  apply BitVec.eq_of_getLsbD_eq
  intro i hi
  rw [BitVec.getLsbD_or]
  by_cases hTop : i = 31
  · have hMsb : (v.sshiftRight (n + 1)).getLsbD 31 = true := by
      have hBit := BitVec.msb_sshiftRight (x := v) (n := n + 1)
      rw [h] at hBit
      exact hBit
    rw [hTop, hMsb, Bool.true_or]
  · have hZero : (0x80000000#32).getLsbD i = false := by
      have hCases : ∀ j : Fin 32, j.val ≠ 31 → (0x80000000#32).getLsbD j.val = false := by decide
      exact hCases ⟨i, hi⟩ hTop
    rw [hZero, Bool.or_false]

theorem run_sraLoop {rd : ℕ} (hd : rd < 32) (h : signBit v = true) (n : ℕ) :
    ∀ k, run pf ld inst pc (sraLoop rd n) (x.put (.r ⟨rd, hd⟩) (v.sshiftRight k)) =
      .ok (x.put (.r ⟨rd, hd⟩) (v.sshiftRight (k + n))) := by
  induction n with
  | zero => intro k; rfl
  | succ n ih =>
    intro k
    refine run_bind.trans ?_
    rw [run_eq_eval, eval_setGpr hd]
    simp only [Micro.bind_eq, Micro.pure_eq, eval_bind, eval_gpr hd, Outcome.ok_bind, eval_ret,
      regs_put, sshiftRight_or h, Except.map]
    rw [put_put, ih (k + 1), Nat.add_right_comm, Nat.add_assoc]

/-- The shift of `InstSRA` and `InstSRAV`. -/
def shiftInto (inst : Inst) (n : ℕ) : Micro Unit := do
  if signBit (← gpr inst.rt) then
    setGpr inst.rd (gpr inst.rt)
    sraLoop inst.rd n
  else
    setGpr inst.rd (do cSar (← gpr inst.rt) n)

theorem run_shiftInto (n : ℕ) : run pf ld inst pc (shiftInto inst n) x =
    run pf ld inst pc (setGpr inst.rd (do arithmeticRight (← gpr inst.rt) n)) x := by
  by_cases hd : inst.rd < 32
  swap
  · by_cases ht : inst.rt < 32
    · rw [shiftInto, Micro.bind_eq, run_gpr ht]
      simp only [setGpr_none hd]
      split <;> rfl
    · rw [shiftInto, gpr_none ht]
      simp only [setGpr_none hd]
      rfl
  by_cases ht : inst.rt < 32
  swap
  · rw [shiftInto, gpr_none ht, run_eq_eval, run_eq_eval, eval_setGpr hd]
    rfl
  have hRight : run pf ld inst pc (setGpr inst.rd (do arithmeticRight (← gpr inst.rt) n)) x =
      ((eval pf ld inst pc (arithmeticRight (x.arch.regs (.r ⟨inst.rt, ht⟩)) n) x).map fun r =>
        ((), r.2.put (.r ⟨inst.rd, hd⟩) r.1)).map Prod.snd := by
    rw [run_eq_eval, eval_setGpr hd, Micro.bind_eq, eval_bind, eval_gpr ht]
    rfl
  rw [hRight, shiftInto, Micro.bind_eq, run_gpr ht]
  unfold arithmeticRight
  split
  · rename_i hSign
    refine run_bind.trans ?_
    rw [run_eq_eval, eval_setGpr hd, eval_gpr ht]
    have hLoop : run pf ld inst pc (sraLoop inst.rd n) (x.put _ _) = .ok (x.put _ _) :=
      run_sraLoop hd hSign n 0
    rw [BitVec.sshiftRight_zero, Nat.zero_add] at hLoop
    exact hLoop
  · rw [run_eq_eval, eval_setGpr hd, Micro.bind_eq, eval_bind, eval_gpr ht]
    rfl

variable {c : Engine}

theorem body_srav : Opcode.srav.body c inst = setGpr inst.rd (do
    let shamt := ((← gpr inst.rs) &&& 0x1f#32).toNat
    arithmeticRight (← gpr inst.rt) shamt) := rfl

theorem run_srav : run pf ld inst pc (instSRAV inst) x =
    run pf ld inst pc (Opcode.srav.body (engine pf) inst) x := by
  by_cases hs : inst.rs < 32
  swap
  · have hExpr : instSRAV inst = .undefined := by
      rw [instSRAV, gpr_none hs]
      rfl
    rw [hExpr, body_srav, gpr_none hs]
    by_cases hd : inst.rd < 32
    · rw [setGpr_of_lt hd]
      rfl
    · rw [setGpr_none hd]
  have hExpr : run pf ld inst pc (instSRAV inst) x = run pf ld inst pc
      (shiftInto inst (x.arch.regs (.r ⟨inst.rs, hs⟩) &&& 0x1f#32).toNat) x := run_gpr hs
  rw [hExpr, run_shiftInto, body_srav]
  by_cases hd : inst.rd < 32
  · rw [setGpr_of_lt hd, setGpr_of_lt hd, gpr_of_lt hs]
    rfl
  · rw [setGpr_none hd, setGpr_none hd]

/-! ### Arithmetic shifts -/

theorem toInt_sshiftRight_floor (v : Word) (n : ℕ) :
    (v.sshiftRight n).toInt = ⌊(v.toInt : ℚ) / 2 ^ n⌋ := by
  rw [BitVec.toInt_sshiftRight, Int.shiftRight_eq_div_pow]
  have hFloor := Rat.floor_intCast_div_natCast v.toInt (2 ^ n)
  push_cast at hFloor ⊢
  exact hFloor.symm

theorem eval_arithmeticRight (hn : n < 32) :
    eval pf ld inst pc (arithmeticRight v n) x = .ok (v.sshiftRight n, x) := by
  unfold arithmeticRight
  split
  · rfl
  · rw [cSar, if_pos hn]
    rfl

theorem run_shiftInto_ok (hd : inst.rd < 32) (ht : inst.rt < 32) (hn : n < 32) :
    run pf ld inst pc (shiftInto inst n) x = .ok (x.put (.r ⟨inst.rd, hd⟩)
      ((x.arch.regs (.r ⟨inst.rt, ht⟩)).sshiftRight n)) := by
  rw [run_shiftInto, run_ok, eval_setGpr hd, Micro.bind_eq, eval_bind, eval_gpr ht]
  change Except.map _ (eval pf ld inst pc (arithmeticRight _ n) x) = _
  rw [eval_arithmeticRight hn]
  rfl

/-- After `m` the register `rd` holds the operand `v`, as a signed number divided by `2 ^ n` and
rounded down, and every other register what it held. -/
def DividesInto (pf : Platform) (ld : Segments) (inst : Inst) (pc : Word) (x : Exec pf)
    (m : Micro Unit) (rd : Reg) (v : Word) (n : ℕ) : Prop :=
  ∃ y, run pf ld inst pc m x = .ok y ∧ (y.arch.regs rd).toInt = ⌊(v.toInt : ℚ) / 2 ^ n⌋ ∧
    ∀ r, r ≠ rd → y.arch.regs r = x.arch.regs r

theorem dividesInto_shiftInto (hd : inst.rd < 32) (ht : inst.rt < 32) (hn : n < 32) :
    DividesInto pf ld inst pc x (shiftInto inst n) (.r ⟨inst.rd, hd⟩)
      (x.arch.regs (.r ⟨inst.rt, ht⟩)) n := by
  refine ⟨_, run_shiftInto_ok hd ht hn, ?_, fun r hr => regs_put_of_ne hr _⟩
  rw [regs_put]
  exact toInt_sshiftRight_floor _ n

/-- `InstSRA` and `InstSRAV` divide by a power of two and round down, whichever of their
registers are the same. -/
theorem arithmetic_shifts (pf : Platform) (ld : Segments) (inst : Inst) (pc : Word) (x : Exec pf)
    (hd : inst.rd < 32) (ht : inst.rt < 32) (hs : inst.rs < 32) :
    (inst.shamt < 32 → DividesInto pf ld inst pc x (instSRA inst) (.r ⟨inst.rd, hd⟩)
      (x.arch.regs (.r ⟨inst.rt, ht⟩)) inst.shamt) ∧
    DividesInto pf ld inst pc x (instSRAV inst) (.r ⟨inst.rd, hd⟩)
      (x.arch.regs (.r ⟨inst.rt, ht⟩)) ((x.arch.regs (.r ⟨inst.rs, hs⟩)).toNat % 32) := by
  refine ⟨fun hn => dividesInto_shiftInto hd ht hn, ?_⟩
  have hLow : (x.arch.regs (.r ⟨inst.rs, hs⟩) &&& 0x1f#32).toNat =
      (x.arch.regs (.r ⟨inst.rs, hs⟩)).toNat % 32 := by
    rw [BitVec.toNat_and]
    exact Nat.and_two_pow_sub_one_eq_mod _ 5
  have hBody : run pf ld inst pc (instSRAV inst) x = run pf ld inst pc
      (shiftInto inst ((x.arch.regs (.r ⟨inst.rs, hs⟩)).toNat % 32)) x := by
    rw [← hLow]
    exact run_gpr hs
  obtain ⟨y, hRun, hy⟩ := dividesInto_shiftInto hd ht (Nat.mod_lt _ (by decide))
  exact ⟨y, hBody.trans hRun, hy⟩

/-- `sra $1,$1,3` of `-7`, in place. -/
theorem arithmetic_shifts_inPlace :
    DividesInto Platform.bare ⟨0, 0⟩ ⟨0x59#32, 0x01010103#32⟩ 0 (Exec.ofRegs (-7) 0)
      (instSRA ⟨0x59#32, 0x01010103#32⟩) (.r 1) (-7) 3 :=
  (arithmetic_shifts Platform.bare ⟨0, 0⟩ ⟨0x59#32, 0x01010103#32⟩ 0 (Exec.ofRegs (-7) 0)
    (by decide) (by decide) (by decide)).1 (by decide)

theorem words_of_append (h l : Word) :
    ((h ++ l) >>> 32).setWidth 32 = h ∧ (h ++ l).setWidth 32 = l := by
  have hNat := toNat_append h l
  have hlt := h.isLt
  have llt := l.isLt
  unfold pairNat at hNat
  constructor <;> apply BitVec.eq_of_toNat_eq
  · rw [BitVec.toNat_setWidth, BitVec.toNat_ushiftRight, hNat, Nat.shiftRight_eq_div_pow]
    omega
  · rw [BitVec.toNat_setWidth, hNat]
    omega

theorem run_setProduct (product : Word → Word → BitVec 64) (hs : inst.rs < 32) (ht : inst.rt < 32)
    {h l : Word} (hPair : h ++ l =
      product (x.arch.regs (.r ⟨inst.rs, hs⟩)) (x.arch.regs (.r ⟨inst.rt, ht⟩))) :
    run pf ld inst pc (setProduct product inst) x = .ok (x.pair h l) := by
  unfold setProduct
  rw [Micro.bind_eq, run_gpr hs, Micro.bind_eq, run_gpr ht, ← hPair, (words_of_append h l).1,
    (words_of_append h l).2]
  rfl

theorem run_mult : run pf ld inst pc (instMULT inst) x =
    run pf ld inst pc (setProduct (fun a b => a.signExtend 64 * b.signExtend 64) inst) x := by
  by_cases hs : inst.rs < 32
  swap
  · rw [instMULT, setProduct, gpr_none hs]
    rfl
  by_cases ht : inst.rt < 32
  swap
  · rw [instMULT, setProduct, gpr_none ht, gpr, dif_pos hs]
    rfl
  obtain ⟨h, l, hRun, hNat⟩ := @run_instMULT pf ld inst pc x hs ht
  rw [hRun, run_setProduct _ hs ht]
  apply BitVec.eq_of_toInt_eq
  rw [toInt_of_signedProduct hNat, BitVec.toInt_mul, BitVec.toInt_signExtend_of_le (by decide),
    BitVec.toInt_signExtend_of_le (by decide)]
  have hBound := Nat.mul_le_mul (natAbs_toInt_le (x.arch.regs (.r ⟨inst.rs, hs⟩)))
    (natAbs_toInt_le (x.arch.regs (.r ⟨inst.rt, ht⟩)))
  rw [← Int.natAbs_mul] at hBound
  exact (Int.bmod_eq_of_le (by omega) (by omega)).symm

/-- `InstMULTU` reads `RT` only for the bits of `RS`. -/
theorem run_multu (ht : inst.rt < 32) : run pf ld inst pc (instMULTU inst) x =
    run pf ld inst pc (setProduct (fun a b => a.setWidth 64 * b.setWidth 64) inst) x := by
  by_cases hs : inst.rs < 32
  swap
  · rw [instMULTU, setProduct, gpr_none hs]
    rfl
  obtain ⟨h, l, hRun, hNat⟩ := @run_instMULTU pf ld inst pc x hs ht
  rw [hRun, run_setProduct _ hs ht]
  apply BitVec.eq_of_toNat_eq
  rw [toNat_append, hNat, BitVec.toNat_mul, BitVec.toNat_setWidth_of_le (by decide),
    BitVec.toNat_setWidth_of_le (by decide), Nat.mod_eq_of_lt]
  rw [← hNat]
  exact pairNat_lt h l

/-! ### Every instruction -/

section Every

variable {op : Opcode}

theorem run_body (hs : op.has F.mem → inst.rs < 32) (ht : op = .multu → inst.rt < 32)
    (hMode : op.has F.mem → inst.compOp = 0) :
    run pf ld inst pc (op.expr (engine pf) inst) x =
      run pf ld inst pc (op.body (engine pf) inst) x := by
  cases op
  case mult => exact run_mult
  case multu => exact run_multu (ht rfl)
  case sra => exact run_shiftInto inst.shamt
  case srav => exact run_srav
  all_goals first
    | rfl
    | exact run_incDec_zero (hs (by decide)) (hMode (by decide))

section Checks

variable {P : Unit → (Reg → Prop) → Prop} {W : Reg → Prop}

/-- A check that stops the instruction. -/
theorem fresh_check [Decidable p] :
    Fresh P (if p then ifail msg else .ret ()) W ↔ (¬ p → P () W) := by
  split
  · rename_i h
    exact iff_of_true trivial fun h' => absurd h h'
  · rename_i h
    exact ⟨fun hP _ => hP, fun hP => hP h⟩

@[simp] theorem fresh_intalign : Fresh P (intalign n) W ↔ (¬ n % 2 = 1 → P () W) :=
  fresh_check

@[simp] theorem fresh_fpalign : Fresh P (fpalign n) W ↔ (¬ n % 2 = 1 → P () W) :=
  fresh_check

@[simp] theorem fresh_talign :
    Fresh P (talign v) W ↔ (¬ v &&& 0x7#32 ≠ 0 → P () W) := fresh_check

@[simp] theorem fresh_div0 {zero : Bool} : Fresh P (div0 zero) W ↔ (¬ zero = true → P () W) :=
  fresh_check

variable {v w : Word}

@[simp] theorem fresh_checkOver (h : P () W) : Fresh P (checkOver v w) W := by
  simp [checkOver, h]

@[simp] theorem fresh_checkUnder (h : P () W) : Fresh P (checkUnder v w) W := by
  simp [checkUnder, h]

end Checks

theorem fresh_memory (hMem : op.has F.mem) :
    Fresh (fun _ _ => True) (op.body (engine pf) inst) fun _ => False := by
  cases op
  all_goals first
    | exact absurd hMem (by decide)
    | simp [Opcode.body, Opcode.expr, dispAddr, rrAddr, rrAddrHigh, readSignedByte,
        readUnsignedByte, readSignedHalf, readUnsignedHalf, readWord, writeByte, writeHalf,
        writeWord]

theorem fresh_body (hTrap : ¬ op.has F.trap) (hOp : op ≠ .jalr) :
    Fresh (fun _ _ => True) (op.body (engine pf) inst) fun _ => False := by
  by_cases hMem : op.has F.mem
  · exact fresh_memory hMem
  cases op
  case jalr => exact absurd rfl hOp
  case syscall => exact absurd rfl hTrap
  case mult | multu => simp [Opcode.body, setProduct]
  case sra | srav => simp [Opcode.body, arithmeticRight, cSar]
  all_goals first
    | exact absurd rfl hMem
    | simp [Opcode.body, Opcode.expr, aluRR, aluRI, fpuRRS, fpuRRD, fpuR, fpuCmp, fprD, branch, cShl, cShr,
        engine, Engine.default, cDiv, cMod, cDivu, cModu]

end Every

/-! ### The jump that loses its target -/

/-- The link register is the target register, and the link another address. -/
def LosesTarget (inst : Inst) (pc : Word) (g : Reg → Word) : Prop :=
  inst.rd = inst.rs ∧ ∃ h : inst.rs < 32,
    g (.r ⟨inst.rs, h⟩) &&& 0x7#32 = 0 ∧ g (.r ⟨inst.rs, h⟩) ≠ pc + 8

/-- What `JALR` does with its target; it links before it reads the register again. -/
def jalrTo (inst : Inst) (targ : Word) : Micro Unit := do
  talign targ
  setGpr inst.rd (do return (← cpc) + 8)
  setTpc (← gpr inst.rs)
  setNpc (← gpr inst.rs)

section Jalr

variable (hs : inst.rs < 32)

theorem run_jalr : run pf ld inst pc (Opcode.jalr.expr (engine pf) inst) x =
    run pf ld inst pc (jalrTo inst (x.arch.regs (.r ⟨inst.rs, hs⟩))) x := run_gpr hs

theorem body_jalr :
    Opcode.jalr.body c inst = (gpr inst.rs).bind (jalrTo inst) := rfl

theorem twoPhase_jalr : twoPhase pf ld inst pc .jalr x =
    frozen pf ld inst pc x.arch.regs (jalrTo inst (x.arch.regs (.r ⟨inst.rs, hs⟩))) x := by
  rw [twoPhase, body_jalr, gpr_of_lt hs]
  rfl

theorem fresh_jalr (h : ∀ _ : inst.rs < 32, inst.rd ≠ inst.rs) :
    Fresh (fun _ _ => True) (Opcode.jalr.body c inst) fun _ => False := by
  have hReg : ∀ (h₁ : inst.rs < 32) (h₂ : inst.rd < 32), Reg.r ⟨inst.rs, h₁⟩ ≠ .r ⟨inst.rd, h₂⟩ := by
    intro h₁ h₂ hEq
    exact h h₁ (congrArg Fin.val (Reg.r.inj hEq)).symm
  simp [body_jalr, jalrTo, hReg]

variable (hSame : inst.rd = inst.rs)
include hSame

variable {targ : Word}

/-- The jump goes to the link. -/
theorem run_jalrTo (hAlign : targ &&& 0x7#32 = 0) :
    run pf ld inst pc (jalrTo inst targ) x =
      .ok { x.put (.r ⟨inst.rs, hs⟩) (pc + 8) with nextPC := pc + 8 } := by
  have hNext := regs_put x (.r ⟨inst.rs, hs⟩) (pc + 8)
  rw [jalrTo, talign, if_neg (not_not_intro hAlign), hSame, gpr_of_lt hs, setGpr_of_lt hs]
  exact congrArg
    (fun next => Except.ok { x.put (.r ⟨inst.rs, hs⟩) (pc + 8) with nextPC := next }) hNext

theorem frozen_jalrTo (hAlign : targ &&& 0x7#32 = 0) :
    frozen pf ld inst pc g (jalrTo inst targ) x =
      .ok { x.put (.r ⟨inst.rs, hs⟩) (pc + 8) with nextPC := g (.r ⟨inst.rs, hs⟩) } := by
  rw [jalrTo, talign, if_neg (not_not_intro hAlign), hSame, gpr_of_lt hs, setGpr_of_lt hs]
  rfl

end Jalr

theorem jalr_iff : run pf ld inst pc (Opcode.jalr.expr (engine pf) inst) x =
    twoPhase pf ld inst pc .jalr x ↔ ¬ LosesTarget inst pc x.arch.regs := by
  by_cases hFresh : ∀ _ : inst.rs < 32, inst.rd ≠ inst.rs
  · refine iff_of_true ?_ fun h => hFresh h.2.1 h.1
    have hBody : Fresh (fun _ _ => True) (Opcode.jalr.body (engine pf) inst) _ := fresh_jalr hFresh
    exact frozen_eq hBody fun _ _ => rfl
  obtain ⟨hs, hSame⟩ := not_forall.mp hFresh
  rw [run_jalr hs, twoPhase_jalr hs]
  rw [not_not] at hSame
  by_cases hAlign : x.arch.regs (.r ⟨inst.rs, hs⟩) &&& 0x7#32 = 0
  · rw [run_jalrTo hs hSame hAlign, frozen_jalrTo hs hSame hAlign]
    constructor
    · intro h hLost
      exact hLost.2.2.2 (congrArg Exec.nextPC (Except.ok.inj h)).symm
    · intro h
      have hNext : x.arch.regs (.r ⟨inst.rs, hs⟩) = pc + 8 :=
        not_not.mp fun hNe => h ⟨hSame, hs, hAlign, hNe⟩
      rw [hNext]
  · refine iff_of_true ?_ fun h => hAlign h.2.2.1
    rw [jalrTo, talign, if_pos hAlign]
    rfl

/-- An instruction has the effect of reading its sources first, unless it is a `JALR` that links
into its target register. -/
theorem twoPhase_iff (pf : Platform) (ld : Segments) (inst : Inst) (pc : Word) (op : Opcode)
    (x : Exec pf) (hTrap : ¬ op.has F.trap) (hMode : op.has F.mem → inst.compOp = 0)
    (hs : op.has F.mem → inst.rs < 32) (ht : op = .multu → inst.rt < 32) :
    run pf ld inst pc (op.expr (engine pf) inst) x = twoPhase pf ld inst pc op x ↔
      ¬ (op = .jalr ∧ LosesTarget inst pc x.arch.regs) := by
  by_cases hOp : op = .jalr
  · rw [hOp, jalr_iff]
    simp
  · refine iff_of_true ?_ fun h => hOp h.1
    rw [run_body hs ht hMode]
    exact frozen_eq (fresh_body hTrap hOp) fun _ _ => rfl

/-- `addu $1,$1,$1` reads both sources before it writes. -/
theorem twoPhase_addu :
    run Platform.bare ⟨0, 0⟩ ⟨0x36#32, 0x01010100#32⟩ 0 (Opcode.addu.expr (engine Platform.bare)
      ⟨0x36#32, 0x01010100#32⟩) (Exec.ofRegs 5 7) =
    twoPhase Platform.bare ⟨0, 0⟩ ⟨0x36#32, 0x01010100#32⟩ 0 .addu (Exec.ofRegs 5 7) :=
  (twoPhase_iff Platform.bare ⟨0, 0⟩ ⟨0x36#32, 0x01010100#32⟩ 0 .addu (Exec.ofRegs 5 7)
    (by decide) (by decide) (by decide) (by decide)).mpr fun h => by cases h.1

/-- `jalr $1,$1`. -/
def selfLink : Inst := ⟨0x05#32, 0x01000100#32⟩

/-- From `$1 = 0x400100`, at `0x400000`, the jump goes to `0x400008`. -/
theorem not_twoPhase_selfLink : selfLink.decode = some .jalr ∧
    (run Platform.bare ⟨0, 0⟩ selfLink 0x400000#32 (Opcode.jalr.expr (engine Platform.bare) selfLink)
      (Exec.ofRegs 0x400100#32 0)).toOption.map (·.nextPC) = some 0x400008#32 ∧
    (twoPhase Platform.bare ⟨0, 0⟩ selfLink 0x400000#32 .jalr
      (Exec.ofRegs 0x400100#32 0)).toOption.map (·.nextPC) = some 0x400100#32 := by
  decide +kernel

end Safe

end SimpleScalar

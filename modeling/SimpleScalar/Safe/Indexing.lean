import SimpleScalar.Safe.Values
import SimpleScalar.Arithmetic

/-!
# Register specifiers and table modes

The register fields of an instruction word have eight bits and `SS_COMP_OP` has eight, but the
register files have 32 entries and the auto-update tables five columns.  No accessor of `sim-safe`
checks an index.

`Opcode.accesses` lists what an instruction indexes, in the order of its expression, with the
faults it may declare in between.

* `indexesWell_iff`: an instruction stays inside the arrays exactly if every index before its
  first fault is small enough.

In C a shift by 32 or more and the quotient of the smallest integer by -1 are undefined as well.
They index nothing, and are given a value here (`Opcode.exprTotal`).
-/

namespace SimpleScalar

open Outcome

/-- Division with a value for every pair of operands. -/
def Engine.total (c : Engine) : Engine :=
  { c with
    idiv := fun a b => .ret (a.sdiv b)
    imod := fun a b => .ret (a.srem b)
    idivu := fun a b => .ret (a / b)
    imodu := fun a b => .ret (a % b) }

/-- `EXPR` of the instruction, with a value for every shift and every quotient. -/
def Opcode.exprTotal (c : Engine) (inst : Inst) : Opcode → Micro Unit
  | .sll => setGpr inst.rd (do return (← gpr inst.rt) <<< inst.shamt)
  | .srl => setGpr inst.rd (do return (← gpr inst.rt) >>> inst.shamt)
  | .sra => do
    if signBit (← gpr inst.rt) then
      setGpr inst.rd (gpr inst.rt)
      sraLoop inst.rd inst.shamt
    else
      setGpr inst.rd (do return (← gpr inst.rt).sshiftRight inst.shamt)
  | op => op.expr c.total inst

/-! ### The accesses of an instruction -/

/-- One step of an expression, as far as indexing goes. -/
inductive Access where
  /-- an entry of `regs_R` or `regs_F` -/
  | reg (n : ℕ)
  /-- a column of `ss_fore_tab` and `ss_aft_tab` -/
  | mode (n : ℕ)
  /-- a check that ends the instruction if it fails -/
  | fault (failed : Bool)

/-- All indices up to the first fault are those of an entry. -/
def InBounds : List Access → Prop
  | [] => True
  | .reg n :: rest => n < 32 ∧ InBounds rest
  | .mode n :: rest => n < 5 ∧ InBounds rest
  | .fault failed :: rest => failed = true ∨ InBounds rest

/-- `regs_F.d[n >> 1]`. -/
def fprPairOf (g : Reg → Word) (n : ℕ) : Word × Word :=
  (fprOf g (evenFloor n), fprOf g (evenFloor n + 1))

def overflows (x y : Word) : Bool :=
  (0 < x.toInt ∧ 0 < y.toInt ∧ 0x7fffffff - x.toInt < y.toInt) ∨
    (x.toInt < 0 ∧ y.toInt < 0 ∧ -0x7fffffff - x.toInt > y.toInt)

def underflows (x y : Word) : Bool :=
  (0 < x.toInt ∧ y.toInt < 0 ∧ 0x7fffffff + y.toInt < x.toInt) ∨
    (x.toInt < 0 ∧ 0 < y.toInt ∧ -0x7fffffff + y.toInt > x.toInt)

/-- `mem_valid` refuses a word. -/
def unreadable (ld : Segments) (addr : Word) : Bool :=
  !(memAligned addr 4 && memPermitted ld .read addr)

/-- `INTALIGN` and `FPALIGN`. -/
def odd (n : ℕ) : Access := .fault (n % 2 = 1)

namespace Inst

/-- A load or store with a displacement, or with an index register. -/
def dispAccesses (inst : Inst) (data : List Access) : List Access :=
  .reg inst.rs :: .mode inst.compOp :: data

def rrAccesses (inst : Inst) (data : List Access) : List Access :=
  .reg inst.rs :: .mode inst.compOp :: (data ++ [.reg inst.rd])

def oneData (inst : Inst) : List Access := [.reg inst.rt]

def twoData (inst : Inst) : List Access := [odd inst.rt, .reg inst.rt, .reg (inst.rt + 1)]

def fpuAccesses (inst : Inst) : List Access :=
  [odd inst.rd, odd inst.rs, odd inst.rt, .reg inst.rd, .reg inst.rs, .reg inst.rt]

end Inst

/-- What the instruction indexes in registers `g`, and the faults it may declare. -/
def Opcode.accesses (ld : Segments) (fpu : Fpu) (inst : Inst) (g : Reg → Word) : Opcode → List Access
  | .op_na | .nop | .jump | .bc1f | .bc1t | .syscall | .break_ | .cfc1 | .ctc1 => []
  | .jal => [.reg 31]
  | .jr => [.reg inst.rs]
  | .jalr => [.reg inst.rs, .fault (gprOf g inst.rs &&& 0x7#32 ≠ 0), .reg inst.rd]
  | .beq | .bne => [.reg inst.rs, .reg inst.rt]
  | .blez | .bgtz | .bltz | .bgez => [.reg inst.rs]
  | .lb | .lbu | .lh | .lhu | .lw | .l_s | .sb | .sh | .sw | .s_s => inst.dispAccesses inst.oneData
  | .dlw | .l_d | .dsw | .s_d => inst.dispAccesses inst.twoData
  | .dsz => inst.dispAccesses []
  -- the word is read before the register
  | .lwl | .swl =>
    [.reg inst.rs, .fault (unreadable ld (wlBase (gprOf g inst.rs + inst.imm))), .reg inst.rt]
  | .lwr | .swr =>
    [.reg inst.rs, .fault (unreadable ld (wrBase (gprOf g inst.rs + inst.imm))), .reg inst.rt]
  | .lb_rr | .lbu_rr | .lh_rr | .lhu_rr | .lw_rr | .l_s_rr | .sb_rr | .sh_rr | .sw_rr | .s_s_rr
  | .l_s_rr_r2 | .s_s_rr_r2 | .lw_rr_r2 | .sw_rr_r2 => inst.rrAccesses inst.oneData
  | .dlw_rr | .l_d_rr | .dsw_rr | .s_d_rr => inst.rrAccesses inst.twoData
  | .dsz_rr => inst.rrAccesses []
  | .add =>
    [.reg inst.rs, .reg inst.rt, .fault (overflows (gprOf g inst.rs) (gprOf g inst.rt)),
      .reg inst.rd]
  | .addi => [.reg inst.rs, .fault (overflows (gprOf g inst.rs) inst.imm), .reg inst.rt]
  | .sub =>
    [.reg inst.rs, .reg inst.rt, .fault (underflows (gprOf g inst.rs) (gprOf g inst.rt)),
      .reg inst.rd]
  | .addu | .subu | .and_ | .or | .xor | .nor | .slt | .sltu | .sllv | .srlv | .srav =>
    [.reg inst.rd, .reg inst.rs, .reg inst.rt]
  | .addiu | .andi | .ori | .xori | .slti | .sltiu => [.reg inst.rt, .reg inst.rs]
  | .mult => [.reg inst.rs, .reg inst.rt]
  -- `InstMULTU` reads the second operand for the ones of the first
  | .multu => .reg inst.rs :: if gprOf g inst.rs = 0 then [] else [.reg inst.rt]
  | .div | .divu => [.reg inst.rt, .fault (gprOf g inst.rt = 0), .reg inst.rs]
  | .mfhi | .mflo => [.reg inst.rd]
  | .mthi | .mtlo => [.reg inst.rs]
  | .sll | .srl | .sra => [.reg inst.rd, .reg inst.rt]
  | .fadd_s | .fadd_d | .fsub_s | .fsub_d | .fmul_s | .fmul_d => inst.fpuAccesses
  | .fdiv_s =>
    [odd inst.rd, odd inst.rs, odd inst.rt, .reg inst.rt, .fault (fpu.isZeroS (fprOf g inst.rt)),
      .reg inst.rd, .reg inst.rs]
  | .fdiv_d =>
    [odd inst.rd, odd inst.rs, odd inst.rt, .reg inst.rt,
      .fault (fpu.isZeroD (fprPairOf g inst.rt)), .reg inst.rd, .reg inst.rs]
  | .fabs_s | .fabs_d | .fmov_s | .fmov_d | .fneg_s | .fneg_d | .cvt_s_d | .cvt_s_w | .cvt_d_s
  | .cvt_d_w | .cvt_w_s | .cvt_w_d | .fsqrt_s | .fsqrt_d =>
    [odd inst.rd, odd inst.rs, .reg inst.rd, .reg inst.rs]
  | .c_eq_s | .c_eq_d | .c_lt_s | .c_lt_d | .c_le_s | .c_le_d =>
    [odd inst.rs, odd inst.rt, .reg inst.rs, .reg inst.rt]
  | .lui => [.reg inst.rt]
  | .mfc1 => [.reg inst.rt, .reg inst.rs]
  | .mtc1 => [.reg inst.rs, .reg inst.rt]
  | .dmfc1 =>
    [odd inst.rt, odd inst.rs, .reg inst.rt, .reg inst.rs, .reg (inst.rt + 1), .reg (inst.rs + 1)]
  | .dmtc1 =>
    [odd inst.rs, odd inst.rt, .reg inst.rs, .reg inst.rt, .reg (inst.rs + 1), .reg (inst.rt + 1)]

namespace Safe

variable {pf : Platform} {ld : Segments} {inst : Inst} {pc : Word} {x : Exec pf} {α β : Type}

/-! ### Runs without a bad index -/

/-- The value and the state satisfy `Q`, or the expression has stopped for a defined reason. -/
def Avoids (ld : Segments) (inst : Inst) (pc : Word) (Q : α → Exec pf → Prop) (m : Micro α)
    (x : Exec pf) : Prop :=
  Meets (eval pf ld inst pc m x) (fun r => Q r.1 r.2) (· ≠ .undefined)

variable {p : Prop} {m m' : Micro α}

section Rules

variable {Q : α → Exec pf → Prop} {m : Micro α}

theorem avoids_def : Avoids ld inst pc Q m x ↔
    Meets (eval pf ld inst pc m x) (fun r => Q r.1 r.2) (· ≠ .undefined) := Iff.rfl

@[simp] theorem avoids_ret {a : α} : Avoids ld inst pc Q (.ret a) x ↔ Q a x := Iff.rfl

@[simp] theorem avoids_bind {m : Micro β} {f : β → Micro α} :
    Avoids ld inst pc Q (m.bind f) x ↔
      Avoids ld inst pc (fun b y => Avoids ld inst pc Q (f b) y) m x := by
  rw [avoids_def, eval_bind]
  exact meets_bind

@[simp] theorem avoids_ite [Decidable p] :
    Avoids ld inst pc Q (if p then m else m') x ↔
      if p then Avoids ld inst pc Q m x else Avoids ld inst pc Q m' x := by
  split <;> exact Iff.rfl

variable {R : α → Exec pf → Prop}

theorem Avoids.mono (h : Avoids ld inst pc Q m x)
    (hQR : ∀ a y, Q a y → R a y) : Avoids ld inst pc R m x :=
  Meets.mono h (fun r => hQR r.1 r.2) fun _ => id

theorem avoids_congr (hQR : ∀ a y, Q a y ↔ R a y) :
    Avoids ld inst pc Q m x ↔ Avoids ld inst pc R m x :=
  ⟨fun h => h.mono fun a y => (hQR a y).mp, fun h => h.mono fun a y => (hQR a y).mpr⟩

@[simp] theorem avoids_undefined : ¬ Avoids ld inst pc Q .undefined x := fun h => h rfl

@[simp] theorem avoids_ifail {Q : Unit → Exec pf → Prop} {msg : String} :
    Avoids ld inst pc Q (ifail msg) x := by
  intro h
  cases h

end Rules

/-! ### Accessors -/

variable {v : Word}

section Accessors

variable {n : ℕ} {Q : Word → Exec pf → Prop} {P : Unit → Exec pf → Prop} {e : Micro Word}

def Exec.putR (x : Exec pf) (n : ℕ) (v : Word) : Exec pf :=
  if h : n < 32 then x.put (.r ⟨n, h⟩) v else x

def Exec.putF (x : Exec pf) (n : ℕ) (v : Word) : Exec pf :=
  if h : n < 32 then x.put (.f ⟨n, h⟩) v else x

@[simp] theorem avoids_gpr :
    Avoids ld inst pc Q (gpr n) x ↔ n < 32 ∧ Q (gprOf x.arch.regs n) x := by
  by_cases hn : n < 32
  · simp [avoids_def, eval_gpr hn, gprOf, hn]
  · simp [gpr_none hn, hn]

@[simp] theorem avoids_fprL :
    Avoids ld inst pc Q (fprL n) x ↔ n < 32 ∧ Q (fprOf x.arch.regs n) x := by
  by_cases hn : n < 32
  · simp [avoids_def, eval_fprL hn, fprOf, hn]
  · simp [fprL_none hn, hn]

@[simp] theorem avoids_setGpr : Avoids ld inst pc P (setGpr n e) x ↔
    n < 32 ∧ Avoids ld inst pc (fun v y => P () (y.putR n v)) e x := by
  by_cases hn : n < 32
  · simp [avoids_def, eval_setGpr hn, meets_map, Exec.putR, hn]
  · simp [setGpr_none hn, hn]

@[simp] theorem avoids_setFprL : Avoids ld inst pc P (setFprL n e) x ↔
    n < 32 ∧ Avoids ld inst pc (fun v y => P () (y.putF n v)) e x := by
  by_cases hn : n < 32
  · simp [avoids_def, eval_setFprL hn, meets_map, Exec.putF, hn]
  · simp [setFprL_none hn, hn]

theorem evenFloor_lt : evenFloor n < 32 ∧ evenFloor n + 1 < 32 ↔ n < 32 := by
  unfold evenFloor
  omega

@[simp] theorem avoids_fprD {Q : Word × Word → Exec pf → Prop} :
    Avoids ld inst pc Q (fprD n) x ↔ n < 32 ∧ Q (fprPairOf x.arch.regs n) x := by
  simp only [fprD, Micro.bind_eq, Micro.pure_eq, avoids_bind, avoids_fprL, avoids_ret, ← and_assoc,
    evenFloor_lt]
  exact Iff.rfl

@[simp] theorem avoids_setFprD {e : Micro (Word × Word)} : Avoids ld inst pc P (setFprD n e) x ↔
    n < 32 ∧ Avoids ld inst pc
      (fun v y => P () ((y.putF (evenFloor n) v.1).putF (evenFloor n + 1) v.2)) e x := by
  by_cases hn : n < 32
  · obtain ⟨h₀, h₁⟩ := evenFloor_lt.mpr hn
    rw [setFprD, dif_pos h₁]
    simp only [hn, true_and, Exec.putF, dif_pos h₀, dif_pos h₁]
    exact avoids_bind
  · have h₁ : ¬ evenFloor n + 1 < 32 := fun h => hn (evenFloor_lt.mp ⟨by omega, h⟩)
    simp [setFprD, hn, h₁]

@[simp] theorem avoids_hi : Avoids ld inst pc Q hi x ↔ Q (x.arch.regs .hi) x := Iff.rfl

@[simp] theorem avoids_lo : Avoids ld inst pc Q lo x ↔ Q (x.arch.regs .lo) x := Iff.rfl

@[simp] theorem avoids_fcc : Avoids ld inst pc Q fcc x ↔ Q (x.arch.regs .fcc) x := Iff.rfl

@[simp] theorem avoids_setHi : Avoids ld inst pc P (setHi e) x ↔
    Avoids ld inst pc (fun v y => P () (y.put .hi v)) e x := avoids_bind

@[simp] theorem avoids_setLo : Avoids ld inst pc P (setLo e) x ↔
    Avoids ld inst pc (fun v y => P () (y.put .lo v)) e x := avoids_bind

@[simp] theorem avoids_setFcc : Avoids ld inst pc P (setFcc e) x ↔
    Avoids ld inst pc (fun v y => P () (y.put .fcc v)) e x := avoids_bind

@[simp] theorem avoids_cpc : Avoids ld inst pc Q cpc x ↔ Q pc x := Iff.rfl

@[simp] theorem avoids_setNpc :
    Avoids ld inst pc P (setNpc v) x ↔ P () { x with nextPC := v } := Iff.rfl

@[simp] theorem avoids_setTpc : Avoids ld inst pc P (setTpc v) x ↔ P () x := Iff.rfl

end Accessors

/-! ### Memory and system calls

They stop for defined reasons only. -/

variable {size : ℕ}

variable {addr : Word}

theorem memValid_ne_undefined {cmd : MemCmd} :
    Meets (memValid ld cmd addr size) (fun _ => True) (· ≠ .undefined) := by
  unfold memValid
  split
  · nofun
  · split
    · nofun
    · trivial

@[simp] theorem avoids_load {t : LoadKind} :
    Avoids ld inst pc (fun _ _ => True) (.load t addr .ret) x := by
  rw [avoids_def, eval_load]
  exact memValid_ne_undefined.bind fun _ _ => trivial

variable {B : Prop}

theorem avoids_readWord :
    Avoids ld inst pc (fun _ _ => B) (readWord addr) x ↔ unreadable ld addr = true ∨ B := by
  unfold readWord unreadable
  rw [avoids_def, eval_load, meets_bind]
  unfold memValid
  cases hAlign : memAligned addr 4 <;> cases hPermit : memPermitted ld .read addr <;>
    simp [LoadKind.size, hAlign, eval_ret]

@[simp] theorem avoids_store {t : StoreKind} {addr v : Word} :
    Avoids ld inst pc (fun _ _ => True) (.store t addr v (.ret ())) x := by
  rw [avoids_def, eval_store]
  exact memValid_ne_undefined.bind fun _ _ => trivial

theorem applyWrites_ne_undefined {ws : List (Word × List Byte)} : ∀ {m : Mem},
    Meets (applyWrites ld ws m) (fun _ => True) (· ≠ .undefined) := by
  induction ws with
  | nil => intro m; trivial
  | cons w ws ih =>
    intro m
    refine Meets.bind (Q := fun _ => True) ?_ fun _ _ => ih
    unfold memAccess
    split
    · nofun
    · split
      · nofun
      · trivial

theorem avoids_syscall : Avoids ld inst pc (fun _ _ => True) (.syscall (.ret ())) x := by
  rw [avoids_def, eval_syscall]
  refine Meets.bind (Q := fun _ => True) ?_ fun _ _ => trivial
  unfold ssSyscall
  cases pf.ssSyscall x.host inst (fun n => x.arch.regs (.r n)) x.arch.mem with
  | error e =>
    intro h
    cases e <;> cases h
  | ok eff => exact applyWrites_ne_undefined.bind fun _ _ => trivial

/-! ### Checks -/

section Checks

variable {P : Unit → Exec pf → Prop} {n : ℕ}

@[simp] theorem avoids_talign :
    Avoids ld inst pc P (talign v) x ↔ v &&& 0x7#32 ≠ 0 ∨ P () x := by
  unfold talign
  split
  · rename_i hv
    exact iff_of_true avoids_ifail (.inl hv)
  · rename_i hv
    exact (or_iff_right hv).symm

@[simp] theorem avoids_intalign : Avoids ld inst pc P (intalign n) x ↔ n % 2 = 1 ∨ P () x := by
  unfold intalign
  by_cases hn : n % 2 = 1 <;> simp [hn]

@[simp] theorem avoids_fpalign : Avoids ld inst pc P (fpalign n) x ↔ n % 2 = 1 ∨ P () x := by
  unfold fpalign
  by_cases hn : n % 2 = 1 <;> simp [hn]

@[simp] theorem avoids_div0 {zero : Bool} :
    Avoids ld inst pc P (div0 zero) x ↔ zero = true ∨ P () x := by
  unfold div0
  cases zero <;> simp

/-- Two checks, one after the other. -/
theorem avoids_checks {high low : Prop} [Decidable high] [Decidable low] {msg msg' : String} :
    Avoids ld inst pc P (do
      if high then ifail msg
      if low then ifail msg') x ↔ (high ∨ low) ∨ P () x := by
  by_cases hHigh : high <;> by_cases hLow : low <;> simp [hHigh, hLow]

variable {v w : Word}

@[simp] theorem avoids_checkOver :
    Avoids ld inst pc P (checkOver v w) x ↔ overflows v w = true ∨ P () x := by
  rw [overflows, decide_eq_true_eq]
  exact avoids_checks

@[simp] theorem avoids_checkUnder :
    Avoids ld inst pc P (checkUnder v w) x ↔ underflows v w = true ∨ P () x := by
  rw [underflows, decide_eq_true_eq]
  exact avoids_checks

end Checks

/-! ### Families of instructions -/

variable {f : Word → Word → Word}

section Families

@[simp] theorem avoids_branch {taken : Micro Bool} :
    Avoids ld inst pc (fun _ _ => True) (branch inst taken) x ↔
      Avoids ld inst pc (fun _ _ => True) taken x := by
  simp only [branch, Micro.bind_eq, avoids_bind, avoids_cpc, avoids_setTpc]
  refine avoids_congr fun b y => iff_true_intro ?_
  cases b <;> simp

variable {Q : Word → Exec pf → Prop}

variable {size n : ℕ}

theorem avoids_foreTab :
    Avoids ld inst pc Q (ssForeTab size n) x ↔ n < 5 ∧ Q (foreStep size n) x := by
  by_cases hn : n < 5
  · simp [ssForeTab_eq hn, hn]
  · match n with
    | n + 5 => simp [ssForeTab]

theorem avoids_aftTab :
    Avoids ld inst pc Q (ssAftTab size n) x ↔ n < 5 ∧ Q (aftStep size n) x := by
  by_cases hn : n < 5
  · simp [ssAftTab_eq hn, hn]
  · match n with
    | n + 5 => simp [ssAftTab]

/-- `INC_DEC` around an expression with indices of its own. -/
theorem avoids_incDec {e : Micro Unit}
    (hE : inst.rs < 32 → ∀ y : Exec pf, Avoids ld inst pc (fun _ _ => True) e y ↔ B) :
    Avoids ld inst pc (fun _ _ => True) (incDec inst e inst.rs size) x ↔
      inst.rs < 32 ∧ inst.compOp < 5 ∧ B := by
  simp only [incDec, Micro.bind_eq, Micro.pure_eq, avoids_bind, avoids_setGpr, avoids_gpr,
    avoids_foreTab, avoids_aftTab, avoids_ret]
  by_cases hs : inst.rs < 32
  · by_cases hMode : inst.compOp < 5
    · simp only [hs, hMode, and_true, true_and]
      exact hE hs _
    · simp [hMode]
  · simp [hs]

/-- The sum of an address indexes what its registers index. -/
theorem avoids_dispAddr : Avoids ld inst pc Q (dispAddr inst) x ↔
    inst.rs < 32 ∧ Q (gprOf x.arch.regs inst.rs + inst.imm) x := by
  simp [dispAddr]

theorem avoids_rrAddr : Avoids ld inst pc Q (rrAddr inst) x ↔
    inst.rs < 32 ∧ inst.rd < 32 ∧
      Q (gprOf x.arch.regs inst.rs + gprOf x.arch.regs inst.rd) x := by
  simp [rrAddr]

/-- An address that indexes `B` besides the base. -/
def Indexes (pf : Platform) (ld : Segments) (inst : Inst) (pc : Word) (addr : Micro Word)
    (B : Prop) : Prop :=
  inst.rs < 32 → ∀ y : Exec pf, Avoids ld inst pc (fun _ _ => True) addr y ↔ B

theorem indexes_disp : Indexes pf ld inst pc (dispAddr inst) True := by
  intro hs y
  simp [avoids_dispAddr, hs]

theorem indexes_rr : Indexes pf ld inst pc (rrAddr inst) (inst.rd < 32) := by
  intro hs y
  simp [avoids_rrAddr, hs]

theorem indexes_rr2 : Indexes pf ld inst pc (do return (← rrAddr inst) + 4) (inst.rd < 32) := by
  intro hs y
  simp [avoids_rrAddr, hs]

variable {addr : Micro Word} {B : Prop}

theorem avoids_loadGpr (t : LoadKind) (hAddr : Indexes pf ld inst pc addr B) :
    Avoids ld inst pc (fun _ _ => True) (loadGpr inst (fun a => .load t a .ret) addr size) x ↔
      inst.rs < 32 ∧ inst.compOp < 5 ∧ inst.rt < 32 ∧ B := by
  refine avoids_incDec fun hs y => ?_
  simp [hAddr hs y]

theorem avoids_loadFpr (hAddr : Indexes pf ld inst pc addr B) :
    Avoids ld inst pc (fun _ _ => True) (loadFpr inst addr) x ↔
      inst.rs < 32 ∧ inst.compOp < 5 ∧ inst.rt < 32 ∧ B := by
  refine avoids_incDec fun hs y => ?_
  simp [readWord, hAddr hs y]

theorem avoids_storeGpr (t : StoreKind) (hAddr : Indexes pf ld inst pc addr B) :
    Avoids ld inst pc (fun _ _ => True)
        (storeGpr inst (fun v a => .store t a v (.ret ())) addr size) x ↔
      inst.rs < 32 ∧ inst.compOp < 5 ∧ inst.rt < 32 ∧ B := by
  refine avoids_incDec fun hs y => ?_
  simp [hAddr hs y]

theorem avoids_storeFpr (hAddr : Indexes pf ld inst pc addr B) :
    Avoids ld inst pc (fun _ _ => True) (storeFpr inst addr) x ↔
      inst.rs < 32 ∧ inst.compOp < 5 ∧ inst.rt < 32 ∧ B := by
  refine avoids_incDec fun hs y => ?_
  simp [writeWord, hAddr hs y]

/-! ### Loops -/

/-- An expression that indexes nothing, or only entries. -/
def Harmless (pf : Platform) (ld : Segments) (inst : Inst) (pc : Word) (m : Micro α) : Prop :=
  ∀ (Q : α → Exec pf → Prop) (x : Exec pf), (∀ a y, Q a y) → Avoids ld inst pc Q m x

theorem harmless_ret (a : α) : Harmless pf ld inst pc (.ret a) := fun _ x hQ => hQ a x

theorem Harmless.bind {m : Micro α} {f : α → Micro β} (hm : Harmless pf ld inst pc m)
    (hf : ∀ a, Harmless pf ld inst pc (f a)) : Harmless pf ld inst pc (m.bind f) :=
  fun _ x hQ => avoids_bind.mpr (hm _ x fun a y => hf a _ y hQ)

theorem harmless_ite [Decidable p] (hm : Harmless pf ld inst pc m)
    (hm' : Harmless pf ld inst pc m') : Harmless pf ld inst pc (if p then m else m') := by
  split
  · exact hm
  · exact hm'

variable {n : ℕ}

theorem harmless_gpr (h : n < 32) : Harmless pf ld inst pc (gpr n) :=
  fun _ x hQ => avoids_gpr.mpr ⟨h, hQ _ x⟩

variable {e : Micro Word}

theorem harmless_setGpr (h : n < 32) (he : Harmless pf ld inst pc e) :
    Harmless pf ld inst pc (setGpr n e) :=
  fun _ x hQ => avoids_setGpr.mpr ⟨h, he _ x fun _ _ => hQ _ _⟩

theorem harmless_hi : Harmless pf ld inst pc hi := fun _ x hQ => hQ _ x

theorem harmless_lo : Harmless pf ld inst pc lo := fun _ x hQ => hQ _ x

theorem harmless_setHi (he : Harmless pf ld inst pc e) :
    Harmless pf ld inst pc (setHi e) :=
  fun _ x hQ => avoids_setHi.mpr (he _ x fun _ _ => hQ _ _)

theorem harmless_setLo (he : Harmless pf ld inst pc e) :
    Harmless pf ld inst pc (setLo e) :=
  fun _ x hQ => avoids_setLo.mpr (he _ x fun _ _ => hQ _ _)

theorem harmless_sraLoop {rd : ℕ} (h : rd < 32) : ∀ n, Harmless pf ld inst pc (sraLoop rd n) := by
  intro n
  induction n with
  | zero => exact harmless_ret ()
  | succ n ih =>
    exact (harmless_setGpr h ((harmless_gpr h).bind fun _ => harmless_ret _)).bind fun _ => ih

/-- The rest of a round after the test of a bit. -/
theorem harmless_add {op : Micro Word} (h : Harmless pf ld inst pc op) {k : Micro Unit}
    (hk : Harmless pf ld inst pc k) : Harmless pf ld inst pc (do
      if 0xffffffff#32 - (← lo) < (← op) then
        setHi (do return (← hi) + 1)
      setLo (do return (← lo) + (← op))
      k) := by
  have hLow : Harmless pf ld inst pc (do
      setLo (do return (← lo) + (← op))
      k) :=
    (harmless_setLo (harmless_lo.bind fun _ => h.bind fun _ => harmless_ret _)).bind fun _ => hk
  refine harmless_lo.bind fun _ => h.bind fun _ => harmless_ite ?_ hLow
  exact (harmless_setHi (harmless_hi.bind fun _ => harmless_ret _)).bind fun _ => hLow

theorem harmless_multLoop {op1 op2 : Micro Word} (h₁ : Harmless pf ld inst pc op1)
    (h₂ : Harmless pf ld inst pc op2) : ∀ n, Harmless pf ld inst pc (multLoop op1 op2 n) := by
  intro n
  induction n with
  | zero => exact harmless_ret ()
  | succ n ih =>
    refine (harmless_setHi (harmless_hi.bind fun _ => harmless_ret _)).bind fun _ => ?_
    refine (harmless_setHi (harmless_hi.bind fun _ => harmless_lo.bind fun _ =>
      harmless_ret _)).bind fun _ => ?_
    refine (harmless_setLo (harmless_lo.bind fun _ => harmless_ret _)).bind fun _ => ?_
    exact h₁.bind fun _ => harmless_ite (harmless_add h₂ ih) ih

theorem harmless_negate {differ : Prop} [Decidable differ] : Harmless pf ld inst pc (do
    if differ then
      setLo (do return ~~~(← lo))
      setHi (do return ~~~(← hi))
      if (← lo) = 0xffffffff#32 then
        setHi (do return (← hi) + 1)
      setLo (do return (← lo) + 1)) := by
  have hOne : Harmless pf ld inst pc (setLo (do return (← lo) + 1)) :=
    harmless_setLo (harmless_lo.bind fun _ => harmless_ret _)
  refine harmless_ite ?_ (harmless_ret ())
  refine (harmless_setLo (harmless_lo.bind fun _ => harmless_ret _)).bind fun _ => ?_
  refine (harmless_setHi (harmless_hi.bind fun _ => harmless_ret _)).bind fun _ => ?_
  refine harmless_lo.bind fun _ => harmless_ite ?_ hOne
  exact (harmless_setHi (harmless_hi.bind fun _ => harmless_ret _)).bind fun _ => hOne

theorem avoids_instMULT : Avoids ld inst pc (fun _ _ => True) (instMULT inst) x ↔
    inst.rs < 32 ∧ inst.rt < 32 := by
  simp only [instMULT, Micro.bind_eq, Micro.pure_eq, avoids_bind, avoids_setHi, avoids_setLo,
    avoids_gpr, avoids_ret]
  refine and_congr_right fun _ => and_iff_left ?_
  have hRest : ∀ (a b : Word) (differ : Prop) [Decidable differ], Harmless pf ld inst pc (do
      multLoop (.ret a) (.ret b) 31
      if differ then
        setLo (do return ~~~(← lo))
        setHi (do return ~~~(← hi))
        if (← lo) = 0xffffffff#32 then
          setHi (do return (← hi) + 1)
        setLo (do return (← lo) + 1)) := fun a b _ _ =>
    (harmless_multLoop (harmless_ret a) (harmless_ret b) 31).bind fun _ => harmless_negate
  refine (harmless_ite ?_ (hRest _ _ _)) _ _ fun _ _ => trivial
  exact (harmless_setLo (harmless_ret _)).bind fun _ => hRest _ _ _

/-! `InstMULTU` reads its second operand for every one of the first. -/

@[simp] theorem gprOf_putHi :
    gprOf (x.put .hi v).arch.regs n = gprOf x.arch.regs n := by
  simp [gprOf, Exec.put, Arch.setReg]

@[simp] theorem gprOf_putLo :
    gprOf (x.put .lo v).arch.regs n = gprOf x.arch.regs n := by
  simp [gprOf, Exec.put, Arch.setReg]

theorem avoids_multLoop_bad {rs rt : ℕ} (hs : rs < 32) (ht : ¬ rt < 32) :
    ∀ {n : ℕ} {x : Exec pf}, Avoids ld inst pc (fun _ _ => True) (multLoop (gpr rs) (gpr rt) n) x ↔
      ∀ i < n, extractBit (gprOf x.arch.regs rs) i ≠ 1 := by
  intro n
  induction n with
  | zero => intro x; exact iff_of_true trivial (by omega)
  | succ n ih =>
    intro x
    simp only [multLoop, Micro.bind_eq, Micro.pure_eq, avoids_bind, avoids_setHi, avoids_setLo,
      avoids_hi, avoids_lo, avoids_gpr, avoids_ret, avoids_ite, gprOf_putHi, gprOf_putLo, hs, ht, ih,
      true_and, false_and, Nat.lt_succ_iff_lt_or_eq, or_imp, forall_and, forall_eq]
    by_cases hBit : extractBit (gprOf x.arch.regs rs) n = 1 <;> simp [hBit, and_comm]

/-- A word without ones. -/
theorem eq_zero_iff (v : Word) :
    v = 0 ↔ signBit v = false ∧ ∀ i < 31, extractBit v i ≠ 1 := by
  have hBit : ∀ i, extractBit v i ≠ 1 ↔ v.toNat.testBit i = false := by
    intro i
    rw [ne_eq, ← BitVec.toNat_inj, toNat_extractBit, Nat.testBit_eq_decide_div_mod_eq]
    simp
  simp only [signBit_eq, decide_eq_false_iff_not, not_le, hBit]
  rw [← BitVec.toNat_inj]
  constructor
  · intro h
    rw [h]
    exact ⟨Nat.two_pow_pos 31, fun i _ => Nat.zero_testBit i⟩
  · rintro ⟨hLt, hBits⟩
    apply Nat.eq_of_testBit_eq
    intro i
    rw [show BitVec.toNat (0 : Word) = 0 from rfl, Nat.zero_testBit]
    by_cases hi : i < 31
    · exact hBits i hi
    · exact Nat.testBit_lt_two_pow (lt_of_lt_of_le hLt (Nat.pow_le_pow_right Nat.two_pos (by omega)))

theorem avoids_instMULTU : Avoids ld inst pc (fun _ _ => True) (instMULTU inst) x ↔
    inst.rs < 32 ∧ (gprOf x.arch.regs inst.rs = 0 ∨ inst.rt < 32) := by
  simp only [instMULTU, Micro.bind_eq, avoids_bind, avoids_setHi, avoids_setLo,
    avoids_gpr, avoids_ret, avoids_ite, gprOf_putHi, gprOf_putLo]
  refine and_congr_right fun hs => ?_
  by_cases ht : inst.rt < 32
  · refine iff_of_true ?_ (.inr ht)
    have hLoop : Harmless pf ld inst pc (multLoop (gpr inst.rs) (gpr inst.rt) 31) :=
      harmless_multLoop (harmless_gpr hs) (harmless_gpr ht) 31
    split
    · exact ⟨ht, hLoop _ _ fun _ _ => trivial⟩
    · exact hLoop _ _ fun _ _ => trivial
  · rw [eq_zero_iff]
    simp only [ht, false_and, or_false, avoids_multLoop_bad hs ht, gprOf_putHi, gprOf_putLo]
    cases signBit (gprOf x.arch.regs inst.rs) <;> simp

theorem avoids_aluRR :
    Avoids ld inst pc (fun _ _ => True) (aluRR inst f) x ↔
      inst.rd < 32 ∧ inst.rs < 32 ∧ inst.rt < 32 := by
  simp [aluRR]

theorem avoids_aluRI {imm : Word} :
    Avoids ld inst pc (fun _ _ => True) (aluRI inst imm f) x ↔ inst.rt < 32 ∧ inst.rs < 32 := by
  simp [aluRI]

theorem shamt_lt (v : Word) : (v &&& 0x1f#32).toNat < 32 := by
  rw [BitVec.toNat_and]
  exact Nat.lt_of_le_of_lt Nat.and_le_right (by decide)

theorem avoids_sra {m : Micro Word} (hm : inst.rt < 32 → Harmless pf ld inst pc m) :
    Avoids ld inst pc (fun _ _ => True) (do
      if signBit (← gpr inst.rt) then
        setGpr inst.rd (gpr inst.rt)
        sraLoop inst.rd n
      else
        setGpr inst.rd m) x ↔ inst.rd < 32 ∧ inst.rt < 32 := by
  simp only [Micro.bind_eq, avoids_bind, avoids_gpr, avoids_ite, avoids_setGpr]
  by_cases ht : inst.rt < 32
  · by_cases hd : inst.rd < 32
    · simp only [ht, hd, true_and, and_true, iff_true]
      split
      · exact harmless_sraLoop hd n _ _ fun _ _ => trivial
      · exact hm ht _ _ fun _ _ => trivial
    · simp [hd]
  · simp [ht]

/-! ### Pairs of words -/

/-- An aligned pair is in the file if its first word is. -/
theorem avoids_pair {align m : Micro Unit}
    (hAlign : ∀ (P : Unit → Exec pf → Prop) (y : Exec pf),
      Avoids ld inst pc P align y ↔ inst.rt % 2 = 1 ∨ P () y)
    (hGood : inst.rs < 32 → inst.rt < 32 → inst.rt + 1 < 32 → ∀ y : Exec pf,
      Avoids ld inst pc (fun _ _ => True) m y ↔ B)
    (hBad : ¬ inst.rt < 32 → ∀ y : Exec pf, ¬ Avoids ld inst pc (fun _ _ => True) m y) :
    Avoids ld inst pc (fun _ _ => True) (incDec inst (do align; m) inst.rs size) x ↔
      inst.rs < 32 ∧ inst.compOp < 5 ∧
        (inst.rt % 2 = 1 ∨ inst.rt < 32 ∧ inst.rt + 1 < 32 ∧ B) := by
  refine avoids_incDec fun hs y => ?_
  rw [Micro.bind_eq, avoids_bind, hAlign]
  by_cases hOdd : inst.rt % 2 = 1
  · simp [hOdd]
  · refine or_congr_right ?_
    by_cases ht : inst.rt < 32
    · have ht' : inst.rt + 1 < 32 := by omega
      simp only [ht, ht', true_and]
      exact hGood hs ht ht' y
    · simp only [ht, false_and, iff_false]
      exact hBad ht y

end Families

/-! ### Every instruction -/

theorem engine_swap : (engine pf).total.simSwapWords = 0 := rfl

theorem engine_fpu : (engine pf).total.fpu = pf.fpu := rfl

theorem inBounds_disp : InBounds (inst.dispAccesses inst.oneData) ↔
    inst.rs < 32 ∧ inst.compOp < 5 ∧ inst.rt < 32 ∧ True := Iff.rfl

theorem inBounds_rr : InBounds (inst.rrAccesses inst.oneData) ↔
    inst.rs < 32 ∧ inst.compOp < 5 ∧ inst.rt < 32 ∧ inst.rd < 32 := by
  simp [Inst.rrAccesses, Inst.oneData, InBounds]

theorem inBounds_dispPair : InBounds (inst.dispAccesses inst.twoData) ↔
    inst.rs < 32 ∧ inst.compOp < 5 ∧
      (inst.rt % 2 = 1 ∨ inst.rt < 32 ∧ inst.rt + 1 < 32 ∧ True) := by
  simp [Inst.dispAccesses, Inst.twoData, InBounds, odd]

theorem inBounds_rrPair : InBounds (inst.rrAccesses inst.twoData) ↔
    inst.rs < 32 ∧ inst.compOp < 5 ∧
      (inst.rt % 2 = 1 ∨ inst.rt < 32 ∧ inst.rt + 1 < 32 ∧ inst.rd < 32) := by
  simp [Inst.rrAccesses, Inst.twoData, InBounds, odd]

/-- The loads and stores. -/
theorem avoids_memory {op : Opcode} (h : op.has F.mem) :
    Avoids ld inst pc (fun _ _ => True) (op.exprTotal (engine pf) inst) x ↔
      InBounds (op.accesses ld pf.fpu inst x.arch.regs) := by
  cases op
  case lb => exact (avoids_loadGpr .signedByte indexes_disp).trans inBounds_disp.symm
  case lbu => exact (avoids_loadGpr .unsignedByte indexes_disp).trans inBounds_disp.symm
  case lh => exact (avoids_loadGpr .signedHalf indexes_disp).trans inBounds_disp.symm
  case lhu => exact (avoids_loadGpr .unsignedHalf indexes_disp).trans inBounds_disp.symm
  case lw => exact (avoids_loadGpr .word indexes_disp).trans inBounds_disp.symm
  case l_s => exact (avoids_loadFpr indexes_disp).trans inBounds_disp.symm
  case sb => exact (avoids_storeGpr .byte indexes_disp).trans inBounds_disp.symm
  case sh => exact (avoids_storeGpr .half indexes_disp).trans inBounds_disp.symm
  case sw => exact (avoids_storeGpr .word indexes_disp).trans inBounds_disp.symm
  case s_s => exact (avoids_storeFpr indexes_disp).trans inBounds_disp.symm
  case lb_rr => exact (avoids_loadGpr .signedByte indexes_rr).trans inBounds_rr.symm
  case lbu_rr => exact (avoids_loadGpr .unsignedByte indexes_rr).trans inBounds_rr.symm
  case lh_rr => exact (avoids_loadGpr .signedHalf indexes_rr).trans inBounds_rr.symm
  case lhu_rr => exact (avoids_loadGpr .unsignedHalf indexes_rr).trans inBounds_rr.symm
  case lw_rr => exact (avoids_loadGpr .word indexes_rr).trans inBounds_rr.symm
  case l_s_rr => exact (avoids_loadFpr indexes_rr).trans inBounds_rr.symm
  case sb_rr => exact (avoids_storeGpr .byte indexes_rr).trans inBounds_rr.symm
  case sh_rr => exact (avoids_storeGpr .half indexes_rr).trans inBounds_rr.symm
  case sw_rr => exact (avoids_storeGpr .word indexes_rr).trans inBounds_rr.symm
  case s_s_rr => exact (avoids_storeFpr indexes_rr).trans inBounds_rr.symm
  case l_s_rr_r2 => exact (avoids_loadFpr indexes_rr2).trans inBounds_rr.symm
  case s_s_rr_r2 => exact (avoids_storeFpr indexes_rr2).trans inBounds_rr.symm
  case lw_rr_r2 => exact (avoids_loadGpr .word indexes_rr2).trans inBounds_rr.symm
  case sw_rr_r2 => exact (avoids_storeGpr .word indexes_rr2).trans inBounds_rr.symm
  case dlw | dsw =>
    refine (avoids_pair (fun _ _ => avoids_intalign) (fun hs ht ht' y => ?_)
      (fun ht y => ?_)).trans inBounds_dispPair.symm
    · simp [engine_swap, hs, ht, ht', readWord, writeWord, avoids_dispAddr]
    · simp [engine_swap, ht]
  case l_d | s_d =>
    refine (avoids_pair (fun _ _ => avoids_fpalign) (fun hs ht ht' y => ?_)
      (fun ht y => ?_)).trans inBounds_dispPair.symm
    · simp [engine_swap, hs, ht, ht', readWord, writeWord, avoids_dispAddr]
    · simp [engine_swap, ht]
  case dlw_rr | dsw_rr =>
    refine (avoids_pair (fun _ _ => avoids_intalign) (fun hs ht ht' y => ?_)
      (fun ht y => ?_)).trans inBounds_rrPair.symm
    · by_cases hd : inst.rd < 32 <;>
        simp [engine_swap, hs, ht, ht', hd, readWord, writeWord, avoids_rrAddr]
    · simp [engine_swap, ht]
  case l_d_rr | s_d_rr =>
    refine (avoids_pair (fun _ _ => avoids_fpalign) (fun hs ht ht' y => ?_)
      (fun ht y => ?_)).trans inBounds_rrPair.symm
    · by_cases hd : inst.rd < 32 <;>
        simp [engine_swap, hs, ht, ht', hd, readWord, writeWord, avoids_rrAddr]
    · simp [engine_swap, ht]
  case dsz =>
    refine (avoids_incDec fun hs y => ?_ : _ ↔ _ ∧ _ ∧ True).trans Iff.rfl
    simp [hs, writeWord, avoids_dispAddr]
  case dsz_rr =>
    refine (avoids_incDec fun hs y => ?_ : _ ↔ _ ∧ _ ∧ inst.rd < 32 ∧ True).trans Iff.rfl
    by_cases hd : inst.rd < 32 <;> simp [hs, hd, writeWord, avoids_rrAddr]
  case lwl | lwr =>
    simp [Opcode.exprTotal, Opcode.expr, Opcode.accesses, InBounds, avoids_readWord]
  case swl | swr =>
    by_cases hs : inst.rs < 32 <;>
      simp [Opcode.exprTotal, Opcode.expr, Opcode.accesses, InBounds, avoids_readWord,
        avoids_dispAddr, writeWord, hs]
  all_goals exact absurd h (by decide)

theorem avoids_fpuRRS :
    Avoids ld inst pc (fun _ _ => True) (fpuRRS inst f) x ↔ InBounds inst.fpuAccesses := by
  simp [fpuRRS, Inst.fpuAccesses, InBounds, odd]

theorem avoids_fpuRRD {f : Word × Word → Word × Word → Word × Word} :
    Avoids ld inst pc (fun _ _ => True) (fpuRRD inst f) x ↔ InBounds inst.fpuAccesses := by
  simp [fpuRRD, Inst.fpuAccesses, InBounds, odd]

theorem avoids_exprTotal (op : Opcode) :
    Avoids ld inst pc (fun _ _ => True) (op.exprTotal (engine pf) inst) x ↔
      InBounds (op.accesses ld pf.fpu inst x.arch.regs) := by
  by_cases hMem : op.has F.mem
  · exact avoids_memory hMem
  cases op
  case op_na | nop | break_ | cfc1 | ctc1 => exact Iff.rfl
  case syscall => exact iff_of_true avoids_syscall trivial
  case jump | jal | beq | bne | blez | bgtz | bltz | bgez | bc1f | bc1t =>
    simp [Opcode.exprTotal, Opcode.expr, Opcode.accesses, InBounds]
  case jr | jalr =>
    by_cases hs : inst.rs < 32 <;>
      simp [Opcode.exprTotal, Opcode.expr, Opcode.accesses, InBounds, hs]
  case addu | subu | and_ | or | xor | nor | slt | sltu =>
    simp [Opcode.exprTotal, Opcode.expr, Opcode.accesses, InBounds, avoids_aluRR]
  case addiu | andi | ori | xori | slti | sltiu =>
    simp [Opcode.exprTotal, Opcode.expr, Opcode.accesses, InBounds, avoids_aluRI]
  case add | sub | addi =>
    by_cases hs : inst.rs < 32 <;> by_cases ht : inst.rt < 32 <;>
      simp [Opcode.exprTotal, Opcode.expr, Opcode.accesses, InBounds, avoids_aluRR, avoids_aluRI,
        hs, ht]
  case mult => simp [Opcode.exprTotal, Opcode.expr, Opcode.accesses, InBounds, avoids_instMULT]
  case multu =>
    refine avoids_instMULTU.trans (and_congr_right fun _ => ?_)
    by_cases hZero : gprOf x.arch.regs inst.rs = 0
    · rw [if_pos hZero]
      exact iff_of_true (.inl hZero) trivial
    · rw [if_neg hZero]
      exact (or_iff_right hZero).trans (and_true _).symm.to_iff
  case div | divu =>
    by_cases hs : inst.rs < 32 <;> by_cases ht : inst.rt < 32 <;>
      simp [Opcode.exprTotal, Opcode.expr, Opcode.accesses, InBounds, Engine.total, hs, ht]
  case mfhi | mthi | mflo | mtlo | sll | srl | lui | mfc1 | mtc1 =>
    simp [Opcode.exprTotal, Opcode.expr, Opcode.accesses, InBounds]
  case sra =>
    refine (avoids_sra fun ht => ?_).trans (and_congr_right fun _ => (and_true _).symm.to_iff)
    exact (harmless_gpr ht).bind fun _ => harmless_ret _
  case sllv | srlv =>
    simp only [Opcode.exprTotal, Opcode.expr, Opcode.accesses, InBounds, cShl, cShr, shamt_lt,
      if_true, Micro.bind_eq, avoids_setGpr, avoids_bind, avoids_gpr, avoids_ret, and_true]
    tauto
  case srav =>
    simp only [Opcode.exprTotal, Opcode.expr, Opcode.accesses, InBounds, instSRAV]
    rw [Micro.bind_eq, avoids_bind, avoids_gpr, avoids_sra fun ht => ?_]
    · tauto
    · refine (harmless_gpr ht).bind fun v => ?_
      rw [cSar, if_pos (shamt_lt _)]
      exact harmless_ret _
  case fadd_s | fsub_s | fmul_s => exact avoids_fpuRRS
  case fadd_d | fsub_d | fmul_d => exact avoids_fpuRRD
  case fdiv_s | fdiv_d =>
    by_cases ht : inst.rt < 32 <;>
      simp [Opcode.exprTotal, Opcode.expr, Opcode.accesses, InBounds, odd, engine_fpu, ht]
  case fabs_s | fabs_d | fmov_s | fmov_d | fneg_s | fneg_d | cvt_s_d | cvt_s_w | cvt_d_s |
      cvt_d_w | cvt_w_s | cvt_w_d | fsqrt_s | fsqrt_d =>
    simp [Opcode.exprTotal, Opcode.expr, Opcode.accesses, InBounds, fpuR, odd]
  case c_eq_s | c_eq_d | c_lt_s | c_lt_d | c_le_s | c_le_d =>
    simp [Opcode.exprTotal, Opcode.expr, Opcode.accesses, InBounds, fpuCmp, odd]
  case dmfc1 | dmtc1 =>
    simp [Opcode.exprTotal, Opcode.expr, Opcode.accesses, InBounds, odd]
  all_goals exact absurd (by decide) hMem

/-! ### The total expressions -/

/-- The run of `m` is that of `m'`, or undefined. -/
def Defines (m m' : Micro Unit) (ld : Segments) (inst : Inst) (pc : Word) (x : Exec pf) : Prop :=
  run pf ld inst pc m x = run pf ld inst pc m' x ∨ run pf ld inst pc m x = .error .undefined

/-- A shift by a constant. -/
theorem defines_shift {shift : Word → Micro Word} {f : Word → Word}
    (h : ∀ v, shift v = .ret (f v) ∨ shift v = .undefined) :
    Defines (setGpr inst.rd (do shift (← gpr inst.rt)))
      (setGpr inst.rd (do return f (← gpr inst.rt))) ld inst pc x := by
  unfold Defines setGpr gpr
  split
  · split
    · rename_i hd ht
      rcases h (x.arch.regs (.r ⟨inst.rt, ht⟩)) with hv | hv
      · refine .inl ?_
        simp [run, Micro.bind, hv]
      · refine .inr ?_
        simp [run, Micro.bind, hv]
    · exact .inl rfl
  · exact .inl rfl

/-- A quotient and a remainder. -/
theorem defines_divide {q r : Word → Word → Micro Word} {f g : Word → Word → Word}
    (hq : ∀ a b, b ≠ 0 → (q a b = .ret (f a b) ∧ r a b = .ret (g a b)) ∨ q a b = .undefined) :
    Defines (do
      div0 (decide ((← gpr inst.rt) = 0))
      setLo (do q (← gpr inst.rs) (← gpr inst.rt))
      setHi (do r (← gpr inst.rs) (← gpr inst.rt))) (do
      div0 (decide ((← gpr inst.rt) = 0))
      setLo (do return f (← gpr inst.rs) (← gpr inst.rt))
      setHi (do return g (← gpr inst.rs) (← gpr inst.rt))) ld inst pc x := by
  unfold Defines gpr
  by_cases ht : inst.rt < 32
  · by_cases hZero : x.arch.regs (.r ⟨inst.rt, ht⟩) = 0#32
    · refine .inl ?_
      simp [run, Micro.bind, ht, hZero, div0, ifail]
    · by_cases hs : inst.rs < 32
      · rcases hq (x.arch.regs (.r ⟨inst.rs, hs⟩)) _ hZero with ⟨hQuot, hRem⟩ | hQuot
        · refine .inl ?_
          simp [run, Micro.bind, ht, hs, hZero, div0, setLo, setHi, hQuot, hRem, Arch.setReg]
        · refine .inr ?_
          simp [run, Micro.bind, ht, hs, hZero, div0, setLo, hQuot]
      · refine .inl ?_
        simp [run, Micro.bind, ht, hs, hZero, div0, setLo]
  · refine .inl ?_
    simp [run, Micro.bind, ht]

/-- Where `ss.def` computes a value, the total expression computes it. -/
theorem defines_exprTotal (op : Opcode) :
    Defines (op.expr (engine pf) inst) (op.exprTotal (engine pf) inst) ld inst pc x := by
  cases op
  case sll => exact defines_shift fun _ => ite_eq_or_eq ..
  case srl => exact defines_shift fun _ => ite_eq_or_eq ..
  case sra =>
    unfold Opcode.expr instSRA Opcode.exprTotal
    by_cases ht : inst.rt < 32
    · have hShift : Defines (setGpr inst.rd (do cSar (← gpr inst.rt) inst.shamt))
          (setGpr inst.rd (do return (← gpr inst.rt).sshiftRight inst.shamt)) ld inst pc x :=
        defines_shift fun _ => ite_eq_or_eq ..
      unfold Defines at hShift ⊢
      simp only [Micro.bind_eq, gpr, ht, dif_pos, Micro.bind, run] at hShift ⊢
      split
      · exact .inl rfl
      · exact hShift
    · refine .inl ?_
      simp [gpr, ht, Micro.bind, run]
  case div =>
    refine defines_divide fun a b hb => ?_
    simp only [engine, Engine.default, cDiv, cMod, hb, false_or]
    split
    · exact .inr rfl
    · exact .inl ⟨rfl, rfl⟩
  case divu =>
    exact defines_divide fun a b hb => .inl ⟨if_neg hb, if_neg hb⟩
  all_goals exact .inl rfl

/-- No index is outside its array. -/
def IndexesWell (ld : Segments) (inst : Inst) (pc : Word) (op : Opcode) (x : Exec pf) : Prop :=
  run pf ld inst pc (op.exprTotal (engine pf) inst) x ≠ .error .undefined

/-- **An instruction** indexes well exactly if the indices up to its first fault are those of
entries. -/
theorem indexesWell_iff (pf : Platform) (ld : Segments) (inst : Inst) (pc : Word) (op : Opcode)
    (x : Exec pf) :
    IndexesWell ld inst pc op x ↔ InBounds (op.accesses ld pf.fpu inst x.arch.regs) := by
  have hAvoids : Avoids ld inst pc (fun _ _ => True) (op.exprTotal (engine pf) inst) x ↔ _ :=
    avoids_exprTotal op
  rw [← hAvoids, IndexesWell, run_eq_eval, avoids_def]
  cases eval pf ld inst pc (op.exprTotal (engine pf) inst) x with
  | ok r => exact iff_of_true (fun h => by cases h) trivial
  | error e => exact not_congr ⟨fun h => by cases h; rfl, fun h => by rw [h]; rfl⟩

/-- `addu` with the destination 200. -/
def badAddu : Inst := ⟨0x36#32, 0x0000c800#32⟩

/-- `lb` with the mode 5. -/
def badLb : Inst := ⟨0x50e#32, 0x00000000#32⟩

/-- They are instructions for the decoder, and leave the arrays. -/
theorem not_indexesWell_fields :
    badAddu.decode = some .addu ∧ ¬ IndexesWell ⟨0, 0⟩ badAddu 0 .addu (Exec.ofRegs 0 0) ∧
      badLb.decode = some .lb ∧ ¬ IndexesWell ⟨0, 0⟩ badLb 0 .lb (Exec.ofRegs 0 0) := by
  refine ⟨by decide +kernel, not_not_intro ?_, by decide +kernel, not_not_intro ?_⟩
  · exact eq_error_of_reason (by decide +kernel)
  · exact eq_error_of_reason (by decide +kernel)

end Safe

end SimpleScalar

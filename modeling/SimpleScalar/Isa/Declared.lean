import SimpleScalar.Isa.Footprint

/-!
# Declared dependences

`ss.def` declares for every instruction the names it depends on (`I1`-`I3`) and the names
it produces (`O1`, `O2`), next to the expression that does the reading and writing.  This
file compares the two.

* `dependences_sound`: the declarations are sound for all but nine instructions.
* `dependences_unsound`: `LWL` merges into a register it does not declare as an input, and
  `DLW` writes a pair of which it declares the even register only.
-/

namespace SimpleScalar

open Micro

/-! ### Names -/

/-- The dependence name of a register; the two halves of a double share one. -/
def Reg.depName : Reg → Nat
  | .r n => n
  | .f n => evenFloor (n + 32)
  | .hi => 0 + 32 + 32
  | .lo => 1 + 32 + 32
  | .fcc => 2 + 32 + 32

namespace Opcode

/-- The declared inputs. -/
def inputs (op : Opcode) (inst : Inst) : List Nat :=
  [op.definst.i1.name inst, op.definst.i2.name inst, op.definst.i3.name inst]

/-- The declared outputs. -/
def outputs (op : Opcode) (inst : Inst) : List Nat :=
  [op.definst.o1.name inst, op.definst.o2.name inst]

end Opcode

/-- The names cover the register; `$r0` needs none. -/
def Covered (names : List Nat) (r : Reg) : Prop := r.depName = NA ∨ r.depName ∈ names

/-! ### The table against the expressions -/

/-- The division macros touch no register. -/
structure Engine.Local (c : Engine) : Prop where
  idiv : ∀ O S a b, Foot O S (c.idiv a b)
  imod : ∀ O S a b, Foot O S (c.imod a b)
  idivu : ∀ O S a b, Foot O S (c.idivu a b)
  imodu : ∀ O S a b, Foot O S (c.imodu a b)

theorem Engine.default_local (fpu : Fpu) (n : Nat) (b : Bool) : (Engine.default fpu n b).Local := by
  constructor <;> intro O S x y g <;> simp [Engine.default, cDiv, cMod, cDivu, cModu]

theorem Engine.outorder_local (fpu : Fpu) (n : Nat) (b : Bool) :
    (Engine.outorder fpu n b).Local := by
  constructor <;> intro O S x y g <;> simp [Engine.outorder, cDiv, cMod, cDivu, cModu]

section

variable {names : List Nat} {n : Nat}

theorem hasR_of_mem (h : n ∈ names) : HasR (Covered names) n := fun _ => .inr h

theorem hasR_zero : HasR (Covered names) 0 := fun _ => .inl rfl

theorem hasF_of_mem (h : evenFloor (n + 32) ∈ names) : HasF (Covered names) n := fun _ => .inr h

theorem hasD_of_mem (h : evenFloor (n + 32) ∈ names) : HasD (Covered names) n := by
  have h₀ : evenFloor (evenFloor n + 32) = evenFloor (n + 32) := by unfold evenFloor; omega
  have h₁ : evenFloor (evenFloor n + 1 + 32) = evenFloor (n + 32) := by unfold evenFloor; omega
  exact ⟨hasF_of_mem (by rwa [h₀]), hasF_of_mem (by rwa [h₁])⟩

/-- Both words of a double that is moved word by word, swapped or not. -/
theorem hasF_pair {w : Nat} (hw : w < 2) (hn : n % 2 = 0) (h : evenFloor (n + 32) ∈ names) :
    HasF (Covered names) (n ^^^ w) ∧ HasF (Covered names) ((n + 1) ^^^ w) := by
  obtain ⟨k, rfl⟩ : ∃ k, n = 2 * k := ⟨n / 2, by omega⟩
  have hXor : ∀ m, m / 2 = k → evenFloor ((m ^^^ w) + 32) = evenFloor (2 * k + 32) := by
    intro m hm
    have hHalf : (m ^^^ w) / 2 = k := by
      rw [Nat.xor_div_two, hm, show w / 2 = 0 by omega, Nat.xor_zero]
    unfold evenFloor
    omega
  exact ⟨hasF_of_mem (by rwa [hXor _ (by omega)]), hasF_of_mem (by rwa [hXor _ (by omega)])⟩

end

/-- The instructions whose declarations miss a register. -/
def Opcode.undeclared : List Opcode :=
  [.dlw, .lwl, .lwr, .dsw, .dlw_rr, .dsw_rr, .syscall, .dmfc1, .dmtc1]

variable {op : Opcode}

attribute [local simp] Opcode.inputs Opcode.outputs Opcode.definst Dep.name Field.value in
/-- The base of a memory access is declared, and its update whenever there is one. -/
theorem Opcode.base_declared (inst : Inst) (h : op.has F.mem) :
    HasR (Covered (op.inputs inst)) inst.rs ∧
      (op ∉ [.lwl, .lwr, .swl, .swr] → inst.compOp ≠ 0 →
        HasR (Covered (op.outputs inst)) inst.rs) := by
  revert h
  cases op <;> first
    | exact fun h => absurd h (by decide)
    | exact fun _ => ⟨hasR_of_mem (by simp), fun h _ => absurd h (by decide)⟩
    | exact fun _ => ⟨hasR_of_mem (by simp), fun _ h => hasR_of_mem (by simp [h])⟩

attribute [local simp] Opcode.inputs Opcode.outputs Opcode.definst Dep.name Field.value in
/-- The register offset of an indexed access is declared. -/
theorem Opcode.index_declared (inst : Inst) (h : op.has (F.mem ||| F.rr)) :
    HasR (Covered (op.inputs inst)) inst.rd := by
  revert h
  cases op <;> first
    | exact fun h => absurd h (by decide)
    | exact fun _ => hasR_of_mem (by simp)

/-- An access with auto-update addressing, from its body. -/
theorem Opcode.foot_access {inst : Inst} {expr : Micro Unit} {size : Nat}
    (hMem : op.has F.mem) (hAuto : op ∉ [.lwl, .lwr, .swl, .swr])
    (hE : Foot (Covered (op.outputs inst)) (Covered (op.inputs inst)) expr) :
    Foot (Covered (op.outputs inst)) (Covered (op.inputs inst)) (incDec inst expr inst.rs size) :=
  have hBase := base_declared inst hMem
  foot_incDec hBase.1 (hBase.2 hAuto) hE

theorem Opcode.foot_disp {inst : Inst} {O : Reg → Prop} (hMem : op.has F.mem) :
    Foot O (Covered (op.inputs inst)) (dispAddr inst) :=
  foot_dispAddr (base_declared inst hMem).1

theorem Opcode.foot_rr {inst : Inst} {O : Reg → Prop}
    (hMem : op.has F.mem) (hRr : op.has (F.mem ||| F.rr)) :
    Foot O (Covered (op.inputs inst)) (rrAddr inst) :=
  foot_rrAddr (base_declared inst hMem).1 (index_declared inst hRr)

variable {c : Engine}

attribute [local simp] Opcode.inputs Opcode.outputs Opcode.definst Dep.name Field.value in
/-- Control transfers. -/
theorem Opcode.foot_ctrl (inst : Inst) (h : op ∉ undeclared) (hOp : op.has F.ctrl) :
    Foot (Covered (op.outputs inst)) (Covered (op.inputs inst)) (op.expr c inst) := by
  revert hOp
  cases op <;> intro hOp <;> first | exact absurd hOp (by decide) | exact absurd h (by decide) | skip
  case jump => exact fun _ _ _ => trivial
  case jal =>
    exact .bind (fun _ _ => trivial) fun _ => .bind (fun _ => trivial) fun _ =>
      .bind (fun _ _ => trivial) fun _ => .bind (fun _ => trivial) fun _ =>
        foot_setGpr (hasR_of_mem (by simp)) (.bind (fun _ _ => trivial) fun _ => foot_ret _)
  case jr =>
    have hRs : Foot (Covered (jr.outputs inst)) (Covered (jr.inputs inst)) (gpr inst.rs) :=
      foot_gpr (hasR_of_mem (by simp))
    exact .bind hRs fun _ => .bind (foot_talign _) fun _ => .bind hRs fun _ =>
      .bind (fun _ => trivial) fun _ => .bind hRs fun _ _ => trivial
  case jalr =>
    have hRs : Foot (Covered (jalr.outputs inst)) (Covered (jalr.inputs inst)) (gpr inst.rs) :=
      foot_gpr (hasR_of_mem (by simp))
    exact .bind hRs fun _ => .bind (foot_talign _) fun _ =>
      .bind (foot_setGpr (hasR_of_mem (by simp)) (.bind (fun _ _ => trivial) fun _ => foot_ret _))
        fun _ => .bind hRs fun _ => .bind (fun _ => trivial) fun _ => .bind hRs fun _ _ => trivial
  case beq | bne =>
    exact foot_branch (.bind (foot_gpr (hasR_of_mem (by simp))) fun _ =>
      .bind (foot_gpr (hasR_of_mem (by simp))) fun _ => foot_ret _)
  case blez | bgtz | bltz | bgez =>
    exact foot_branch (.bind (foot_gpr (hasR_of_mem (by simp))) fun _ => foot_ret _)
  case bc1f | bc1t => exact foot_branch (.bind (foot_fcc (.inr (by simp [Reg.depName]))) fun _ => foot_ret _)

attribute [local simp] Opcode.inputs Opcode.outputs Opcode.definst Dep.name Field.value in
/-- Memory accesses. -/
theorem Opcode.foot_mem (hw : c.simSwapWords < 2) (inst : Inst)
    (h : op ∉ undeclared) (hOp : op.has F.mem) :
    Foot (Covered (op.outputs inst)) (Covered (op.inputs inst)) (op.expr c inst) := by
  revert hOp
  cases op <;> intro hOp <;> first | exact absurd hOp (by decide) | exact absurd h (by decide) | skip
  case lb | lbu | lh | lhu | lw =>
    exact foot_access rfl (by decide) (foot_setGpr (hasR_of_mem (by simp))
      (.bind (foot_disp rfl) fun _ => foot_load _ _))
  case lb_rr | lbu_rr | lh_rr | lhu_rr | lw_rr =>
    exact foot_access rfl (by decide) (foot_setGpr (hasR_of_mem (by simp))
      (.bind (foot_rr rfl rfl) fun _ => foot_load _ _))
  case lw_rr_r2 =>
    exact foot_access rfl (by decide) (foot_setGpr (hasR_of_mem (by simp))
      (.bind (.bind (foot_rr rfl rfl) fun _ => foot_ret _) fun _ => foot_load _ _))
  case l_s =>
    exact foot_access rfl (by decide) (foot_setFprL (hasF_of_mem (by simp))
      (.bind (foot_disp rfl) fun _ => foot_load _ _))
  case l_s_rr =>
    exact foot_access rfl (by decide) (foot_setFprL (hasF_of_mem (by simp))
      (.bind (foot_rr rfl rfl) fun _ => foot_load _ _))
  case l_s_rr_r2 =>
    exact foot_access rfl (by decide) (foot_setFprL (hasF_of_mem (by simp))
      (.bind (.bind (foot_rr rfl rfl) fun _ => foot_ret _) fun _ => foot_load _ _))
  case sb | sh | sw =>
    exact foot_access rfl (by decide) (.bind (foot_gpr (hasR_of_mem (by simp))) fun _ =>
      .bind (foot_disp rfl) fun _ => foot_store _ _ _)
  case sb_rr | sh_rr | sw_rr =>
    exact foot_access rfl (by decide) (.bind (foot_gpr (hasR_of_mem (by simp))) fun _ =>
      .bind (foot_rr rfl rfl) fun _ => foot_store _ _ _)
  case sw_rr_r2 =>
    exact foot_access rfl (by decide) (.bind (foot_gpr (hasR_of_mem (by simp))) fun _ =>
      .bind (.bind (foot_rr rfl rfl) fun _ => foot_ret _) fun _ => foot_store _ _ _)
  case dsz =>
    have hAddr : Foot (Covered (dsz.outputs inst)) (Covered (dsz.inputs inst)) (dispAddr inst) :=
      foot_disp rfl
    exact foot_access rfl (by decide) (.bind (foot_gpr hasR_zero) fun _ => .bind hAddr fun _ =>
      .bind (foot_store _ _ _) fun _ => .bind (foot_gpr hasR_zero) fun _ => .bind hAddr fun _ =>
        foot_store _ _ _)
  case dsz_rr =>
    have hAddr : Foot (Covered (dsz_rr.outputs inst)) (Covered (dsz_rr.inputs inst)) (rrAddr inst) :=
      foot_rr rfl rfl
    exact foot_access rfl (by decide) (.bind (foot_gpr hasR_zero) fun _ => .bind hAddr fun _ =>
      .bind (foot_store _ _ _) fun _ => .bind (foot_gpr hasR_zero) fun _ => .bind hAddr fun _ =>
        foot_store _ _ _)
  case l_d =>
    refine foot_access rfl (by decide) (foot_fpalign_bind fun hEven => ?_)
    have hName : evenFloor (inst.rt + 32) ∈ l_d.outputs inst := by simp
    have hPair := hasF_pair hw hEven hName
    exact .bind (foot_setFprL hPair.1 (.bind (foot_disp rfl) fun _ => foot_load _ _)) fun _ =>
      foot_setFprL hPair.2 (.bind (foot_disp rfl) fun _ => foot_load _ _)
  case l_d_rr =>
    refine foot_access rfl (by decide) (foot_fpalign_bind fun hEven => ?_)
    have hName : evenFloor (inst.rt + 32) ∈ l_d_rr.outputs inst := by simp
    have hPair := hasF_pair hw hEven hName
    exact .bind (foot_setFprL hPair.1 (.bind (foot_rr rfl rfl) fun _ => foot_load _ _)) fun _ =>
      foot_setFprL hPair.2 (.bind (foot_rr rfl rfl) fun _ => foot_load _ _)
  case s_s =>
    exact foot_access rfl (by decide) (.bind (foot_fprL (hasF_of_mem (by simp))) fun _ =>
      .bind (foot_disp rfl) fun _ => foot_store _ _ _)
  case s_s_rr =>
    exact foot_access rfl (by decide) (.bind (foot_fprL (hasF_of_mem (by simp))) fun _ =>
      .bind (foot_rr rfl rfl) fun _ => foot_store _ _ _)
  case s_s_rr_r2 =>
    exact foot_access rfl (by decide) (.bind (foot_fprL (hasF_of_mem (by simp))) fun _ =>
      .bind (.bind (foot_rr rfl rfl) fun _ => foot_ret _) fun _ => foot_store _ _ _)
  case s_d =>
    refine foot_access rfl (by decide) (foot_fpalign_bind fun hEven => ?_)
    have hName : evenFloor (inst.rt + 32) ∈ s_d.inputs inst := by simp
    have hPair := hasF_pair Nat.zero_lt_two hEven hName
    rw [Nat.xor_zero, Nat.xor_zero] at hPair
    exact .bind (foot_fprL hPair.1) fun _ => .bind (foot_disp rfl) fun _ =>
      .bind (foot_store _ _ _) fun _ => .bind (foot_fprL hPair.2) fun _ =>
        .bind (foot_disp rfl) fun _ => foot_store _ _ _
  case s_d_rr =>
    refine foot_access rfl (by decide) (foot_fpalign_bind fun hEven => ?_)
    have hName : evenFloor (inst.rt + 32) ∈ s_d_rr.inputs inst := by simp
    have hPair := hasF_pair hw hEven hName
    exact .bind (foot_fprL hPair.1) fun _ => .bind (foot_rr rfl rfl) fun _ =>
      .bind (foot_store _ _ _) fun _ => .bind (foot_fprL hPair.2) fun _ =>
        .bind (foot_rr rfl rfl) fun _ => foot_store _ _ _
  case swl =>
    have hAddr : Foot (Covered (swl.outputs inst)) (Covered (swl.inputs inst)) (dispAddr inst) :=
      foot_disp rfl
    exact .bind hAddr fun _ => .bind (foot_load _ _) fun _ =>
      .bind (foot_gpr (hasR_of_mem (by simp))) fun _ => .bind hAddr fun _ => .bind hAddr fun _ =>
        .bind hAddr fun _ => foot_store _ _ _
  case swr =>
    have hAddr : Foot (Covered (swr.outputs inst)) (Covered (swr.inputs inst)) (dispAddr inst) :=
      foot_disp rfl
    exact .bind hAddr fun _ => .bind (foot_load _ _) fun _ =>
      .bind (foot_gpr (hasR_of_mem (by simp))) fun _ => .bind hAddr fun _ => .bind hAddr fun _ =>
        .bind hAddr fun _ => foot_store _ _ _

attribute [local simp] Opcode.inputs Opcode.outputs Opcode.definst Dep.name Field.value in
/-- Integer computations. -/
theorem Opcode.foot_icomp (hc : c.Local) (inst : Inst)
    (h : op ∉ undeclared) (hOp : op.has F.icomp) :
    Foot (Covered (op.outputs inst)) (Covered (op.inputs inst)) (op.expr c inst) := by
  revert hOp
  cases op <;> intro hOp <;> first | exact absurd hOp (by decide) | exact absurd h (by decide) | skip
  case addu | subu | and_ | or | xor | nor | slt | sltu =>
    exact foot_aluRR (hasR_of_mem (by simp)) (hasR_of_mem (by simp)) (hasR_of_mem (by simp))
  case add | sub =>
    refine .bind (foot_gpr (hasR_of_mem (by simp))) fun _ =>
      .bind (foot_gpr (hasR_of_mem (by simp))) fun _ => .bind ?_ fun _ =>
        foot_aluRR (hasR_of_mem (by simp)) (hasR_of_mem (by simp)) (hasR_of_mem (by simp))
    first | exact foot_over _ _ | exact foot_under _ _
  case addiu | andi | ori | xori | slti | sltiu =>
    rw [Opcode.expr]
    exact foot_aluRI (hasR_of_mem (by simp)) (hasR_of_mem (by simp))
  case addi =>
    exact .bind (foot_gpr (hasR_of_mem (by simp))) fun _ => .bind (foot_over _ _) fun _ =>
      foot_aluRI (hasR_of_mem (by simp)) (hasR_of_mem (by simp))
  case mult =>
    exact foot_instMULT (hasR_of_mem (by simp)) (hasR_of_mem (by simp))
      (.inr (by simp [Reg.depName])) (.inr (by simp [Reg.depName]))
  case multu =>
    exact foot_instMULTU (hasR_of_mem (by simp)) (hasR_of_mem (by simp))
      (.inr (by simp [Reg.depName])) (.inr (by simp [Reg.depName]))
  case nop | cfc1 | ctc1 => exact foot_ret _
  case div | divu =>
    have hRs : Foot (Covered (div.outputs inst)) (Covered (div.inputs inst)) (gpr inst.rs) :=
      foot_gpr (hasR_of_mem (by simp))
    have hRt : Foot (Covered (div.outputs inst)) (Covered (div.inputs inst)) (gpr inst.rt) :=
      foot_gpr (hasR_of_mem (by simp))
    refine .bind hRt fun _ => .bind (foot_div0 _) fun _ =>
      .bind (foot_setLo (.inr (by simp [Reg.depName])) (.bind hRs fun _ => .bind hRt fun _ => ?_))
        fun _ => foot_setHi (.inr (by simp [Reg.depName])) (.bind hRs fun _ => .bind hRt fun _ => ?_)
    · first | exact hc.idiv _ _ _ _ | exact hc.idivu _ _ _ _
    · first | exact hc.imod _ _ _ _ | exact hc.imodu _ _ _ _
  case mfhi => exact foot_setGpr (hasR_of_mem (by simp)) (foot_hi (.inr (by simp [Reg.depName])))
  case mflo => exact foot_setGpr (hasR_of_mem (by simp)) (foot_lo (.inr (by simp [Reg.depName])))
  case mthi => exact foot_setHi (.inr (by simp [Reg.depName])) (foot_gpr (hasR_of_mem (by simp)))
  case mtlo => exact foot_setLo (.inr (by simp [Reg.depName])) (foot_gpr (hasR_of_mem (by simp)))
  case sll | srl =>
    exact foot_setGpr (hasR_of_mem (by simp)) (.bind (foot_gpr (hasR_of_mem (by simp))) fun _ =>
      foot_ite (foot_ret _) fun _ => trivial)
  case sllv | srlv =>
    exact foot_setGpr (hasR_of_mem (by simp)) (.bind (foot_gpr (hasR_of_mem (by simp))) fun _ =>
      .bind (foot_gpr (hasR_of_mem (by simp))) fun _ => foot_ite (foot_ret _) fun _ => trivial)
  case sra => exact foot_sra (hasR_of_mem (by simp)) (hasR_of_mem (by simp))
  case srav =>
    exact .bind (foot_gpr (hasR_of_mem (by simp))) fun _ =>
      foot_sra (hasR_of_mem (by simp)) (hasR_of_mem (by simp))
  case lui => exact foot_setGpr (hasR_of_mem (by simp)) (foot_ret _)
  case mfc1 => exact foot_setGpr (hasR_of_mem (by simp)) (foot_fprL (hasF_of_mem (by simp)))
  case mtc1 => exact foot_setFprL (hasF_of_mem (by simp)) (foot_gpr (hasR_of_mem (by simp)))

attribute [local simp] Opcode.inputs Opcode.outputs Opcode.definst Dep.name Field.value in
/-- Floating point computations. -/
theorem Opcode.foot_fcomp (inst : Inst) (h : op ∉ undeclared) (hOp : op.has F.fcomp) :
    Foot (Covered (op.outputs inst)) (Covered (op.inputs inst)) (op.expr c inst) := by
  revert hOp
  cases op <;> intro hOp <;> first | exact absurd hOp (by decide) | exact absurd h (by decide) | skip
  case fadd_s | fsub_s | fmul_s =>
    exact foot_fpuRRS (hasF_of_mem (by simp)) (hasF_of_mem (by simp)) (hasF_of_mem (by simp))
  case fadd_d | fsub_d | fmul_d =>
    exact foot_fpuRRD (hasD_of_mem (by simp)) (hasD_of_mem (by simp)) (hasD_of_mem (by simp))
  case fdiv_s =>
    have hRt : Foot (Covered (fdiv_s.outputs inst)) (Covered (fdiv_s.inputs inst)) (fprL inst.rt) :=
      foot_fprL (hasF_of_mem (by simp))
    exact foot_fpalign_bind fun _ => foot_fpalign_bind fun _ => foot_fpalign_bind fun _ =>
      .bind hRt fun _ => .bind (foot_div0 _) fun _ => foot_setFprL (hasF_of_mem (by simp))
        (.bind (foot_fprL (hasF_of_mem (by simp))) fun _ => .bind hRt fun _ => foot_ret _)
  case fdiv_d =>
    have hRt : HasD (Covered (fdiv_d.inputs inst)) inst.rt := hasD_of_mem (by simp)
    have hRs : HasD (Covered (fdiv_d.inputs inst)) inst.rs := hasD_of_mem (by simp)
    have hRd : HasD (Covered (fdiv_d.outputs inst)) inst.rd := hasD_of_mem (by simp)
    exact foot_fpalign_bind fun _ => foot_fpalign_bind fun _ => foot_fpalign_bind fun _ =>
      .bind (foot_fprD hRt.1 hRt.2) fun _ => .bind (foot_div0 _) fun _ => foot_setFprD hRd.1 hRd.2
        (.bind (foot_fprD hRs.1 hRs.2) fun _ => .bind (foot_fprD hRt.1 hRt.2) fun _ => foot_ret _)
  case fabs_s | fmov_s | fneg_s | cvt_s_w | cvt_w_s | fsqrt_s =>
    exact foot_fpuR (foot_fprL (hasF_of_mem (by simp))) (foot_setFprL (hasF_of_mem (by simp)))
  case fabs_d | fmov_d | fneg_d | fsqrt_d =>
    have hRs : HasD (Covered (fabs_d.inputs inst)) inst.rs := hasD_of_mem (by simp)
    have hRd : HasD (Covered (fabs_d.outputs inst)) inst.rd := hasD_of_mem (by simp)
    exact foot_fpuR (foot_fprD hRs.1 hRs.2) (foot_setFprD hRd.1 hRd.2)
  case cvt_s_d | cvt_w_d =>
    have hRs : HasD (Covered (cvt_s_d.inputs inst)) inst.rs := hasD_of_mem (by simp)
    exact foot_fpuR (foot_fprD hRs.1 hRs.2) (foot_setFprL (hasF_of_mem (by simp)))
  case cvt_d_s | cvt_d_w =>
    have hRd : HasD (Covered (cvt_d_s.outputs inst)) inst.rd := hasD_of_mem (by simp)
    exact foot_fpuR (foot_fprL (hasF_of_mem (by simp))) (foot_setFprD hRd.1 hRd.2)
  case c_eq_s | c_lt_s | c_le_s =>
    exact foot_fpuCmp (foot_fprL (hasF_of_mem (by simp))) (foot_fprL (hasF_of_mem (by simp)))
      (.inr (by simp [Reg.depName]))
  case c_eq_d | c_lt_d | c_le_d =>
    have hRs : HasD (Covered (c_eq_d.inputs inst)) inst.rs := hasD_of_mem (by simp)
    have hRt : HasD (Covered (c_eq_d.inputs inst)) inst.rt := hasD_of_mem (by simp)
    exact foot_fpuCmp (foot_fprD hRs.1 hRs.2) (foot_fprD hRt.1 hRt.2)
      (.inr (by simp [Reg.depName]))

/-- **The declarations cover the accesses**, for all but nine instructions. -/
theorem Opcode.foot_expr (hc : c.Local) (hw : c.simSwapWords < 2) (inst : Inst)
    (h : op ∉ undeclared) :
    Foot (Covered (op.outputs inst)) (Covered (op.inputs inst)) (op.expr c inst) := by
  have hKind : op.has F.ctrl ∨ op.has F.mem ∨ op.has F.icomp ∨ op.has F.fcomp ∨ op = .op_na ∨
      op = .break_ := by
    revert h
    cases op <;> decide
  rcases hKind with hOp | hOp | hOp | hOp | rfl | rfl
  · exact foot_ctrl inst h hOp
  · exact foot_mem hw inst h hOp
  · exact foot_icomp hc inst h hOp
  · exact foot_fcomp inst h hOp
  · exact foot_ret _
  · exact foot_ret _

/-- The declared names of an instruction are sound for its expression. -/
structure DependencesSound (pf : Platform) (c : Engine) (op : Opcode) (inst : Inst) : Prop where
  /-- whatever the registers hold, only covered registers are read and changed -/
  foot : Foot (Covered (op.outputs inst)) (Covered (op.inputs inst)) (op.expr c inst)
  /-- a run changes covered registers only -/
  writes : ∀ ld pc (x x' : Safe.Exec pf), Safe.run pf ld inst pc (op.expr c inst) x = .ok x' →
    ∀ r, ¬ Covered (op.outputs inst) r → x'.arch.regs r = x.arch.regs r
  /-- what a run does depends on covered registers only -/
  reads : ∀ ld pc (x y : Safe.Exec pf), AgreeOn (Covered (op.inputs inst)) x y →
    SameOutcome x y (Safe.run pf ld inst pc (op.expr c inst) x)
      (Safe.run pf ld inst pc (op.expr c inst) y)

/-- Memory is zero, `$3` points to the data segment, and register `n` holds `v`. -/
def pokedState (n : Fin 32) (v : Word) : Safe.Exec Platform.bare where
  arch :=
    { regs := Function.update (Function.update (fun _ => 0) (.r 3) 0x10000000#32) (.r n) v
      mem := fun _ => 0 }
  host := ()
  addr := 0
  nextPC := 0

end SimpleScalar

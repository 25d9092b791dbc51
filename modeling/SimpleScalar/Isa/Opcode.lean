import SimpleScalar.Isa.Basic

/-!
# The instruction table

`ss.def` defines every instruction once, with a `DEFINST` line that gives its
opcode mask, its functional unit class, its flags and up to two output and three
input dependence designators.  `Opcode` is the resulting enumeration and
`Opcode.definst` the table; the expressions are in `Isa/Def.lean`.

The simulators predecode the text segment: the opcode byte of a loaded
instruction is replaced by the enumeration value, with `OP_NA = 0` for a mask
that no instruction has.  `Inst.decode` reads that byte back.  `OP_NA` has the
zero entries of the C tables and no expression.

`Dep.name` maps a designator to the dependence name `sim-outorder.c` uses for it
(its macros `DGPR`, `DCGPR`, `DFPR_L` and so on); name `0` is both `$r0` and
"no dependence".
-/

namespace SimpleScalar

/-- `enum ss_opcode`: `OP_NA`, then the instructions in the order of `ss.def`. -/
inductive Opcode where
  | op_na
  | nop | jump | jal | jr | jalr | beq | bne | blez | bgtz | bltz | bgez | bc1f | bc1t | lb | lbu
  | lh | lhu | lw | dlw | l_s | l_d | lwl | lwr | sb | sh | sw | dsw | dsz | s_s | s_d | swl
  | swr | lb_rr | lbu_rr | lh_rr | lhu_rr | lw_rr | dlw_rr | l_s_rr | l_d_rr | sb_rr | sh_rr
  | sw_rr | dsw_rr | dsz_rr | s_s_rr | s_d_rr | l_s_rr_r2 | s_s_rr_r2 | lw_rr_r2 | sw_rr_r2 | add
  | addi | addu | addiu | sub | subu | mult | multu | div | divu | mfhi | mthi | mflo | mtlo
  | and_ | andi | or | ori | xor | xori | nor | sll | sllv | srl | srlv | sra | srav | slt | slti
  | sltu | sltiu | fadd_s | fadd_d | fsub_s | fsub_d | fmul_s | fmul_d | fdiv_s | fdiv_d | fabs_s
  | fabs_d | fmov_s | fmov_d | fneg_s | fneg_d | cvt_s_d | cvt_s_w | cvt_d_s | cvt_d_w | cvt_w_s
  | cvt_w_d | c_eq_s | c_eq_d | c_lt_s | c_lt_d | c_le_s | c_le_d | fsqrt_s | fsqrt_d | syscall
  | break_ | lui | mfc1 | dmfc1 | cfc1 | mtc1 | dmtc1 | ctc1
  deriving DecidableEq, Repr

/-- `enum ss_fu_class`. -/
inductive FuClass where
  | na | intALU | intMULT | intDIV | floatADD | floatCMP | floatCVT | floatMULT | floatDIV
  | floatSQRT | rdPort | wrPort
  deriving DecidableEq, Repr

/-! ### Instruction flags -/

namespace F

def icomp : Word := 0x00000001#32
def fcomp : Word := 0x00000002#32
def ctrl : Word := 0x00000004#32
def uncond : Word := 0x00000008#32
def cond : Word := 0x00000010#32
def mem : Word := 0x00000020#32
def load : Word := 0x00000040#32
def store : Word := 0x00000080#32
def disp : Word := 0x00000100#32
def rr : Word := 0x00000200#32
def trap : Word := 0x00000800#32
def longlat : Word := 0x00001000#32
def dirjmp : Word := 0x00002000#32
def indirjmp : Word := 0x00004000#32
def call : Word := 0x00008000#32
def fpcond : Word := 0x00010000#32

end F

/-! ### Dependence designators -/

/-- The operand field a designator is applied to; `BS` and `FS` are `RS`, `FT` is
`RT` and `FD` is `RD`. -/
inductive Field where
  | rs | rt | rd | r31
  deriving DecidableEq, Repr

def Field.value (inst : Inst) : Field → Nat
  | rs => inst.rs
  | rt => inst.rt
  | rd => inst.rd
  | r31 => 31

inductive Dep where
  | dna
  | dgpr (f : Field)
  | dcgpr (f : Field)
  | dgprD (f : Field)
  | dfprL (f : Field)
  | dfprF (f : Field)
  | dfprD (f : Field)
  | dhi
  | dlo
  | dfcc
  deriving DecidableEq, Repr

/-- `NA`, the name of no dependence. -/
def NA : Nat := 0

/-- `DTMP`, the reserved name that carries an effective address from the address
computation to the memory access. -/
def DTMP : Nat := 3 + 32 + 32

/-- `SS_TOTAL_REGS`, the number of dependence names. -/
def ssTotalRegs : Nat := 32 + 32 + 1 + 1 + 1 + 1 + 1 + 1

/-- `N & ~1`. -/
def evenFloor (n : Nat) : Nat := n - n % 2

/-- The dependence name of a designator. -/
def Dep.name (inst : Inst) : Dep → Nat
  | dna => NA
  | dgpr f => f.value inst
  | dcgpr f => if inst.compOp ≠ 0 then f.value inst else 0
  | dgprD f => evenFloor (f.value inst)
  | dfprL f => evenFloor (f.value inst + 32)
  | dfprF f => evenFloor (f.value inst + 32)
  | dfprD f => evenFloor (f.value inst + 32)
  | dhi => 0 + 32 + 32
  | dlo => 1 + 32 + 32
  | dfcc => 2 + 32 + 32

/-! ### The table -/

/-- A `DEFINST` line without its disassembler strings and its expression. -/
structure Definst where
  mask : Nat
  res : FuClass
  flags : Word
  o1 : Dep
  o2 : Dep
  i1 : Dep
  i2 : Dep
  i3 : Dep

namespace Opcode

def definst : Opcode → Definst
  | .op_na => ⟨0, .na, 0, .dna, .dna, .dna, .dna, .dna⟩
  | .nop => ⟨0x00, .intALU, F.icomp, .dna, .dna, .dna, .dna, .dna⟩
  | .jump => ⟨0x01, .na, (F.ctrl ||| F.uncond ||| F.dirjmp), .dna, .dna, .dna, .dna, .dna⟩
  | .jal => ⟨0x02, .intALU, (F.ctrl ||| F.uncond ||| F.dirjmp ||| F.call),
      (.dgpr .r31), .dna, .dna, .dna, .dna⟩
  | .jr => ⟨0x03, .na, (F.ctrl ||| F.uncond ||| F.indirjmp), .dna, .dna, (.dgpr .rs), .dna, .dna⟩
  | .jalr => ⟨0x04, .intALU, (F.ctrl ||| F.uncond ||| F.indirjmp ||| F.call),
      (.dgpr .rd), .dna, (.dgpr .rs), .dna, .dna⟩
  | .beq => ⟨0x05, .intALU, (F.ctrl ||| F.cond ||| F.dirjmp),
      .dna, .dna, (.dgpr .rs), (.dgpr .rt), .dna⟩
  | .bne => ⟨0x06, .intALU, (F.ctrl ||| F.cond ||| F.dirjmp),
      .dna, .dna, (.dgpr .rs), (.dgpr .rt), .dna⟩
  | .blez => ⟨0x07, .intALU, (F.ctrl ||| F.cond ||| F.dirjmp), .dna, .dna, (.dgpr .rs), .dna, .dna⟩
  | .bgtz => ⟨0x08, .intALU, (F.ctrl ||| F.cond ||| F.dirjmp), .dna, .dna, (.dgpr .rs), .dna, .dna⟩
  | .bltz => ⟨0x09, .intALU, (F.ctrl ||| F.cond ||| F.dirjmp), .dna, .dna, (.dgpr .rs), .dna, .dna⟩
  | .bgez => ⟨0x0a, .intALU, (F.ctrl ||| F.cond ||| F.dirjmp), .dna, .dna, (.dgpr .rs), .dna, .dna⟩
  | .bc1f => ⟨0x0b, .intALU, (F.ctrl ||| F.cond ||| F.dirjmp ||| F.fpcond),
      .dna, .dna, .dfcc, .dna, .dna⟩
  | .bc1t => ⟨0x0c, .intALU, (F.ctrl ||| F.cond ||| F.dirjmp ||| F.fpcond),
      .dna, .dna, .dfcc, .dna, .dna⟩
  | .lb => ⟨0x20, .rdPort, (F.mem ||| F.load ||| F.disp),
      (.dgpr .rt), (.dcgpr .rs), .dna, (.dgpr .rs), .dna⟩
  | .lbu => ⟨0x22, .rdPort, (F.mem ||| F.load ||| F.disp),
      (.dgpr .rt), (.dcgpr .rs), .dna, (.dgpr .rs), .dna⟩
  | .lh => ⟨0x24, .rdPort, (F.mem ||| F.load ||| F.disp),
      (.dgpr .rt), (.dcgpr .rs), .dna, (.dgpr .rs), .dna⟩
  | .lhu => ⟨0x26, .rdPort, (F.mem ||| F.load ||| F.disp),
      (.dgpr .rt), (.dcgpr .rs), .dna, (.dgpr .rs), .dna⟩
  | .lw => ⟨0x28, .rdPort, (F.mem ||| F.load ||| F.disp),
      (.dgpr .rt), (.dcgpr .rs), .dna, (.dgpr .rs), .dna⟩
  | .dlw => ⟨0x29, .rdPort, (F.mem ||| F.load ||| F.disp),
      (.dgprD .rt), (.dcgpr .rs), .dna, (.dgpr .rs), .dna⟩
  | .l_s => ⟨0x2a, .rdPort, (F.mem ||| F.load ||| F.disp),
      (.dfprL .rt), (.dcgpr .rs), .dna, (.dgpr .rs), .dna⟩
  | .l_d => ⟨0x2b, .rdPort, (F.mem ||| F.load ||| F.disp),
      (.dfprD .rt), (.dcgpr .rs), .dna, (.dgpr .rs), .dna⟩
  | .lwl => ⟨0x2c, .rdPort, (F.mem ||| F.load ||| F.disp),
      (.dgpr .rt), .dna, .dna, (.dgpr .rs), .dna⟩
  | .lwr => ⟨0x2d, .rdPort, (F.mem ||| F.load ||| F.disp),
      (.dgpr .rt), .dna, .dna, (.dgpr .rs), .dna⟩
  | .sb => ⟨0x30, .wrPort, (F.mem ||| F.store ||| F.disp),
      (.dcgpr .rs), .dna, (.dgpr .rt), (.dgpr .rs), .dna⟩
  | .sh => ⟨0x32, .wrPort, (F.mem ||| F.store ||| F.disp),
      (.dcgpr .rs), .dna, (.dgpr .rt), (.dgpr .rs), .dna⟩
  | .sw => ⟨0x34, .wrPort, (F.mem ||| F.store ||| F.disp),
      (.dcgpr .rs), .dna, (.dgpr .rt), (.dgpr .rs), .dna⟩
  | .dsw => ⟨0x35, .wrPort, (F.mem ||| F.store ||| F.disp),
      (.dcgpr .rs), .dna, (.dgprD .rt), (.dgpr .rs), .dna⟩
  | .dsz => ⟨0x38, .wrPort, (F.mem ||| F.store ||| F.disp),
      (.dcgpr .rs), .dna, .dna, (.dgpr .rs), .dna⟩
  | .s_s => ⟨0x36, .wrPort, (F.mem ||| F.store ||| F.disp),
      (.dcgpr .rs), .dna, (.dfprL .rt), (.dgpr .rs), .dna⟩
  | .s_d => ⟨0x37, .wrPort, (F.mem ||| F.store ||| F.disp),
      (.dcgpr .rs), .dna, (.dfprD .rt), (.dgpr .rs), .dna⟩
  | .swl => ⟨0x39, .wrPort, (F.mem ||| F.store ||| F.disp),
      .dna, .dna, (.dgpr .rt), (.dgpr .rs), .dna⟩
  | .swr => ⟨0x3a, .wrPort, (F.mem ||| F.store ||| F.disp),
      .dna, .dna, (.dgpr .rt), (.dgpr .rs), .dna⟩
  | .lb_rr => ⟨0xc0, .rdPort, (F.mem ||| F.load ||| F.rr),
      (.dgpr .rt), (.dcgpr .rs), .dna, (.dgpr .rs), (.dgpr .rd)⟩
  | .lbu_rr => ⟨0xc1, .rdPort, (F.mem ||| F.load ||| F.rr),
      (.dgpr .rt), (.dcgpr .rs), .dna, (.dgpr .rs), (.dgpr .rd)⟩
  | .lh_rr => ⟨0xc2, .rdPort, (F.mem ||| F.load ||| F.rr),
      (.dgpr .rt), (.dcgpr .rs), .dna, (.dgpr .rs), (.dgpr .rd)⟩
  | .lhu_rr => ⟨0xc3, .rdPort, (F.mem ||| F.load ||| F.rr),
      (.dgpr .rt), (.dcgpr .rs), .dna, (.dgpr .rs), (.dgpr .rd)⟩
  | .lw_rr => ⟨0xc4, .rdPort, (F.mem ||| F.load ||| F.rr),
      (.dgpr .rt), (.dcgpr .rs), .dna, (.dgpr .rs), (.dgpr .rd)⟩
  | .dlw_rr => ⟨0xce, .rdPort, (F.mem ||| F.load ||| F.rr),
      (.dgprD .rt), (.dcgpr .rs), .dna, (.dgpr .rs), (.dgpr .rd)⟩
  | .l_s_rr => ⟨0xc5, .rdPort, (F.mem ||| F.load ||| F.rr),
      (.dfprL .rt), (.dcgpr .rs), .dna, (.dgpr .rs), (.dgpr .rd)⟩
  | .l_d_rr => ⟨0xcf, .rdPort, (F.mem ||| F.load ||| F.rr),
      (.dfprD .rt), (.dcgpr .rs), .dna, (.dgpr .rs), (.dgpr .rd)⟩
  | .sb_rr => ⟨0xc6, .wrPort, (F.mem ||| F.store ||| F.rr),
      (.dcgpr .rs), .dna, (.dgpr .rt), (.dgpr .rs), (.dgpr .rd)⟩
  | .sh_rr => ⟨0xc7, .wrPort, (F.mem ||| F.store ||| F.rr),
      (.dcgpr .rs), .dna, (.dgpr .rt), (.dgpr .rs), (.dgpr .rd)⟩
  | .sw_rr => ⟨0xc8, .wrPort, (F.mem ||| F.store ||| F.rr),
      (.dcgpr .rs), .dna, (.dgpr .rt), (.dgpr .rs), (.dgpr .rd)⟩
  | .dsw_rr => ⟨0xd0, .wrPort, (F.mem ||| F.store ||| F.rr),
      (.dcgpr .rs), .dna, (.dgprD .rt), (.dgpr .rs), (.dgpr .rd)⟩
  | .dsz_rr => ⟨0xd1, .wrPort, (F.mem ||| F.store ||| F.rr),
      (.dcgpr .rs), .dna, .dna, (.dgpr .rs), (.dgpr .rd)⟩
  | .s_s_rr => ⟨0xc9, .wrPort, (F.mem ||| F.store ||| F.rr),
      (.dcgpr .rs), .dna, (.dfprL .rt), (.dgpr .rs), (.dgpr .rd)⟩
  | .s_d_rr => ⟨0xd2, .wrPort, (F.mem ||| F.store ||| F.rr),
      (.dcgpr .rs), .dna, (.dfprD .rt), (.dgpr .rs), (.dgpr .rd)⟩
  | .l_s_rr_r2 => ⟨0xca, .rdPort, (F.mem ||| F.load ||| F.rr),
      (.dfprL .rt), (.dcgpr .rs), .dna, (.dgpr .rs), (.dgpr .rd)⟩
  | .s_s_rr_r2 => ⟨0xcb, .wrPort, (F.mem ||| F.store ||| F.rr),
      (.dcgpr .rs), .dna, (.dfprL .rt), (.dgpr .rs), (.dgpr .rd)⟩
  | .lw_rr_r2 => ⟨0xcc, .rdPort, (F.mem ||| F.load ||| F.rr),
      (.dgpr .rt), (.dcgpr .rs), .dna, (.dgpr .rs), (.dgpr .rd)⟩
  | .sw_rr_r2 => ⟨0xcd, .wrPort, (F.mem ||| F.store ||| F.rr),
      (.dcgpr .rs), .dna, (.dgpr .rt), (.dgpr .rs), (.dgpr .rd)⟩
  | .add => ⟨0x40, .intALU, F.icomp, (.dgpr .rd), .dna, (.dgpr .rs), (.dgpr .rt), .dna⟩
  | .addi => ⟨0x41, .intALU, F.icomp, (.dgpr .rt), .dna, (.dgpr .rs), .dna, .dna⟩
  | .addu => ⟨0x42, .intALU, F.icomp, (.dgpr .rd), .dna, (.dgpr .rs), (.dgpr .rt), .dna⟩
  | .addiu => ⟨0x43, .intALU, F.icomp, (.dgpr .rt), .dna, (.dgpr .rs), .dna, .dna⟩
  | .sub => ⟨0x44, .intALU, F.icomp, (.dgpr .rd), .dna, (.dgpr .rs), (.dgpr .rt), .dna⟩
  | .subu => ⟨0x45, .intALU, F.icomp, (.dgpr .rd), .dna, (.dgpr .rs), (.dgpr .rt), .dna⟩
  | .mult => ⟨0x46, .intMULT, (F.icomp ||| F.longlat), .dhi, .dlo, (.dgpr .rt), (.dgpr .rs), .dna⟩
  | .multu => ⟨0x47, .intMULT, (F.icomp ||| F.longlat), .dhi, .dlo, (.dgpr .rt), (.dgpr .rs), .dna⟩
  | .div => ⟨0x48, .intDIV, (F.icomp ||| F.longlat), .dhi, .dlo, (.dgpr .rt), (.dgpr .rs), .dna⟩
  | .divu => ⟨0x49, .intDIV, (F.icomp ||| F.longlat), .dhi, .dlo, (.dgpr .rt), (.dgpr .rs), .dna⟩
  | .mfhi => ⟨0x4a, .intALU, F.icomp, (.dgpr .rd), .dna, .dhi, .dna, .dna⟩
  | .mthi => ⟨0x4b, .intALU, F.icomp, .dhi, .dna, (.dgpr .rs), .dna, .dna⟩
  | .mflo => ⟨0x4c, .intALU, F.icomp, (.dgpr .rd), .dna, .dlo, .dna, .dna⟩
  | .mtlo => ⟨0x4d, .intALU, F.icomp, .dlo, .dna, (.dgpr .rs), .dna, .dna⟩
  | .and_ => ⟨0x4e, .intALU, F.icomp, (.dgpr .rd), .dna, (.dgpr .rs), (.dgpr .rt), .dna⟩
  | .andi => ⟨0x4f, .intALU, F.icomp, (.dgpr .rt), .dna, (.dgpr .rs), .dna, .dna⟩
  | .or => ⟨0x50, .intALU, F.icomp, (.dgpr .rd), .dna, (.dgpr .rs), (.dgpr .rt), .dna⟩
  | .ori => ⟨0x51, .intALU, F.icomp, (.dgpr .rt), .dna, (.dgpr .rs), .dna, .dna⟩
  | .xor => ⟨0x52, .intALU, F.icomp, (.dgpr .rd), .dna, (.dgpr .rs), (.dgpr .rt), .dna⟩
  | .xori => ⟨0x53, .intALU, F.icomp, (.dgpr .rt), .dna, (.dgpr .rs), .dna, .dna⟩
  | .nor => ⟨0x54, .intALU, F.icomp, (.dgpr .rd), .dna, (.dgpr .rs), (.dgpr .rt), .dna⟩
  | .sll => ⟨0x55, .intALU, F.icomp, (.dgpr .rd), .dna, (.dgpr .rt), .dna, .dna⟩
  | .sllv => ⟨0x56, .intALU, F.icomp, (.dgpr .rd), .dna, (.dgpr .rt), (.dgpr .rs), .dna⟩
  | .srl => ⟨0x57, .intALU, F.icomp, (.dgpr .rd), .dna, (.dgpr .rt), .dna, .dna⟩
  | .srlv => ⟨0x58, .intALU, F.icomp, (.dgpr .rd), .dna, (.dgpr .rt), (.dgpr .rs), .dna⟩
  | .sra => ⟨0x59, .intALU, F.icomp, (.dgpr .rd), .dna, (.dgpr .rt), .dna, .dna⟩
  | .srav => ⟨0x5a, .intALU, F.icomp, (.dgpr .rd), .dna, (.dgpr .rt), (.dgpr .rs), .dna⟩
  | .slt => ⟨0x5b, .intALU, F.icomp, (.dgpr .rd), .dna, (.dgpr .rs), (.dgpr .rt), .dna⟩
  | .slti => ⟨0x5c, .intALU, F.icomp, (.dgpr .rt), .dna, (.dgpr .rs), .dna, .dna⟩
  | .sltu => ⟨0x5d, .intALU, F.icomp, (.dgpr .rd), .dna, (.dgpr .rs), (.dgpr .rt), .dna⟩
  | .sltiu => ⟨0x5e, .intALU, F.icomp, (.dgpr .rt), .dna, (.dgpr .rs), .dna, .dna⟩
  | .fadd_s => ⟨0x70, .floatADD, F.fcomp, (.dfprF .rd), .dna, (.dfprF .rs), (.dfprF .rt), .dna⟩
  | .fadd_d => ⟨0x71, .floatADD, F.fcomp, (.dfprD .rd), .dna, (.dfprD .rs), (.dfprD .rt), .dna⟩
  | .fsub_s => ⟨0x72, .floatADD, F.fcomp, (.dfprF .rd), .dna, (.dfprF .rs), (.dfprF .rt), .dna⟩
  | .fsub_d => ⟨0x73, .floatADD, F.fcomp, (.dfprD .rd), .dna, (.dfprD .rs), (.dfprD .rt), .dna⟩
  | .fmul_s => ⟨0x74, .floatMULT, (F.fcomp ||| F.longlat),
      (.dfprF .rd), .dna, (.dfprF .rs), (.dfprF .rt), .dna⟩
  | .fmul_d => ⟨0x75, .floatMULT, (F.fcomp ||| F.longlat),
      (.dfprD .rd), .dna, (.dfprD .rs), (.dfprD .rt), .dna⟩
  | .fdiv_s => ⟨0x76, .floatDIV, (F.fcomp ||| F.longlat),
      (.dfprF .rd), .dna, (.dfprF .rs), (.dfprF .rt), .dna⟩
  | .fdiv_d => ⟨0x77, .floatDIV, (F.fcomp ||| F.longlat),
      (.dfprD .rd), .dna, (.dfprD .rs), (.dfprD .rt), .dna⟩
  | .fabs_s => ⟨0x78, .floatADD, F.fcomp, (.dfprF .rd), .dna, (.dfprF .rs), .dna, .dna⟩
  | .fabs_d => ⟨0x79, .floatADD, F.fcomp, (.dfprD .rd), .dna, (.dfprD .rs), .dna, .dna⟩
  | .fmov_s => ⟨0x7a, .floatADD, F.fcomp, (.dfprF .rd), .dna, (.dfprF .rs), .dna, .dna⟩
  | .fmov_d => ⟨0x7b, .floatADD, F.fcomp, (.dfprD .rd), .dna, (.dfprD .rs), .dna, .dna⟩
  | .fneg_s => ⟨0x7c, .floatADD, F.fcomp, (.dfprF .rd), .dna, (.dfprF .rs), .dna, .dna⟩
  | .fneg_d => ⟨0x7d, .floatADD, F.fcomp, (.dfprD .rd), .dna, (.dfprD .rs), .dna, .dna⟩
  | .cvt_s_d => ⟨0x80, .floatCVT, F.fcomp, (.dfprF .rd), .dna, (.dfprD .rs), .dna, .dna⟩
  | .cvt_s_w => ⟨0x81, .floatCVT, F.fcomp, (.dfprF .rd), .dna, (.dfprL .rs), .dna, .dna⟩
  | .cvt_d_s => ⟨0x82, .floatCVT, F.fcomp, (.dfprD .rd), .dna, (.dfprF .rs), .dna, .dna⟩
  | .cvt_d_w => ⟨0x83, .floatCVT, F.fcomp, (.dfprD .rd), .dna, (.dfprL .rs), .dna, .dna⟩
  | .cvt_w_s => ⟨0x84, .floatCVT, F.fcomp, (.dfprL .rd), .dna, (.dfprF .rs), .dna, .dna⟩
  | .cvt_w_d => ⟨0x85, .floatCVT, F.fcomp, (.dfprL .rd), .dna, (.dfprD .rs), .dna, .dna⟩
  | .c_eq_s => ⟨0x90, .floatCMP, F.fcomp, .dfcc, .dna, (.dfprF .rs), (.dfprF .rt), .dna⟩
  | .c_eq_d => ⟨0x91, .floatCMP, F.fcomp, .dfcc, .dna, (.dfprD .rs), (.dfprD .rt), .dna⟩
  | .c_lt_s => ⟨0x92, .floatCMP, F.fcomp, .dfcc, .dna, (.dfprF .rs), (.dfprF .rt), .dna⟩
  | .c_lt_d => ⟨0x93, .floatCMP, F.fcomp, .dfcc, .dna, (.dfprD .rs), (.dfprD .rt), .dna⟩
  | .c_le_s => ⟨0x94, .floatCMP, F.fcomp, .dfcc, .dna, (.dfprF .rs), (.dfprF .rt), .dna⟩
  | .c_le_d => ⟨0x95, .floatCMP, F.fcomp, .dfcc, .dna, (.dfprD .rs), (.dfprD .rt), .dna⟩
  | .fsqrt_s => ⟨0x96, .floatSQRT, (F.fcomp ||| F.longlat),
      (.dfprF .rd), .dna, (.dfprF .rs), .dna, .dna⟩
  | .fsqrt_d => ⟨0x97, .floatSQRT, (F.fcomp ||| F.longlat),
      (.dfprD .rd), .dna, (.dfprD .rs), .dna, .dna⟩
  | .syscall => ⟨0xa0, .na, F.trap, .dna, .dna, .dna, .dna, .dna⟩
  | .break_ => ⟨0xa1, .na, F.trap, .dna, .dna, .dna, .dna, .dna⟩
  | .lui => ⟨0xa2, .intALU, F.icomp, (.dgpr .rt), .dna, .dna, .dna, .dna⟩
  | .mfc1 => ⟨0xa3, .intALU, F.icomp, (.dgpr .rt), .dna, (.dfprL .rs), .dna, .dna⟩
  | .dmfc1 => ⟨0xa7, .intALU, F.icomp, (.dgprD .rt), .dna, (.dfprD .rs), .dna, .dna⟩
  | .cfc1 => ⟨0xa4, .intALU, F.icomp, .dna, .dna, .dna, .dna, .dna⟩
  | .mtc1 => ⟨0xa5, .intALU, F.icomp, (.dfprL .rs), .dna, (.dgpr .rt), .dna, .dna⟩
  | .dmtc1 => ⟨0xa8, .intALU, F.icomp, (.dfprD .rs), .dna, (.dgprD .rt), .dna, .dna⟩
  | .ctc1 => ⟨0xa6, .intALU, F.icomp, .dna, .dna, .dna, .dna, .dna⟩

/-- `SS_OP_FLAGS`. -/
def flags (op : Opcode) : Word := op.definst.flags

/-- `SS_OP_FUCLASS`. -/
def fuClass (op : Opcode) : FuClass := op.definst.res

/-- Does the instruction carry every flag of `m`? -/
def has (op : Opcode) (m : Word) : Bool := op.flags &&& m == m

/-- The numbering of `enum ss_opcode`. -/
def all : List Opcode :=
  [.op_na, .nop, .jump, .jal, .jr, .jalr, .beq, .bne, .blez, .bgtz, .bltz, .bgez, .bc1f, .bc1t, .lb,
   .lbu, .lh, .lhu, .lw, .dlw, .l_s, .l_d, .lwl, .lwr, .sb, .sh, .sw, .dsw, .dsz, .s_s, .s_d,
   .swl, .swr, .lb_rr, .lbu_rr, .lh_rr, .lhu_rr, .lw_rr, .dlw_rr, .l_s_rr, .l_d_rr, .sb_rr,
   .sh_rr, .sw_rr, .dsw_rr, .dsz_rr, .s_s_rr, .s_d_rr, .l_s_rr_r2, .s_s_rr_r2, .lw_rr_r2,
   .sw_rr_r2, .add, .addi, .addu, .addiu, .sub, .subu, .mult, .multu, .div, .divu, .mfhi, .mthi,
   .mflo, .mtlo, .and_, .andi, .or, .ori, .xor, .xori, .nor, .sll, .sllv, .srl, .srlv, .sra,
   .srav, .slt, .slti, .sltu, .sltiu, .fadd_s, .fadd_d, .fsub_s, .fsub_d, .fmul_s, .fmul_d,
   .fdiv_s, .fdiv_d, .fabs_s, .fabs_d, .fmov_s, .fmov_d, .fneg_s, .fneg_d, .cvt_s_d, .cvt_s_w,
   .cvt_d_s, .cvt_d_w, .cvt_w_s, .cvt_w_d, .c_eq_s, .c_eq_d, .c_lt_s, .c_lt_d, .c_le_s, .c_le_d,
   .fsqrt_s, .fsqrt_d, .syscall, .break_, .lui, .mfc1, .dmfc1, .cfc1, .mtc1, .dmtc1, .ctc1]

end Opcode

/-- `SS_OPCODE` of a predecoded instruction; `none` is a value past `OP_MAX`. -/
def Inst.decode (inst : Inst) : Option Opcode := Opcode.all[(inst.a &&& 0xff#32).toNat]?

/-- `SS_OP_FLAGS(SS_OPCODE(inst))`; past `OP_MAX` the table is read out of bounds. -/
def Inst.opFlags (inst : Inst) : Except Stop Word :=
  match inst.decode with
  | some op => .ok op.flags
  | none => .error .undefined

namespace Opcode

/-! ### Facts about the table

They are read off the table once, by running through it; later proofs use them by
name. -/

/-- What is no store is a load, by the masks that `lsq_refresh` and the writeback test. -/
theorem load_of_not_store (op : Opcode) (h : op.has F.mem = true)
    (hStore : op.has (F.mem ||| F.store) = false) : op.has (F.mem ||| F.load) = true := by
  revert h hStore
  cases op <;> decide

/-- Nothing but memory operations is marked as a store. -/
theorem has_store (op : Opcode) : op.has F.store = op.has (F.mem ||| F.store) := by
  cases op <;> decide

theorem not_load_of_store (op : Opcode) (h : op.has (F.mem ||| F.store) = true) :
    op.has (F.mem ||| F.load) = false := by
  revert h
  cases op <;> decide

/-- A load needs a unit. -/
theorem load_fuClass (op : Opcode) (h : op.has (F.mem ||| F.load)) : op.fuClass ≠ .na := by
  revert h
  cases op <;> decide

end Opcode

end SimpleScalar

import SimpleScalar.Isa.Micro

/-!
# The instruction definitions

The expressions of `ss.def`, with the helper functions of its `IMPL` section, as
`Micro` programs.  What a simulator may choose before it includes the file is
gathered in `Engine`: the floating point operations of the host, the division and
conversion macros `IDIV`, `IMOD`, `FDIV` and `FINT` (which `sim-outorder`
redefines), `sim_swap_words`, and the byte order the mask table is compiled for.

A shift by 32 or more and `INT_MIN / -1` are undefined in C.  A left shift of a
negative `int` is taken as the machine's shift.
-/

namespace SimpleScalar

/-- Floating point operations of the host on register bits; a double is the pair
of words it overlays. -/
structure Fpu where
  addS : Word → Word → Word
  subS : Word → Word → Word
  mulS : Word → Word → Word
  divS : Word → Word → Word
  absS : Word → Word
  negS : Word → Word
  sqrtS : Word → Word
  addD : Word × Word → Word × Word → Word × Word
  subD : Word × Word → Word × Word → Word × Word
  mulD : Word × Word → Word × Word → Word × Word
  divD : Word × Word → Word × Word → Word × Word
  absD : Word × Word → Word × Word
  negD : Word × Word → Word × Word
  sqrtD : Word × Word → Word × Word
  cvtSD : Word × Word → Word
  cvtSW : Word → Word
  cvtDS : Word → Word × Word
  cvtDW : Word → Word × Word
  intS : Word → Word
  intD : Word × Word → Word
  isNanS : Word → Bool
  isNanD : Word × Word → Bool
  isZeroS : Word → Bool
  isZeroD : Word × Word → Bool
  eqS : Word → Word → Bool
  ltS : Word → Word → Bool
  leS : Word → Word → Bool
  eqD : Word × Word → Word × Word → Bool
  ltD : Word × Word → Word × Word → Bool
  leD : Word × Word → Word × Word → Bool

/-- A host without floating point. -/
def Fpu.none : Fpu where
  addS _ _ := 0
  subS _ _ := 0
  mulS _ _ := 0
  divS _ _ := 0
  absS _ := 0
  negS _ := 0
  sqrtS _ := 0
  addD _ _ := 0
  subD _ _ := 0
  mulD _ _ := 0
  divD _ _ := 0
  absD _ := 0
  negD _ := 0
  sqrtD _ := 0
  cvtSD _ := 0
  cvtSW _ := 0
  cvtDS _ := 0
  cvtDW _ := 0
  intS _ := 0
  intD _ := 0
  isNanS _ := false
  isNanD _ := false
  isZeroS _ := true
  isZeroD _ := true
  eqS _ _ := true
  ltS _ _ := false
  leS _ _ := true
  eqD _ _ := true
  ltD _ _ := false
  leD _ _ := true

/-- What a simulator fixes before it includes `ss.def`. -/
structure Engine where
  fpu : Fpu
  idiv : Word → Word → Micro Word
  imod : Word → Word → Micro Word
  idivu : Word → Word → Micro Word
  imodu : Word → Word → Micro Word
  fdivS : Word → Word → Word
  fdivD : Word × Word → Word × Word → Word × Word
  fintS : Word → Word
  fintD : Word × Word → Word
  simSwapWords : Nat
  bigEndian : Bool

/-! ### Signed division of C -/

def cDiv (a b : Word) : Micro Word :=
  if b = 0 ∨ (a = 0x80000000#32 ∧ b = 0xffffffff#32) then .undefined else .ret (a.sdiv b)

def cMod (a b : Word) : Micro Word :=
  if b = 0 ∨ (a = 0x80000000#32 ∧ b = 0xffffffff#32) then .undefined else .ret (a.srem b)

def cDivu (a b : Word) : Micro Word := if b = 0 then .undefined else .ret (a / b)

def cModu (a b : Word) : Micro Word := if b = 0 then .undefined else .ret (a % b)

/-- The macros of `ss.h`, which `sim-safe` keeps. -/
def Engine.default (fpu : Fpu) (simSwapWords : Nat) (bigEndian : Bool) : Engine where
  fpu
  idiv := cDiv
  imod := cMod
  idivu := cDivu
  imodu := cModu
  fdivS := fpu.divS
  fdivD := fpu.divD
  fintS := fpu.intS
  fintD := fpu.intD
  simSwapWords
  bigEndian

/-- The macros `ruu_dispatch` redefines: a zero denominator gives zero, a NaN
converts to zero.  The zero of `FDIV` is the integer `0`, converted. -/
def Engine.outorder (fpu : Fpu) (simSwapWords : Nat) (bigEndian : Bool) : Engine where
  fpu
  idiv a b := if b = 0 then .ret 0 else cDiv a b
  imod a b := if b = 0 then .ret 0 else cMod a b
  idivu a b := if b = 0 then .ret 0 else cDivu a b
  imodu a b := if b = 0 then .ret 0 else cModu a b
  fdivS a b := if fpu.isZeroS b then fpu.cvtSW 0 else fpu.divS a b
  fdivD a b := if fpu.isZeroD b then fpu.cvtDW 0 else fpu.divD a b
  fintS a := if fpu.isNanS a then 0 else fpu.intS a
  fintD a := if fpu.isNanD a then 0 else fpu.intD a
  simSwapWords
  bigEndian

/-! ### Auto-update addressing -/

/-- `ss_fore_tab[size-1][op]` and `ss_aft_tab[size-1][op]`, for the sizes
`INC_DEC` is used with; the tables have five columns. -/
def ssForeTab (size op : Nat) : Micro Word :=
  match op with
  | 0 => .ret 0
  | 1 => .ret 0
  | 2 => .ret 0
  | 3 => .ret (BitVec.ofNat 32 size)
  | 4 => .ret (-BitVec.ofNat 32 size)
  | _ => .undefined

def ssAftTab (size op : Nat) : Micro Word :=
  match op with
  | 0 => .ret 0
  | 1 => .ret (BitVec.ofNat 32 size)
  | 2 => .ret (-BitVec.ofNat 32 size)
  | 3 => .ret 0
  | 4 => .ret 0
  | _ => .undefined

/-- `INC_DEC`. -/
def incDec (inst : Inst) (expr : Micro Unit) (reg size : Nat) : Micro Unit := do
  setGpr reg (do return (← gpr reg) + (← ssForeTab size inst.compOp))
  expr
  setGpr reg (do return (← gpr reg) + (← ssAftTab size inst.compOp))

/-! ### Unaligned words -/

/-- `ss_lr_masks`. -/
def ssLrMasks (bigEndian : Bool) (n : Nat) : Word :=
  match bigEndian, n with
  | true, 0 => 0x00000000#32
  | true, 1 => 0x000000ff#32
  | true, 2 => 0x0000ffff#32
  | true, 3 => 0x00ffffff#32
  | true, _ => 0xffffffff#32
  | false, 0 => 0xffffffff#32
  | false, 1 => 0x00ffffff#32
  | false, 2 => 0x0000ffff#32
  | false, 3 => 0x000000ff#32
  | false, _ => 0x00000000#32

def wlSize (addr : Word) : Nat := 4 - (addr &&& 3#32).toNat

def wlBase (addr : Word) : Word := addr &&& ~~~3#32

def wlProtMask (bigEndian : Bool) (addr : Word) : Word := ssLrMasks bigEndian (4 - wlSize addr)

def wrSize (addr : Word) : Nat := (addr &&& 3#32).toNat + 1

def wrBase (addr : Word) : Word := addr &&& ~~~3#32

def wrProtMask (bigEndian : Bool) (addr : Word) : Word := ~~~(ssLrMasks bigEndian (wrSize addr))

/-! ### Helper functions -/

def cShl (v : Word) (n : Nat) : Micro Word := if n < 32 then .ret (v <<< n) else .undefined

def cShr (v : Word) (n : Nat) : Micro Word := if n < 32 then .ret (v >>> n) else .undefined

/-- `>>` on an `int`, arithmetic on the hosts the simulator supports. -/
def cSar (v : Word) (n : Nat) : Micro Word := if n < 32 then .ret (v.sshiftRight n) else .undefined

def signBit (v : Word) : Bool := v &&& 0x80000000#32 ≠ 0

/-- `extractl(word, pos, 1)`. -/
def extractBit (v : Word) (pos : Nat) : Word := (v >>> pos) &&& 1#32

/-- The shift loop of `InstSRA` and `InstSRAV`. -/
def sraLoop (rd : Nat) : Nat → Micro Unit
  | 0 => .ret ()
  | n + 1 => do
    setGpr rd (do return ((← gpr rd).sshiftRight 1) ||| 0x80000000#32)
    sraLoop rd n

def instSRA (inst : Inst) : Micro Unit := do
  if signBit (← gpr inst.rt) then
    setGpr inst.rd (gpr inst.rt)
    sraLoop inst.rd inst.shamt
  else
    setGpr inst.rd (do cSar (← gpr inst.rt) inst.shamt)

def instSRAV (inst : Inst) : Micro Unit := do
  let shamt := ((← gpr inst.rs) &&& 0x1f#32).toNat
  if signBit (← gpr inst.rt) then
    setGpr inst.rd (gpr inst.rt)
    sraLoop inst.rd shamt
  else
    setGpr inst.rd (do cSar (← gpr inst.rt) shamt)

/-- The loop of `InstMULT` and `InstMULTU`, with `n` rounds left: `i = 31 - n`.
The operands are expressions, since `InstMULTU` reads its registers in the loop. -/
def multLoop (op1 op2 : Micro Word) : Nat → Micro Unit
  | 0 => .ret ()
  | n + 1 => do
    setHi (do return (← hi) <<< 1)
    setHi (do return (← hi) + extractBit (← lo) 31)
    setLo (do return (← lo) <<< 1)
    if extractBit (← op1) n = 1 then
      if 0xffffffff#32 - (← lo) < (← op2) then
        setHi (do return (← hi) + 1)
      setLo (do return (← lo) + (← op2))
    multLoop op1 op2 n

def instMULT (inst : Inst) : Micro Unit := do
  setHi (.ret 0)
  setLo (.ret 0)
  let op1 ← gpr inst.rs
  let op2 ← gpr inst.rt
  let sign1 := signBit op1
  let sign2 := signBit op2
  let op1 := if sign1 then ~~~op1 + 1 else op1
  let op2 := if sign2 then ~~~op2 + 1 else op2
  if signBit op1 then
    setLo (.ret op2)
  multLoop (.ret op1) (.ret op2) 31
  if sign1 ≠ sign2 then
    setLo (do return ~~~(← lo))
    setHi (do return ~~~(← hi))
    if (← lo) = 0xffffffff#32 then
      setHi (do return (← hi) + 1)
    setLo (do return (← lo) + 1)

def instMULTU (inst : Inst) : Micro Unit := do
  setHi (.ret 0)
  setLo (.ret 0)
  if signBit (← gpr inst.rs) then
    setLo (gpr inst.rt)
  multLoop (gpr inst.rs) (gpr inst.rt) 31

/-! ### The instructions -/

/-- The target of a PC-relative branch. -/
def branchTarget (pc : Word) (inst : Inst) : Word := pc + 8 + (inst.imm <<< 2)

/-- The target of an absolute jump. -/
def jumpTarget (pc : Word) (inst : Inst) : Word := (pc &&& 0xf0000000#32) ||| (inst.targ <<< 2)

/-- A conditional branch: the target is set before the condition is evaluated. -/
def branch (inst : Inst) (taken : Micro Bool) : Micro Unit := do
  setTpc (branchTarget (← cpc) inst)
  if ← taken then setNpc (branchTarget (← cpc) inst)

/-- `GPR(BS)+OFS`. -/
def dispAddr (inst : Inst) : Micro Word := do return (← gpr inst.rs) + inst.imm

/-- `GPR(BS)+GPR(RD)`. -/
def rrAddr (inst : Inst) : Micro Word := do return (← gpr inst.rs) + (← gpr inst.rd)

/-- A single load into an integer register. -/
def loadGpr (inst : Inst) (read : Word → Micro Word) (addr : Micro Word) (size : Nat) :
    Micro Unit :=
  incDec inst (setGpr inst.rt (do read (← addr))) inst.rs size

/-- A single load into a floating point register. -/
def loadFpr (inst : Inst) (addr : Micro Word) : Micro Unit :=
  incDec inst (setFprL inst.rt (do readWord (← addr))) inst.rs 4

/-- A single store of an integer register. -/
def storeGpr (inst : Inst) (write : Word → Word → Micro Unit) (addr : Micro Word) (size : Nat) :
    Micro Unit :=
  incDec inst (do write (← gpr inst.rt) (← addr)) inst.rs size

/-- A single store of a floating point register. -/
def storeFpr (inst : Inst) (addr : Micro Word) : Micro Unit :=
  incDec inst (do writeWord (← fprL inst.rt) (← addr)) inst.rs 4

/-- A three-register operation on integers. -/
def aluRR (inst : Inst) (f : Word → Word → Word) : Micro Unit :=
  setGpr inst.rd (do return f (← gpr inst.rs) (← gpr inst.rt))

/-- A register-immediate operation on integers. -/
def aluRI (inst : Inst) (imm : Word) (f : Word → Word → Word) : Micro Unit :=
  setGpr inst.rt (do return f (← gpr inst.rs) imm)

def fpuRRS (inst : Inst) (f : Word → Word → Word) : Micro Unit := do
  fpalign inst.rd
  fpalign inst.rs
  fpalign inst.rt
  setFprL inst.rd (do return f (← fprL inst.rs) (← fprL inst.rt))

def fpuRRD (inst : Inst) (f : Word × Word → Word × Word → Word × Word) : Micro Unit := do
  fpalign inst.rd
  fpalign inst.rs
  fpalign inst.rt
  setFprD inst.rd (do return f (← fprD inst.rs) (← fprD inst.rt))

/-- A one-operand floating point operation, with the accessors of its result and
of its operand. -/
def fpuR {α β : Type} (inst : Inst) (set : Nat → Micro β → Micro Unit) (get : Nat → Micro α)
    (f : α → β) : Micro Unit := do
  fpalign inst.rd
  fpalign inst.rs
  set inst.rd (do return f (← get inst.rs))

def fpuCmp {α : Type} (inst : Inst) (get : Nat → Micro α) (f : α → α → Bool) : Micro Unit := do
  fpalign inst.rs
  fpalign inst.rt
  setFcc (do return if f (← get inst.rs) (← get inst.rt) then 1 else 0)

/-- `EXPR` of the instruction; `OP_NA` has none. -/
def Opcode.expr (c : Engine) (inst : Inst) : Opcode → Micro Unit
  | .op_na => .ret ()
  | .nop =>
    .ret ()
  | .jump =>
    do
      setTpc (jumpTarget (← cpc) inst)
      setNpc (jumpTarget (← cpc) inst)
  | .jal =>
    do
      setTpc (jumpTarget (← cpc) inst)
      setNpc (jumpTarget (← cpc) inst)
      setGpr 31 (do return (← cpc) + 8)
  | .jr =>
    do
      talign (← gpr inst.rs)
      setTpc (← gpr inst.rs)
      setNpc (← gpr inst.rs)
  | .jalr =>
    do
      talign (← gpr inst.rs)
      setGpr inst.rd (do return (← cpc) + 8)
      setTpc (← gpr inst.rs)
      setNpc (← gpr inst.rs)
  | .beq => branch inst (do return decide ((← gpr inst.rs) = (← gpr inst.rt)))
  | .bne => branch inst (do return decide ((← gpr inst.rs) ≠ (← gpr inst.rt)))
  | .blez => branch inst (do return decide ((← gpr inst.rs).toInt ≤ 0))
  | .bgtz => branch inst (do return decide ((← gpr inst.rs).toInt > 0))
  | .bltz => branch inst (do return decide ((← gpr inst.rs).toInt < 0))
  | .bgez => branch inst (do return decide ((← gpr inst.rs).toInt ≥ 0))
  | .bc1f => branch inst (do return decide ((← fcc) = 0))
  | .bc1t => branch inst (do return decide ((← fcc) ≠ 0))
  | .lb => loadGpr inst readSignedByte (dispAddr inst) 1
  | .lbu => loadGpr inst readUnsignedByte (dispAddr inst) 1
  | .lh => loadGpr inst readSignedHalf (dispAddr inst) 2
  | .lhu => loadGpr inst readUnsignedHalf (dispAddr inst) 2
  | .lw => loadGpr inst readWord (dispAddr inst) 4
  | .dlw =>
    incDec inst (do
      intalign inst.rt
      let tempBs ← gpr inst.rs
      setGpr (inst.rt ^^^ c.simSwapWords) (readWord (tempBs + inst.imm))
      setGpr ((inst.rt + 1) ^^^ c.simSwapWords) (readWord (tempBs + inst.imm + 4))) inst.rs 8
  | .l_s => loadFpr inst (dispAddr inst)
  | .l_d =>
    incDec inst (do
      fpalign inst.rt
      setFprL (inst.rt ^^^ c.simSwapWords) (do readWord (← dispAddr inst))
      setFprL ((inst.rt + 1) ^^^ c.simSwapWords) (do readWord ((← dispAddr inst) + 4))) inst.rs 8
  | .lwl =>
    do
      -- the base may be the target register
      let tempBs ← gpr inst.rs
      let ssLrTemp ← readWord (wlBase (tempBs + inst.imm))
      setGpr inst.rt (do
        return ((← gpr inst.rt) &&& wlProtMask c.bigEndian (tempBs + inst.imm)) |||
          (ssLrTemp &&& ~~~(wlProtMask c.bigEndian (tempBs + inst.imm))))
  | .lwr =>
    do
      -- the base may be the target register
      let tempBs ← gpr inst.rs
      let ssLrTemp ← readWord (wrBase (tempBs + inst.imm))
      setGpr inst.rt (do
        return ((← gpr inst.rt) &&& wrProtMask c.bigEndian (tempBs + inst.imm)) |||
          (ssLrTemp &&& ~~~(wrProtMask c.bigEndian (tempBs + inst.imm))))
  | .sb => storeGpr inst writeByte (dispAddr inst) 1
  | .sh => storeGpr inst writeHalf (dispAddr inst) 2
  | .sw => storeGpr inst writeWord (dispAddr inst) 4
  | .dsw =>
    incDec inst (do
      intalign inst.rt
      writeWord (← gpr (inst.rt ^^^ c.simSwapWords)) (← dispAddr inst)
      writeWord (← gpr ((inst.rt + 1) ^^^ c.simSwapWords)) ((← dispAddr inst) + 4)) inst.rs 8
  | .dsz =>
    incDec inst (do
      writeWord (← gpr 0) (← dispAddr inst)
      writeWord (← gpr 0) ((← dispAddr inst) + 4)) inst.rs 8
  | .s_s => storeFpr inst (dispAddr inst)
  | .s_d =>
    -- the step is that of a word, and the words are not swapped
    incDec inst (do
      fpalign inst.rt
      writeWord (← fprL inst.rt) (← dispAddr inst)
      writeWord (← fprL (inst.rt + 1)) ((← dispAddr inst) + 4)) inst.rs 4
  | .swl =>
    do
      let ssLrTemp ← readWord (wlBase (← dispAddr inst))
      let ssLrTemp := ((← gpr inst.rt) &&& ~~~(wlProtMask c.bigEndian (← dispAddr inst))) |||
        (ssLrTemp &&& wlProtMask c.bigEndian (← dispAddr inst))
      writeWord ssLrTemp (wlBase (← dispAddr inst))
  | .swr =>
    do
      let ssLrTemp ← readWord (wrBase (← dispAddr inst))
      let ssLrTemp := ((← gpr inst.rt) &&& ~~~(wrProtMask c.bigEndian (← dispAddr inst))) |||
        (ssLrTemp &&& wrProtMask c.bigEndian (← dispAddr inst))
      writeWord ssLrTemp (wrBase (← dispAddr inst))
  | .lb_rr => loadGpr inst readSignedByte (rrAddr inst) 1
  | .lbu_rr => loadGpr inst readUnsignedByte (rrAddr inst) 1
  | .lh_rr => loadGpr inst readSignedHalf (rrAddr inst) 2
  | .lhu_rr => loadGpr inst readUnsignedHalf (rrAddr inst) 2
  | .lw_rr => loadGpr inst readWord (rrAddr inst) 4
  | .dlw_rr =>
    incDec inst (do
      intalign inst.rt
      let tempBs ← gpr inst.rs
      let tempRd ← gpr inst.rd
      setGpr (inst.rt ^^^ c.simSwapWords) (readWord (tempBs + tempRd))
      setGpr ((inst.rt + 1) ^^^ c.simSwapWords) (readWord (tempBs + tempRd + 4))) inst.rs 8
  | .l_s_rr => loadFpr inst (rrAddr inst)
  | .l_d_rr =>
    incDec inst (do
      fpalign inst.rt
      setFprL (inst.rt ^^^ c.simSwapWords) (do readWord (← rrAddr inst))
      setFprL ((inst.rt + 1) ^^^ c.simSwapWords) (do readWord ((← rrAddr inst) + 4))) inst.rs 8
  | .sb_rr => storeGpr inst writeByte (rrAddr inst) 1
  | .sh_rr => storeGpr inst writeHalf (rrAddr inst) 2
  | .sw_rr => storeGpr inst writeWord (rrAddr inst) 4
  | .dsw_rr =>
    incDec inst (do
      intalign inst.rt
      writeWord (← gpr (inst.rt ^^^ c.simSwapWords)) (← rrAddr inst)
      writeWord (← gpr ((inst.rt + 1) ^^^ c.simSwapWords)) ((← rrAddr inst) + 4)) inst.rs 8
  | .dsz_rr =>
    incDec inst (do
      writeWord (← gpr 0) (← rrAddr inst)
      writeWord (← gpr 0) ((← rrAddr inst) + 4)) inst.rs 8
  | .s_s_rr => storeFpr inst (rrAddr inst)
  | .s_d_rr =>
    incDec inst (do
      fpalign inst.rt
      writeWord (← fprL (inst.rt ^^^ c.simSwapWords)) (← rrAddr inst)
      writeWord (← fprL ((inst.rt + 1) ^^^ c.simSwapWords)) ((← rrAddr inst) + 4)) inst.rs 8
  | .l_s_rr_r2 => loadFpr inst (do return (← rrAddr inst) + 4)
  | .s_s_rr_r2 => storeFpr inst (do return (← rrAddr inst) + 4)
  | .lw_rr_r2 => loadGpr inst readWord (do return (← rrAddr inst) + 4) 4
  | .sw_rr_r2 => storeGpr inst writeWord (do return (← rrAddr inst) + 4) 4
  | .add =>
    do
      checkOver (← gpr inst.rs) (← gpr inst.rt)
      aluRR inst (· + ·)
  | .addi =>
    do
      checkOver (← gpr inst.rs) inst.imm
      aluRI inst inst.imm (· + ·)
  | .addu => aluRR inst (· + ·)
  | .addiu => aluRI inst inst.imm (· + ·)
  | .sub =>
    do
      checkUnder (← gpr inst.rs) (← gpr inst.rt)
      aluRR inst (· - ·)
  | .subu => aluRR inst (· - ·)
  | .mult => instMULT inst
  | .multu => instMULTU inst
  | .div =>
    do
      div0 (decide ((← gpr inst.rt) = 0))
      setLo (do c.idiv (← gpr inst.rs) (← gpr inst.rt))
      setHi (do c.imod (← gpr inst.rs) (← gpr inst.rt))
  | .divu =>
    do
      div0 (decide ((← gpr inst.rt) = 0))
      setLo (do c.idivu (← gpr inst.rs) (← gpr inst.rt))
      setHi (do c.imodu (← gpr inst.rs) (← gpr inst.rt))
  | .mfhi => setGpr inst.rd hi
  | .mthi => setHi (gpr inst.rs)
  | .mflo => setGpr inst.rd lo
  | .mtlo => setLo (gpr inst.rs)
  | .and_ => aluRR inst (· &&& ·)
  | .andi => aluRI inst inst.uimm (· &&& ·)
  | .or => aluRR inst (· ||| ·)
  | .ori => aluRI inst inst.uimm (· ||| ·)
  | .xor => aluRR inst (· ^^^ ·)
  | .xori => aluRI inst inst.uimm (· ^^^ ·)
  | .nor => aluRR inst fun x y => ~~~(x ||| y)
  | .sll => setGpr inst.rd (do cShl (← gpr inst.rt) inst.shamt)
  | .sllv => setGpr inst.rd (do cShl (← gpr inst.rt) ((← gpr inst.rs) &&& 0x1f#32).toNat)
  | .srl => setGpr inst.rd (do cShr (← gpr inst.rt) inst.shamt)
  | .srlv => setGpr inst.rd (do cShr (← gpr inst.rt) ((← gpr inst.rs) &&& 0x1f#32).toNat)
  | .sra => instSRA inst
  | .srav => instSRAV inst
  | .slt => aluRR inst fun x y => if x.toInt < y.toInt then 1 else 0
  | .slti => aluRI inst inst.imm fun x y => if x.toInt < y.toInt then 1 else 0
  | .sltu => aluRR inst fun x y => if x < y then 1 else 0
  | .sltiu => aluRI inst inst.imm fun x y => if x < y then 1 else 0
  | .fadd_s => fpuRRS inst c.fpu.addS
  | .fadd_d => fpuRRD inst c.fpu.addD
  | .fsub_s => fpuRRS inst c.fpu.subS
  | .fsub_d => fpuRRD inst c.fpu.subD
  | .fmul_s => fpuRRS inst c.fpu.mulS
  | .fmul_d => fpuRRD inst c.fpu.mulD
  | .fdiv_s =>
    do
      fpalign inst.rd
      fpalign inst.rs
      fpalign inst.rt
      div0 (c.fpu.isZeroS (← fprL inst.rt))
      setFprL inst.rd (do return c.fdivS (← fprL inst.rs) (← fprL inst.rt))
  | .fdiv_d =>
    do
      fpalign inst.rd
      fpalign inst.rs
      fpalign inst.rt
      div0 (c.fpu.isZeroD (← fprD inst.rt))
      setFprD inst.rd (do return c.fdivD (← fprD inst.rs) (← fprD inst.rt))
  | .fabs_s => fpuR inst setFprL fprL c.fpu.absS
  | .fabs_d => fpuR inst setFprD fprD c.fpu.absD
  | .fmov_s => fpuR inst setFprL fprL id
  | .fmov_d => fpuR inst setFprD fprD id
  | .fneg_s => fpuR inst setFprL fprL c.fpu.negS
  | .fneg_d => fpuR inst setFprD fprD c.fpu.negD
  | .cvt_s_d => fpuR inst setFprL fprD c.fpu.cvtSD
  | .cvt_s_w => fpuR inst setFprL fprL c.fpu.cvtSW
  | .cvt_d_s => fpuR inst setFprD fprL c.fpu.cvtDS
  | .cvt_d_w => fpuR inst setFprD fprL c.fpu.cvtDW
  | .cvt_w_s => fpuR inst setFprL fprL c.fintS
  | .cvt_w_d => fpuR inst setFprL fprD c.fintD
  | .c_eq_s => fpuCmp inst fprL c.fpu.eqS
  | .c_eq_d => fpuCmp inst fprD c.fpu.eqD
  | .c_lt_s => fpuCmp inst fprL c.fpu.ltS
  | .c_lt_d => fpuCmp inst fprD c.fpu.ltD
  | .c_le_s => fpuCmp inst fprL c.fpu.leS
  | .c_le_d => fpuCmp inst fprD c.fpu.leD
  | .fsqrt_s => fpuR inst setFprL fprL c.fpu.sqrtS
  | .fsqrt_d => fpuR inst setFprD fprD c.fpu.sqrtD
  | .syscall => .syscall (.ret ())
  | .break_ => .ret ()
  | .lui => setGpr inst.rt (.ret (inst.uimm <<< 16))
  | .mfc1 => setGpr inst.rt (fprL inst.rs)
  | .dmfc1 =>
    do
      intalign inst.rt
      fpalign inst.rs
      setGpr inst.rt (fprL inst.rs)
      setGpr (inst.rt + 1) (fprL (inst.rs + 1))
  | .cfc1 => .ret ()
  | .mtc1 => setFprL inst.rs (gpr inst.rt)
  | .dmtc1 =>
    do
      fpalign inst.rs
      intalign inst.rt
      setFprL inst.rs (gpr inst.rt)
      setFprL (inst.rs + 1) (gpr (inst.rt + 1))
  | .ctc1 => .ret ()

end SimpleScalar

import Mathlib.Data.BitVec

/-!
# Words, instruction words and the ways a run ends

The basic types of the SimpleScalar target (`ss.h`): 32-bit words, the 64-bit
instruction format with its operand fields, the registers an instruction can
name, and the memory segments the loader sets up.

A simulator does not return on an error, it leaves through `fatal`, `panic` or
`longjmp`.  `Stop` lists the ways out.  C leaves some operations undefined (an
index past the register file, a shift by 32 or more, `INT_MIN / -1`); a modelled
run ends there with `Stop.undefined`, and nothing is said about what the host does.
-/

namespace SimpleScalar

/-- `SS_WORD_TYPE` and `SS_ADDR_TYPE`; signed readings go through `toInt`. -/
abbrev Word := BitVec 32

abbrev Byte := BitVec 8

/-- `SS_INST_TYPE`. -/
structure Inst where
  a : Word
  b : Word
  deriving DecidableEq, Repr

namespace Inst

/-- `SS_COMP_OP`, the pre/post-increment/decrement operation. -/
def compOp (inst : Inst) : Nat := ((inst.a &&& 0xff00#32) >>> 8).toNat

def rs (inst : Inst) : Nat := (inst.b >>> 24).toNat

def rt (inst : Inst) : Nat := ((inst.b >>> 16) &&& 0xff#32).toNat

def rd (inst : Inst) : Nat := ((inst.b >>> 8) &&& 0xff#32).toNat

def shamt (inst : Inst) : Nat := (inst.b &&& 0xff#32).toNat

/-- `IMM` and its alias `OFS`: the low half, sign-extended. -/
def imm (inst : Inst) : Word := (inst.b.setWidth 16).signExtend 32

def uimm (inst : Inst) : Word := inst.b &&& 0xffff#32

def targ (inst : Inst) : Word := inst.b &&& 0x3ffffff#32

end Inst

/-- Register numerals. -/
instance neZero_regs : NeZero (32 : Nat) := ⟨by decide⟩

/-- The registers `ss.def` reads and writes: `regs_R`, `regs_F` in its word view,
`regs_HI`, `regs_LO` and `regs_FCC`. -/
inductive Reg where
  | r (n : Fin 32)
  | f (n : Fin 32)
  | hi
  | lo
  | fcc
  deriving DecidableEq, Repr

/-- The consistency checks of `sim-outorder.c` that end the run, one for each
`panic` or `fatal` of the pipeline stages and their helpers. -/
inductive Check where
  | outOfRsLinks
  | eventCompleted
  | eventPast
  | alreadyQueued
  | ruuOutOfSyncWithLsq
  | fuInUse
  | retiredOdeps
  | emptyRuu
  | ruuHeadTailBroken
  | ruuLsqOutOfSync
  | completedNotReady
  | mispredictedMem
  | odepSatisfied
  | stdUnknownOverflow
  | issuedNotReady
  | storeCreatesResult
  | mispredictedStore
  | cannotRecover
  | speculativeSyscall
  | drainedSpeculative
  | ruuNumLtLsqNum
  | ruuWedged
  | lsqWedged
  deriving DecidableEq, Repr

/-- The text of the check. -/
def Check.text : Check → String
  | outOfRsLinks => "out of rs links"
  | eventCompleted => "event completed"
  | eventPast => "event occurred in the past"
  | alreadyQueued => "node is already queued"
  | ruuOutOfSyncWithLsq => "RUU out of sync with LSQ"
  | fuInUse => "functional unit already in use"
  | retiredOdeps => "retired instruction has odeps\n"
  | emptyRuu => "empty RUU"
  | ruuHeadTailBroken => "RUU head and tail broken"
  | ruuLsqOutOfSync => "RUU and LSQ out of sync"
  | completedNotReady => "inst completed and !ready, !issued, or completed"
  | mispredictedMem => "mis-predicted load or store?!?!?"
  | odepSatisfied => "output dependence already satisfied"
  | stdUnknownOverflow => "STD unknown array overflow, increase MAX_STD_UNKNOWNS"
  | issuedNotReady => "issued inst !ready, issued, or completed"
  | storeCreatesResult => "store creates result"
  | mispredictedStore => "mis-predicted store"
  | cannotRecover => "cannot recover unless in speculative mode"
  | speculativeSyscall => "speculative syscall"
  | drainedSpeculative => "drained and speculative"
  | ruuNumLtLsqNum => "RUU_num < LSQ_num"
  | ruuWedged => "RUU_head/RUU_tail wedged"
  | lsqWedged => "LSQ_head/LSQ_tail wedged"

/-- How a run leaves the simulator. -/
inductive Stop where
  /-- `fatal` on behalf of the simulated program or of a library routine -/
  | fatal (msg : String)
  /-- a `panic` outside the pipeline checks -/
  | panic (msg : String)
  /-- a consistency check of the pipeline -/
  | check (c : Check)
  /-- the simulated program called `exit` -/
  | exit (status : Word)
  /-- the predictor or the cache hierarchy raised an error of its own -/
  | component (msg : String)
  /-- undefined behaviour of C -/
  | undefined
  deriving DecidableEq, Repr

/-- The loader's segment bounds.  `ld_text_base`, `ld_data_base` and
`ld_stack_base` are constants of the target; the text size and the entry point
come from the executable. -/
structure Segments where
  textSize : Word
  progEntry : Word

namespace Segments

def textBase : Word := 0x00400000#32

def dataBase : Word := 0x10000000#32

def stackBase : Word := 0x7fffc000#32

/-- The bounds test on the text segment, as every user of it writes it. -/
def inText (ld : Segments) (addr : Word) : Bool :=
  decide (textBase ≤ addr) && decide (addr < textBase + ld.textSize)

/-- The bounds test on the data and stack segments. -/
def inData (addr : Word) : Bool :=
  decide (dataBase ≤ addr) && decide (addr < stackBase)

end Segments

end SimpleScalar

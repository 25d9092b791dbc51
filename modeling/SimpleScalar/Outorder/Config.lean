import SimpleScalar.Arch
import SimpleScalar.Resource

/-!
# Configuration of the out-of-order simulator

`Config` holds the options of `sim-outorder.c` that the pipeline reads, together
with what `sim_check_options` has established about them: a configuration that
the simulator refuses cannot be built.  Options are C `int`s, which bounds the
sizes.

`Env` is what the pipeline calls but does not define: the branch predictor, the
caches and TLBs, the host, and the values of C locals that are read before they
are set.  The results about the pipeline hold for every environment.
-/

namespace SimpleScalar.Outorder

/-- Numerals for the outputs and the inputs of an instruction. -/
instance neZero_outputs : NeZero (2 : Nat) := ⟨by decide⟩

instance neZero_inputs : NeZero (3 : Nat) := ⟨by decide⟩

/-- The stage that trains the branch predictor. -/
inductive SpecUpdate where
  | ID | WB | CT
  deriving DecidableEq, Repr

structure Config where
  ruuIfqSize : Nat
  ruuBranchPenalty : Nat
  fetchSpeed : Nat
  predPerfect : Bool
  bpredSpecUpdate : SpecUpdate
  ruuDecodeWidth : Nat
  ruuIssueWidth : Nat
  ruuInorderIssue : Bool
  ruuIncludeSpec : Bool
  ruuCommitWidth : Nat
  ruuSize : Nat
  lsqSize : Nat
  cacheIl1Lat : Nat
  /-- is there a `cache_dl1`, a `cache_il1`, an `itlb`, a `dtlb`? -/
  dl1 : Bool
  il1 : Bool
  itlb : Bool
  dtlb : Bool
  resIalu : Nat
  resImult : Nat
  resMemport : Nat
  resFpalu : Nat
  resFpmult : Nat
  bugcompatMode : Bool
  ifq_pos : 1 ≤ ruuIfqSize
  ifq_pow : ruuIfqSize &&& (ruuIfqSize - 1) = 0
  penalty_pos : 1 ≤ ruuBranchPenalty
  speed_pos : 1 ≤ fetchSpeed
  decode_pos : 1 ≤ ruuDecodeWidth
  decode_pow : ruuDecodeWidth &&& (ruuDecodeWidth - 1) = 0
  issue_pos : 1 ≤ ruuIssueWidth
  issue_pow : ruuIssueWidth &&& (ruuIssueWidth - 1) = 0
  commit_pos : 1 ≤ ruuCommitWidth
  ruu_two : 2 ≤ ruuSize
  ruu_pow : ruuSize &&& (ruuSize - 1) = 0
  ruu_int : ruuSize < 2 ^ 31
  lsq_two : 2 ≤ lsqSize
  lsq_pow : lsqSize &&& (lsqSize - 1) = 0
  lsq_int : lsqSize < 2 ^ 31
  il1Lat_pos : 1 ≤ cacheIl1Lat
  ialu_range : 1 ≤ resIalu ∧ resIalu ≤ maxInstsPerClass
  imult_range : 1 ≤ resImult ∧ resImult ≤ maxInstsPerClass
  memport_range : 1 ≤ resMemport ∧ resMemport ≤ maxInstsPerClass
  fpalu_range : 1 ≤ resFpalu ∧ resFpalu ≤ maxInstsPerClass
  fpmult_range : 1 ≤ resFpmult ∧ resFpmult ≤ maxInstsPerClass

namespace Config

variable (cfg : Config)

/-- `pred`: perfect prediction is the only type without a predictor. -/
def hasPred : Bool := !cfg.predPerfect

theorem ruu_pos : 0 < cfg.ruuSize := lt_of_lt_of_le (by norm_num) cfg.ruu_two

theorem lsq_pos : 0 < cfg.lsqSize := lt_of_lt_of_le (by norm_num) cfg.lsq_two

/-- `fu_config`, with the quantities `sim_check_options` stores in it. -/
def fuConfig : List ResDesc :=
  [⟨"integer-ALU", cfg.resIalu, [⟨.intALU, 1, 1⟩]⟩,
   ⟨"integer-MULT/DIV", cfg.resImult, [⟨.intMULT, 3, 1⟩, ⟨.intDIV, 20, 19⟩]⟩,
   ⟨"memory-port", cfg.resMemport, [⟨.rdPort, 1, 1⟩, ⟨.wrPort, 1, 1⟩]⟩,
   ⟨"FP-adder", cfg.resFpalu, [⟨.floatADD, 2, 1⟩, ⟨.floatCMP, 2, 1⟩, ⟨.floatCVT, 2, 1⟩]⟩,
   ⟨"FP-MULT/DIV", cfg.resFpmult,
     [⟨.floatMULT, 4, 1⟩, ⟨.floatDIV, 12, 12⟩, ⟨.floatSQRT, 24, 24⟩]⟩]

/-- `fu_pool`. -/
def fuPool : Except Stop ResPool := resCreatePool cfg.fuConfig

/-- No operation takes longer than a square root. -/
theorem oplat_le {d : ResDesc} {t : ResTemplate} (hd : d ∈ cfg.fuConfig) (ht : t ∈ d.x) :
    t.oplat ≤ 24 := by
  simp only [fuConfig, List.mem_cons, List.not_mem_nil, or_false] at hd
  rcases hd with rfl | rfl | rfl | rfl | rfl <;> simp at ht <;> grind

/-- Every operation takes time, and keeps its unit for a while. -/
theorem lat_pos {d : ResDesc} {t : ResTemplate} (hd : d ∈ cfg.fuConfig) (ht : t ∈ d.x) :
    1 ≤ t.oplat ∧ 1 ≤ t.issuelat := by
  simp only [fuConfig, List.mem_cons, List.not_mem_nil, or_false] at hd
  rcases hd with rfl | rfl | rfl | rfl | rfl <;> simp at ht <;> grind

/-- The default sizes, with perfect prediction and without caches. -/
def bare : Config where
  ruuIfqSize := 4
  ruuBranchPenalty := 3
  fetchSpeed := 1
  predPerfect := true
  bpredSpecUpdate := .CT
  ruuDecodeWidth := 4
  ruuIssueWidth := 4
  ruuInorderIssue := false
  ruuIncludeSpec := true
  ruuCommitWidth := 4
  ruuSize := 16
  lsqSize := 8
  cacheIl1Lat := 1
  dl1 := false
  il1 := false
  itlb := false
  dtlb := false
  resIalu := 4
  resImult := 1
  resMemport := 2
  resFpalu := 4
  resFpmult := 1
  bugcompatMode := false
  ifq_pos := by decide
  ifq_pow := by decide
  penalty_pos := by decide
  speed_pos := by decide
  decode_pos := by decide
  decode_pow := by decide
  issue_pos := by decide
  issue_pow := by decide
  commit_pos := by decide
  ruu_two := by decide
  ruu_pow := by decide
  ruu_int := by decide
  lsq_two := by decide
  lsq_pow := by decide
  lsq_int := by decide
  il1Lat_pos := by decide
  ialu_range := by decide
  imult_range := by decide
  memport_range := by decide
  fpalu_range := by decide
  fpmult_range := by decide

/-- Branches are predicted by a table that has no entry. -/
def notTaken : Config := { bare with predPerfect := false }

end Config

/-- The caches `sim-outorder.c` accesses by name. -/
inductive CacheId where
  | il1 | dl1 | itlb | dtlb
  deriving DecidableEq, Repr

/-- The temporaries of `ruu_dispatch` that memory accesses go through. -/
structure Temps where
  uint : BitVec 32
  short : BitVec 16
  ushort : BitVec 16
  char : Byte
  uchar : Byte

/-- What the pipeline calls.  The predictor and the caches are opaque: they have a
state, they answer, and they may report an error of their own. -/
structure Env where
  pf : Platform
  host : pf.Host
  /-- `struct bpred` -/
  Pred : Type
  pred : Pred
  /-- `struct bpred_update`, its zero value, and the value with its pointers set
  to NULL -/
  DirUpdate : Type
  dirZero : DirUpdate
  dirNull : DirUpdate → DirUpdate
  /-- predicted address, update record and return stack index -/
  bpredLookup : Pred → Word → Opcode → Bool → DirUpdate →
    Except String (Word × DirUpdate × Word × Pred)
  /-- branch address, target, taken, predicted taken, correct, opcode, through `$31` -/
  bpredUpdate : Pred → Word → Word → Bool → Bool → Bool → Opcode → Bool → DirUpdate →
    Except String Pred
  bpredRecover : Pred → Word → Word → Pred
  /-- the cache and TLB hierarchy -/
  Caches : Type
  caches : Caches
  cacheAccess : CacheId → MemCmd → Word → Nat → Nat → Caches → Except String (Word × Caches)
  /-- what the locals of `ruu_dispatch` and `ruu_fetch` hold on entry, by cycle -/
  temps : Nat → Temps
  stackRecoverIdx : Nat → Word

/-- A predictor that never predicts a branch, and caches that always hit. -/
def Env.bare : Env where
  pf := Platform.bare
  host := ()
  Pred := Unit
  pred := ()
  DirUpdate := Unit
  dirZero := ()
  dirNull _ := ()
  bpredLookup _ _ _ _ _ := .ok (0, (), 0, ())
  bpredUpdate _ _ _ _ _ _ _ _ _ := .ok ()
  bpredRecover _ _ _ := ()
  Caches := Unit
  caches := ()
  cacheAccess _ _ _ _ _ _ := .ok (1, ())
  temps _ := ⟨0, 0, 0, 0, 0⟩
  stackRecoverIdx _ := 0

/-- Errors of a component end the run as its own. -/
def component {α : Type} : Except String α → Except Stop α
  | .ok a => .ok a
  | .error msg => .error (.component msg)

end SimpleScalar.Outorder

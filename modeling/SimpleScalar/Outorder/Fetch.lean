import SimpleScalar.Outorder.Commit

/-!
# Fetch

`ruu_fetch` reads instructions at the predicted addresses and appends them to the
fetch queue, until the queue is full, the fetch bandwidth is used up, a predicted
taken branch ends the line, or the instruction cache misses.
-/

namespace SimpleScalar.Outorder

variable {env : Env}

/-- `SS_NOP_INST`. -/
def ssNopInst : Inst := ⟨1, 0⟩

/-- May the text segment be read at `pc`? -/
def fetchable (ld : Segments) (pc : Word) : Bool := ld.inText pc && decide (pc &&& 7#32 = 0)

/-- The access time of the I-cache. -/
def il1Latency (cfg : Config) (pc : Word) (s : State env) : Except Stop (Int × State env) :=
  if cfg.il1 then do
    let (lat, s) ← cacheAccess .il1 .read pc 8 s
    return (lat.toInt, s)
  else .ok (cfg.cacheIl1Lat, s)

/-- The access time of an instruction, from the I-cache and the I-TLB in parallel. -/
def fetchLatency (cfg : Config) (pc : Word) (s : State env) : Except Stop (Int × State env) := do
  let (lat, s) ← il1Latency cfg pc s
  if cfg.itlb then
    let (tlbLat, s) ← cacheAccess .itlb .read pc 8 s
    return (max tlbLat.toInt lat, s)
  else return (lat, s)

/-- The instruction at `fetch_regs_PC`, or nothing on a cache miss. -/
def fetchInst (cfg : Config) (ld : Segments) (s : State env) :
    Except Stop (Option Inst × State env) :=
  if fetchable ld s.fetchRegsPC then do
    let (p, _) ← memAccess ld .read s.fetchRegsPC (List.replicate 8 0) 8 s.arch.mem
    let (lat, s) ← fetchLatency cfg s.fetchRegsPC s
    if lat ≠ cfg.cacheIl1Lat then
      return (none,
        { s with ruuFetchIssueDelay := s.ruuFetchIssueDelay + BitVec.ofInt 32 (lat - 1) })
    else return (some (Inst.ofBytes env.pf.bigEndian p), s)
  -- fetch PC is bogus, send a NOP down the pipeline
  else .ok (some ssNopInst, s)

/-- What the branch predictor says about the instruction, `0` for nothing.  The
record at the tail of the fetch queue takes the update information. -/
def fetchPredict (inst : Inst) (idx : Word) (s : State env) :
    Except Stop (Word × Word × State env) :=
  match inst.decode with
  -- SS_OP_FLAGS reads past its table
  | none => .error .undefined
  | some op =>
    if op.has F.ctrl then do
      let tail := s.fetchData s.fetchTail
      let (pc, dir, idx, pred) ← component
        (env.bpredLookup s.pred s.fetchRegsPC op (decide (inst.rs = 31)) tail.dirUpdate)
      let fetchData := Function.update s.fetchData s.fetchTail { tail with dirUpdate := dir }
      return (pc, idx, { s with pred := pred, fetchData := fetchData })
    else .ok (0, idx, s)

/-- The predicted next address; was it a predicted target? -/
def fetchNext (cfg : Config) (inst : Inst) (idx : Word) (s : State env) :
    Except Stop (Bool × Word × State env) :=
  if cfg.hasPred then do
    let (pc, idx, s) ← fetchPredict inst idx s
    if pc = 0 then return (false, idx, { s with fetchPredPC := s.fetchRegsPC + 8 })
    else return (true, idx, { s with fetchPredPC := pc })
  else .ok (false, idx, { s with fetchPredPC := s.fetchRegsPC + 8 })

/-- Append the instruction to the fetch queue. -/
def fetchPush (cfg : Config) (inst : Inst) (idx : Word) (s : State env) : State env :=
  let r : FetchRec env :=
    { s.fetchData s.fetchTail with
      IR := inst
      regsPC := s.fetchRegsPC
      predPC := s.fetchPredPC
      stackRecoverIdx := idx }
  { s with
    fetchData := Function.update s.fetchData s.fetchTail r
    fetchTail := (s.fetchTail + 1) &&& (cfg.ruuIfqSize - 1)
    fetchNum := s.fetchNum + 1 }

/-- The loop of `ruu_fetch`, with `n` rounds left, `branchCnt` predicted targets so
far, and the local `stack_recover_idx`. -/
def ruuFetchLoop (cfg : Config) (ld : Segments) :
    Nat → Nat → Word → State env → Except Stop (State env)
  | 0, _, _, s => .ok s
  | n + 1, branchCnt, idx, s =>
    if s.fetchNum < cfg.ruuIfqSize then do
      match ← fetchInst cfg ld { s with fetchRegsPC := s.fetchPredPC } with
      | (none, s) => return s
      | (some inst, s) =>
        let (taken, idx, s) ← fetchNext cfg inst idx s
        let s := fetchPush cfg inst idx s
        let branchCnt := if taken then branchCnt + 1 else branchCnt
        if taken && decide (branchCnt ≥ cfg.fetchSpeed) then return s
        else ruuFetchLoop cfg ld n branchCnt idx s
    else .ok s

def ruuFetch (cfg : Config) (ld : Segments) (s : State env) : Except Stop (State env) :=
  ruuFetchLoop cfg ld (cfg.ruuDecodeWidth * cfg.fetchSpeed) 0 (env.stackRecoverIdx s.simCycle) s

/-- The fetch unit, if it is not blocked. -/
def fetchStage (cfg : Config) (ld : Segments) (s : State env) : Except Stop (State env) :=
  if s.ruuFetchIssueDelay = 0 then ruuFetch cfg ld s
  else .ok { s with ruuFetchIssueDelay := s.ruuFetchIssueDelay - 1 }

end SimpleScalar.Outorder

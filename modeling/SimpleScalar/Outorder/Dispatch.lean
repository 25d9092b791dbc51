import SimpleScalar.Outorder.Commit
import SimpleScalar.Outorder.Tracer

/-!
# Dispatch

`ruu_dispatch` takes instructions from the fetch queue, executes them in the trace
generator and allocates RUU and LSQ entries for them: a load or a store becomes an
address computation in the RUU and a memory access in the LSQ, linked through the
reserved name `DTMP`.  It is also where the simulator notices that fetch went wrong:
it redirects fetch at once (mis-fetch, perfect prediction) or enters mis-speculation
mode.
-/

namespace SimpleScalar.Outorder

variable {env : Env}

/-- The locals of `ruu_dispatch` that live across iterations.  `target_PC` is only
read after an instruction that set it. -/
structure DispatchLocals where
  nDispatched : Nat
  fetchRedirected : Bool
  temps : Temps
  targetPC : Word

/-! ### Allocation -/

/-- What `ruu_dispatch` has computed about the instruction when it allocates. -/
structure Insn (env : Env) where
  fetched : FetchRec env
  op : Opcode
  nextPC : Word
  predPC : Word
  addr : Word

/-- `in1`, `in2`, `in3`, `out1`, `out2`. -/
def Insn.in1 (i : Insn env) : Nat := i.op.definst.i1.name i.fetched.IR

def Insn.in2 (i : Insn env) : Nat := i.op.definst.i2.name i.fetched.IR

def Insn.in3 (i : Insn env) : Nat := i.op.definst.i3.name i.fetched.IR

def Insn.out1 (i : Insn env) : Nat := i.op.definst.o1.name i.fetched.IR

def Insn.out2 (i : Insn env) : Nat := i.op.definst.o2.name i.fetched.IR

/-- Overwrite a station; its status flags are cleared. -/
def fill (rs : Ref) (st : Station env) (s : State env) : State env :=
  { s with
    stn := Function.update s.stn rs st
    queued := Function.update s.queued rs false
    issued := Function.update s.issued rs false
    completed := Function.update s.completed rs false
    instSeq := s.instSeq + 1 }

/-- What the RUU entry of the instruction holds; a load or a store leaves an address
computation there. -/
def ruuStation (i : Insn env) (s : State env) : Station env where
  IR := i.fetched.IR
  op := if i.op.has F.mem then .add else i.op
  PC := s.regsPC
  nextPC := i.nextPC
  predPC := i.predPC
  inLSQ := false
  eaComp := i.op.has F.mem
  recoverInst := false
  stackRecoverIdx := i.fetched.stackRecoverIdx
  dirUpdate := i.fetched.dirUpdate
  specMode := s.specMode
  addr := 0
  seq := s.instSeq + 1
  onames := (s.stn (.ruu s.ruuTail)).onames
  inum := s.inums

/-- The RUU station at the tail. -/
def fillRuu (i : Insn env) (s : State env) : State env := fill (.ruu s.ruuTail) (ruuStation i s) s

/-- What the LSQ entry of a load or a store holds. -/
def lsqStation (i : Insn env) (s : State env) : Station env where
  IR := i.fetched.IR
  op := i.op
  PC := s.regsPC
  nextPC := i.nextPC
  predPC := i.predPC
  inLSQ := true
  eaComp := false
  recoverInst := false
  stackRecoverIdx := 0
  dirUpdate := env.dirNull (s.stn (.lsq s.lsqTail)).dirUpdate
  specMode := s.specMode
  addr := i.addr
  seq := s.instSeq + 1
  onames := (s.stn (.lsq s.lsqTail)).onames
  inum := s.inums

/-- The LSQ station at the tail. -/
def fillLsq (i : Insn env) (s : State env) : State env := fill (.lsq s.lsqTail) (lsqStation i s) s

/-- Three inputs and two outputs of a station, inputs first. -/
def linkStation (rs : Ref) (in1 in2 in3 out1 out2 : Nat) (s : State env) :
    Except Stop (State env) := do
  let s ← ruuLinkIdep rs 0 in1 s
  let s ← ruuLinkIdep rs 1 in2 s
  let s ← ruuLinkIdep rs 2 in3 s
  let s ← ruuInstallOdep rs 0 out1 s
  ruuInstallOdep rs 1 out2 s

/-- The RUU tail moves past the new entry. -/
def advanceRuu (cfg : Config) (s : State env) : State env :=
  { s with
    ruuTail := (s.ruuTail + 1) % cfg.ruuSize
    ruuNum := s.ruuNum + 1
    inums := s.inums + 1 }

def advanceLsq (cfg : Config) (s : State env) : State env :=
  { s with lsqTail := (s.lsqTail + 1) % cfg.lsqSize, lsqNum := s.lsqNum + 1 }

/-- A load or a store. -/
def allocMem (cfg : Config) (i : Insn env) (s : State env) : Except Stop (State env) := do
  let rs := Ref.ruu s.ruuTail
  let lsq := Ref.lsq s.lsqTail
  let s := fillLsq i (fillRuu i s)
  let s ← linkStation rs NA i.in2 i.in3 DTMP NA s
  let s ← linkStation lsq i.in1 DTMP NA i.out1 i.out2 s
  let s := advanceLsq cfg (advanceRuu cfg s)
  let s ← enqueueIf (s.operandsReady rs) rs s
  let s := { s with lastOp := some (lsq, s.tag lsq) }
  -- loads are queued by lsq_refresh
  enqueueIf (i.op.has (F.mem ||| F.store) && s.operandsReady lsq) lsq s

/-- Any other operation. -/
def allocOp (cfg : Config) (i : Insn env) (s : State env) : Except Stop (State env) := do
  let rs := Ref.ruu s.ruuTail
  let s := fillRuu i s
  let s ← linkStation rs i.in1 i.in2 i.in3 i.out1 i.out2 s
  let s := advanceRuu cfg s
  if s.operandsReady rs then
    let s ← readyqEnqueue rs s
    return { s with lastOp := none }
  else return { s with lastOp := some (rs, s.tag rs) }

/-- Allocation; a NOP gets no entry. -/
def alloc (cfg : Config) (i : Insn env) (s : State env) : Except Stop (State env) :=
  if i.op = .nop then .ok s
  else if i.op.has F.mem then allocMem cfg i s
  else allocOp cfg i s

/-! ### Execution -/

/-- `EXPR` of the instruction, in the trace generator.  `OP_NA` is dispatched as a
NOP. -/
def execInst (cfg : Config) (ld : Segments) (inst : Inst) (op : Opcode) (d : DispatchLocals)
    (s : State env) : Except Stop (Exec env) :=
  run cfg ld s.specMode inst s.regsPC (op.expr (engine env) inst)
    { arch := s.arch.zeroR0
      host := s.host
      overlay := { s.overlay with regs := Function.update s.overlay.regs (.r 0) 0 }
      temps := d.temps
      addr := 0
      nextPC := s.regsPC + 8
      targetPC := d.targetPC }

/-- Fetch is redirected at once: under perfect prediction, or when the predicted
target of a direct jump was wrong. -/
def redirects (cfg : Config) (op : Opcode) (x : Exec env) (s : State env) : Bool :=
  (s.predPC ≠ x.nextPC && cfg.predPerfect) ||
    (op.has (F.ctrl ||| F.dirjmp) && x.targetPC ≠ s.predPC && s.predPC ≠ s.regsPC + 8)

/-- The fetch squash; the queue is left with the instruction that is about to be
consumed. -/
def redirect (cfg : Config) (nextPC : Word) (s : State env) : State env :=
  { s with
    fetchPredPC := nextPC
    fetchRegsPC := nextPC
    predPC := if cfg.predPerfect then nextPC else s.predPC
    fetchHead := cfg.ruuIfqSize - 1
    fetchNum := 1
    fetchTail := 0
    ruuFetchIssueDelay :=
      if cfg.predPerfect then s.ruuFetchIssueDelay else BitVec.ofNat 32 cfg.ruuBranchPenalty }

/-- `rs->recover_inst = TRUE` and the entry into mis-speculation mode.  `rs` is NULL
for a NOP. -/
def enterSpec (rs : Option Ref) (nextPC : Word) (s : State env) : Except Stop (State env) :=
  match rs with
  | none => .error .undefined
  | some rs =>
    .ok { s with
      specMode := true
      stn := Function.update s.stn rs { s.stn rs with recoverInst := true }
      recoverPC := nextPC }

/-- Training in the dispatch stage; a NOP has no station. -/
def trainDispatched (cfg : Config) (rs : Option Ref) (s : State env) : Except Stop (State env) :=
  match rs with
  | none => .ok s
  | some rs => bpredTrainIn cfg .ID (s.stn rs) s

/-- The bookkeeping of a correct-path instruction. -/
def traceStep (cfg : Config) (r : TraceRec env) (rs : Option Ref) (redirected : Bool)
    (s : State env) : Except Stop (State env) := do
  let s := { s with
    trace := s.trace ++ [r]
    dispatched := s.dispatched ++ (rs.map fun rs => (s.stn rs).dispatch).toList }
  let s ← trainDispatched cfg rs s
  if s.predPC ≠ r.nextPC && !redirected then enterSpec rs r.nextPC s else .ok s

/-- The wrong path leaves no trace. -/
def traceIf (cfg : Config) (r : TraceRec env) (rs : Option Ref) (redirected : Bool)
    (s : State env) : Except Stop (State env) :=
  if s.specMode then .ok s else traceStep cfg r rs redirected s

/-! ### The loop -/

/-- The loop condition of `ruu_dispatch`. -/
def dispatchGuard (cfg : Config) (d : DispatchLocals) (s : State env) : Bool :=
  decide (d.nDispatched < cfg.ruuDecodeWidth * cfg.fetchSpeed) && decide (s.ruuNum < cfg.ruuSize) &&
    decide (s.lsqNum < cfg.lsqSize) && decide (s.fetchNum ≠ 0) &&
    (cfg.ruuIncludeSpec || !s.specMode)

/-- With in-order issue, dispatch waits for the operands of the last operation. -/
def stalls (cfg : Config) (s : State env) : Bool :=
  cfg.ruuInorderIssue &&
    match s.lastOp with
    | none => false
    | some (rs, tag) => tag == s.tag rs && !s.operandsReady rs

/-- `op` as the pipeline sees it. -/
def dispatchOp (op : Opcode) : Opcode := if op = .op_na then .nop else op

/-- The head of the fetch queue has been dispatched. -/
def consume (cfg : Config) (s : State env) : State env :=
  { s with
    fetchHead := (s.fetchHead + 1) &&& (cfg.ruuIfqSize - 1)
    fetchNum := s.fetchNum - 1 }

/-- The instruction at the head of the fetch queue, once it may be dispatched. -/
def dispatchInst (cfg : Config) (ld : Segments) (fetched : FetchRec env) (op : Opcode)
    (d : DispatchLocals) (s : State env) : Except Stop (DispatchLocals × State env) := do
  let x ← execInst cfg ld fetched.IR op d s
  let r : TraceRec env :=
    ⟨s.regsPC, fetched.IR, x.nextPC, s.arch.zeroR0, s.host, x.arch, x.host⟩
  let op := dispatchOp op
  let s := { s with arch := x.arch, host := x.host, overlay := x.overlay }
  let redirected := redirects cfg op x s
  let s := if redirected then redirect cfg x.nextPC s else s
  let redirected := d.fetchRedirected || redirected
  let rs := if op = .nop then none else some (Ref.ruu s.ruuTail)
  let s ← alloc cfg ⟨fetched, op, x.nextPC, s.predPC, x.addr⟩ s
  let s ← traceIf cfg r rs redirected s
  return (⟨if op = .nop then d.nDispatched else d.nDispatched + 1, redirected, x.temps, x.targetPC⟩,
    consume cfg s)

/-- One iteration; without locals the loop is left. -/
def dispatchOne (cfg : Config) (ld : Segments) (d : DispatchLocals) (s : State env) :
    Except Stop (Option DispatchLocals × State env) :=
  if !dispatchGuard cfg d s || stalls cfg s then .ok (none, s)
  else
    let fetched := s.fetchData s.fetchHead
    let s := { s with regsPC := fetched.regsPC, predPC := fetched.predPC }
    match fetched.IR.decode with
    -- SS_OP_FLAGS reads past its table
    | none => .error .undefined
    | some op =>
      if op.has F.trap && decide (s.ruuNum ≠ 0) then .ok (none, s)
      else if op.has F.trap && s.specMode then .error (.check .drainedSpeculative)
      else do
        let (d, s) ← dispatchInst cfg ld fetched op d s
        return (some d, s)

/-- The loop, with a bound on the number of rounds: each consumes an instruction from
the fetch queue, and a redirect leaves none. -/
def ruuDispatchLoop (cfg : Config) (ld : Segments) :
    Nat → DispatchLocals → State env → Except Stop (State env)
  | 0, _, s => .ok s
  | n + 1, d, s => do
    match ← dispatchOne cfg ld d s with
    | (none, s) => return s
    | (some d, s) => ruuDispatchLoop cfg ld n d s

/-- The locals on entry. -/
def dispatchLocals (s : State env) : DispatchLocals := ⟨0, false, env.temps s.simCycle, 0⟩

def ruuDispatch (cfg : Config) (ld : Segments) (s : State env) : Except Stop (State env) :=
  ruuDispatchLoop cfg ld s.fetchNum (dispatchLocals s) s

end SimpleScalar.Outorder

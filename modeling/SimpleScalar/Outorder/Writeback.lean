import SimpleScalar.Outorder.Commit
import SimpleScalar.Outorder.Tracer

/-!
# Writeback and recovery

`ruu_writeback` serves the completion events that are due.  A completing
mis-predicted branch first squashes everything younger (`ruu_recover`) and resets
the trace generator; then the completing operation clears the create vector entries
that still name it and wakes up its consumers.
-/

namespace SimpleScalar.Outorder

variable {env : Env}

/-! ### Recovery -/

/-- Free the consumer lists of a squashed station and invalidate it. -/
def squash (rs : Ref) (s : State env) : State env :=
  let s := rslinkFreeAll (s.odepList (rs, 0)) s
  let s := { s with odepList := Function.update s.odepList (rs, 0) [] }
  let s := rslinkFreeAll (s.odepList (rs, 1)) s
  let s := { s with odepList := Function.update s.odepList (rs, 1) [] }
  bumpTag rs s

/-- The loop of `ruu_recover`, with its locals.  `RUU_num` drops by one in each
round, so the recursion is on it: `n` is its value, and `0` the check for an empty
RUU. -/
def ruuRecoverLoop (cfg : Config) (branchIndex : Nat) (ruuIndex lsqIndex ruuPrevTail
    lsqPrevTail : Nat) (n : Nat) (s : State env) : Except Stop (State env) :=
  if ruuIndex = branchIndex then
    .ok { s with
      ruuTail := ruuPrevTail
      lsqTail := lsqPrevTail
      useSpecCv := fun _ => false }
  else
    match n with
    | 0 => .error (.check .emptyRuu)
    | n + 1 =>
      if ruuIndex = s.ruuHead then .error (.check .ruuHeadTailBroken)
      else if (s.stn (.ruu ruuIndex)).eaComp then
        if s.lsqNum = 0 then .error (.check .ruuLsqOutOfSync)
        else
          let s := squash (.lsq lsqIndex) s
          let s := { s with lsqNum := s.lsqNum - 1 }
          let s := squash (.ruu ruuIndex) s
          let s := { s with ruuNum := s.ruuNum - 1 }
          ruuRecoverLoop cfg branchIndex ((ruuIndex + (cfg.ruuSize - 1)) % cfg.ruuSize)
            ((lsqIndex + (cfg.lsqSize - 1)) % cfg.lsqSize) ruuIndex lsqIndex n s
      else
        let s := squash (.ruu ruuIndex) s
        let s := { s with ruuNum := s.ruuNum - 1 }
        ruuRecoverLoop cfg branchIndex ((ruuIndex + (cfg.ruuSize - 1)) % cfg.ruuSize)
          lsqIndex ruuIndex lsqPrevTail n s

/-- `ruu_recover`. -/
def ruuRecover (cfg : Config) (branchIndex : Nat) (s : State env) : Except Stop (State env) :=
  ruuRecoverLoop cfg branchIndex ((s.ruuTail + (cfg.ruuSize - 1)) % cfg.ruuSize)
    ((s.lsqTail + (cfg.lsqSize - 1)) % cfg.lsqSize) s.ruuTail s.lsqTail s.ruuNum s

/-- A completing operation that was mis-predicted. -/
def recoverBranch (cfg : Config) (rs : Ref) (s : State env) : Except Stop (State env) :=
  if (s.stn rs).inLSQ then .error (.check .mispredictedMem)
  else
    match rs with
    -- `rs - RUU` is no index for a station of the LSQ
    | .lsq _ => .error .undefined
    | .ruu i => do
      let s ← ruuRecover cfg i s
      let s ← tracerRecover s
      let st := s.stn rs
      let s := if cfg.hasPred then
          { s with pred := env.bpredRecover s.pred st.PC st.stackRecoverIdx }
        else s
      return { s with ruuFetchIssueDelay := BitVec.ofNat 32 cfg.ruuBranchPenalty }

/-- Does the completing operation reveal a mis-prediction? -/
def resolve (cfg : Config) (rs : Ref) (s : State env) : Except Stop (State env) :=
  if (s.stn rs).recoverInst then recoverBranch cfg rs s else .ok s

/-- Operations of the LSQ do not train the predictor. -/
def trainResolved (cfg : Config) (rs : Ref) (s : State env) : Except Stop (State env) :=
  if (s.stn rs).inLSQ then .ok s else bpredTrainIn cfg .WB (s.stn rs) s

/-! ### Broadcast -/

/-- The entry of the create vector for output `i`, on the path of the station, if it
still names it. -/
def clearCreator (rs : Ref) (i : Fin 2) (s : State env) : State env :=
  let name := (s.stn rs).onames i
  if (s.stn rs).specMode then
    if s.specCreateVector name = some (rs, i) then
      { s with specCreateVector := Function.update s.specCreateVector name none }
    else s
  else
    if s.createVector name = some (rs, i) then
      { s with createVector := Function.update s.createVector name none }
    else s

/-- A consumer of the result: its operand becomes ready. -/
def wake (l : RSLink (Fin 3)) (s : State env) : Except Stop (State env) :=
  if s.idepReady (l.rs, l.x) then .error (.check .odepSatisfied)
  else
    let s := { s with idepReady := Function.update s.idepReady (l.rs, l.x) true }
    enqueueIf (s.operandsReady l.rs && (!(s.stn l.rs).inLSQ || s.isStore l.rs)) l.rs s

/-- A link of the list; stale ones are skipped. -/
def wakeLink (l : RSLink (Fin 3)) (s : State env) : Except Stop (State env) :=
  if s.linkValid l then wake l s else .ok s

/-- The walk over a consumer list; each link is freed. -/
def wakeAll : List (RSLink (Fin 3)) → State env → Except Stop (State env)
  | [], s => .ok s
  | l :: ls, s => do
    let s ← wakeLink l s
    wakeAll ls (rslinkFree l.id s)

/-- The broadcast of output `i`. -/
def broadcast (rs : Ref) (i : Fin 2) (s : State env) : Except Stop (State env) :=
  if (s.stn rs).onames i = NA then .ok s
  else do
    let s := clearCreator rs i s
    let s ← wakeAll (s.odepList (rs, i)) s
    return { s with odepList := Function.update s.odepList (rs, i) [] }

/-- The completion of `rs`. -/
def writebackEvent (cfg : Config) (rs : Ref) (s : State env) : Except Stop (State env) :=
  if !s.operandsReady rs || s.queued rs || !s.issued rs || s.completed rs then
    .error (.check .completedNotReady)
  else do
    let s := { s with completed := Function.update s.completed rs true }
    let s ← resolve cfg rs s
    let s ← trainResolved cfg rs s
    let s ← broadcast rs 0 s
    broadcast rs 1 s

/-- The loop of `ruu_writeback`.  Every round takes an event from the queue and none
is added, so the length of the queue bounds the number of rounds. -/
def ruuWritebackLoop (cfg : Config) : Nat → State env → Except Stop (State env)
  | 0, s => .ok s
  | n + 1, s =>
    match eventqNextEvent s with
    | (none, s) => .ok s
    | (some rs, s) => do
      let s ← writebackEvent cfg rs s
      ruuWritebackLoop cfg n s

def ruuWriteback (cfg : Config) (s : State env) : Except Stop (State env) :=
  ruuWritebackLoop cfg (s.eventQueue.length + 1) s

end SimpleScalar.Outorder

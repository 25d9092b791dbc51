import SimpleScalar.Outorder.State

/-!
# Links, event queue, ready queue and create vector

The bookkeeping the pipeline stages share: taking and freeing link records
(`RSLINK_NEW`, `RSLINK_FREE`), the event queue sorted by completion time, the ready
queue with its scheduling policy, and the create vector with its copied-on-write
bits.
-/

namespace SimpleScalar.Outorder

variable {env : Env}

/-! ### Link records -/

/-- `RSLINK_NEW`. -/
def rslinkNew {α : Type} (rs : Ref) (x : α) (s : State env) :
    Except Stop (RSLink α × State env) :=
  match s.rslinkFreeList with
  | [] => .error (.check .outOfRsLinks)
  | id :: rest => .ok (⟨id, rs, s.tag rs, x, s.gen rs⟩, { s with rslinkFreeList := rest })

/-- `RSLINK_FREE`. -/
def rslinkFree (id : Nat) (s : State env) : State env :=
  { s with rslinkFreeList := id :: s.rslinkFreeList }

/-- `RSLINK_FREE_LIST`. -/
def rslinkFreeAll {α : Type} : List (RSLink α) → State env → State env
  | [], s => s
  | l :: ls, s => rslinkFreeAll ls (rslinkFree l.id s)

/-! ### Event queue -/

/-- Insertion before the first event that is not earlier. -/
def insertEvent (ev : RSLink Int) (q : List (RSLink Int)) : List (RSLink Int) :=
  q.takeWhile (fun e => decide (e.x < ev.x)) ++ ev :: q.dropWhile (fun e => decide (e.x < ev.x))

/-- `eventq_queue_event`. -/
def eventqQueueEvent (rs : Ref) (when : Int) (s : State env) : Except Stop (State env) :=
  if s.completed rs then .error (.check .eventCompleted)
  else if when ≤ s.simCycle then .error (.check .eventPast)
  else do
    let (newEv, s) ← rslinkNew rs when s
    return { s with eventQueue := insertEvent newEv s.eventQueue }

/-- Unlink the first event and reclaim its record. -/
def popEvent (ev : RSLink Int) (rest : List (RSLink Int)) (s : State env) : State env :=
  rslinkFree ev.id { s with eventQueue := rest }

/-- The recursion of `eventq_next_event` over the queue `q`. -/
def nextEvent : List (RSLink Int) → State env → Option Ref × State env
  | [], s => (none, s)
  | ev :: rest, s =>
    if ev.x ≤ s.simCycle then
      if s.linkValid ev then (some ev.rs, popEvent ev rest s)
      else nextEvent rest (popEvent ev rest s)
    else (none, s)

/-- `eventq_next_event`. -/
def eventqNextEvent (s : State env) : Option Ref × State env := nextEvent s.eventQueue s

/-! ### Ready queue -/

/-- Loads, stores, long latency operations and branches go first. -/
def goesFirst (st : Station env) : Bool :=
  st.inLSQ || decide (st.op.flags &&& (F.longlat ||| F.ctrl) ≠ 0)

/-- Insertion at the head, or in program order. -/
def insertReady (first : Bool) (node : RSLink Word) (q : List (RSLink Word)) :
    List (RSLink Word) :=
  if first then node :: q
  else q.takeWhile (fun n => decide (n.x < node.x)) ++
    node :: q.dropWhile (fun n => decide (n.x < node.x))

/-- `readyq_enqueue`. -/
def readyqEnqueue (rs : Ref) (s : State env) : Except Stop (State env) :=
  if s.queued rs then .error (.check .alreadyQueued)
  else do
    let s := { s with queued := Function.update s.queued rs true }
    let (newNode, s) ← rslinkNew rs (s.stn rs).seq s
    return { s with readyQueue := insertReady (goesFirst (s.stn rs)) newNode s.readyQueue }

/-- `readyq_enqueue`, if there is nothing to wait for. -/
def enqueueIf (ready : Bool) (rs : Ref) (s : State env) : Except Stop (State env) :=
  if ready then readyqEnqueue rs s else .ok s

/-! ### Create vector -/

/-- `CREATE_VECTOR`. -/
def State.createVectorAt (s : State env) (n : Nat) : Option CVLink :=
  if s.useSpecCv n then s.specCreateVector n else s.createVector n

/-- `SET_CREATE_VECTOR`. -/
def setCreateVector (n : Nat) (l : Option CVLink) (s : State env) : State env :=
  if s.specMode then
    { s with
      useSpecCv := Function.update s.useSpecCv n true
      specCreateVector := Function.update s.specCreateVector n l }
  else
    { s with createVector := Function.update s.createVector n l }

/-- `ruu_link_idep`; a name past the create vector is read out of bounds. -/
def ruuLinkIdep (rs : Ref) (idepNum : Fin 3) (idepName : Nat) (s : State env) :
    Except Stop (State env) :=
  if idepName = NA then
    .ok { s with idepReady := Function.update s.idepReady (rs, idepNum) true }
  else if ssTotalRegs ≤ idepName then .error .undefined
  else
    match s.createVectorAt idepName with
    | none => .ok { s with idepReady := Function.update s.idepReady (rs, idepNum) true }
    | some head => do
      let s := { s with idepReady := Function.update s.idepReady (rs, idepNum) false }
      let (link, s) ← rslinkNew rs idepNum s
      return { s with odepList := Function.update s.odepList head (link :: s.odepList head) }

/-- `rs->onames[odep_num] = odep_name`. -/
def setOname (rs : Ref) (odepNum : Fin 2) (odepName : Nat) (s : State env) : State env :=
  let st := { s.stn rs with onames := Function.update (s.stn rs).onames odepNum odepName }
  { s with stn := Function.update s.stn rs st }

/-- `ruu_install_odep`. -/
def ruuInstallOdep (rs : Ref) (odepNum : Fin 2) (odepName : Nat) (s : State env) :
    Except Stop (State env) :=
  if odepName = NA then .ok (setOname rs odepNum NA s)
  else if ssTotalRegs ≤ odepName then .error .undefined
  else
    let s := setOname rs odepNum odepName s
    let s := { s with odepList := Function.update s.odepList (rs, odepNum) [] }
    .ok (setCreateVector odepName (some (rs, odepNum)) s)

end SimpleScalar.Outorder

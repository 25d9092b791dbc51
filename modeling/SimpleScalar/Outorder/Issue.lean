import SimpleScalar.Outorder.Commit

/-!
# Load scheduling and issue

`lsq_refresh` walks the LSQ from the oldest entry and queues the loads whose memory
dependences are resolved.  `ruu_issue` takes the ready queue apart: each operation
is started on a functional unit, or put back.
-/

namespace SimpleScalar.Outorder

variable {env : Env}

/-! ### `lsq_refresh` -/

/-- `MAX_STD_UNKNOWNS`. -/
def maxStdUnknowns : Nat := 64

/-- A store in the walk of `lsq_refresh`, with the recorded addresses of stores
without data: `none` stops the search. -/
def refreshStore (rs : Ref) (stdUnknowns : List Word) (s : State env) :
    Except Stop (Option (List Word)) :=
  if !s.isStore rs then .ok (some stdUnknowns)
  else if !s.storeAddrReady rs then .ok none
  else if !s.operandsReady rs then
    if stdUnknowns.length = maxStdUnknowns then .error (.check .stdUnknownOverflow)
    else .ok (some (stdUnknowns ++ [(s.stn rs).addr]))
  else
    -- a later store with data hides an earlier one; the bogus address is 0
    .ok (some (stdUnknowns.map fun a => if a = (s.stn rs).addr then 0 else a))

/-- The loads `lsq_refresh` looks at: waiting, with their registers ready. -/
def waitingLoad (rs : Ref) (s : State env) : Bool :=
  s.isLoad rs && !s.queued rs && !s.issued rs && !s.completed rs && s.operandsReady rs

/-- Queue a load that waits for nothing. -/
def refreshLoad (rs : Ref) (stdUnknowns : List Word) (s : State env) : Except Stop (State env) :=
  if waitingLoad rs s && !stdUnknowns.contains (s.stn rs).addr then readyqEnqueue rs s else .ok s

/-- The walk of `lsq_refresh`, with `n` entries to go from `index` on. -/
def lsqRefreshLoop (cfg : Config) : Nat → Nat → List Word → State env → Except Stop (State env)
  | 0, _, _, s => .ok s
  | n + 1, index, stdUnknowns, s => do
    let rs := Ref.lsq index
    match ← refreshStore rs stdUnknowns s with
    | none => return s
    | some stdUnknowns =>
      let s ← refreshLoad rs stdUnknowns s
      lsqRefreshLoop cfg n ((index + 1) % cfg.lsqSize) stdUnknowns s

def lsqRefresh (cfg : Config) (s : State env) : Except Stop (State env) :=
  lsqRefreshLoop cfg s.lsqNum s.lsqHead [] s

/-! ### Loads -/

/-- The search for a forwarding store, from slot `i` on towards the head: was one
found, and which slots were looked at.  A search that stays between the head and
the load ends within `LSQ_size` rounds. -/
def forwardScan (cfg : Config) (addr : Word) (stn : Ref → Station env) (lsqHead : Nat) :
    Nat → Nat → Bool × List Nat
  | 0, _ => (false, [])
  | n + 1, i =>
    let i := (i + (cfg.lsqSize - 1)) % cfg.lsqSize
    if (stn (.lsq i)).op.has F.store && (stn (.lsq i)).addr == addr then (true, [i])
    else if i = lsqHead then (false, [i])
    else
      let r := forwardScan cfg addr stn lsqHead n i
      (r.1, i :: r.2)

/-- The search as `ruu_issue` starts it: the load at the head has nothing older. -/
def forwardSearch (cfg : Config) (index : Nat) (addr : Word) (s : State env) :
    Bool × List Nat :=
  if index = s.lsqHead then (false, []) else forwardScan cfg addr s.stn s.lsqHead cfg.lsqSize index

/-- The LSQ entry in slot `i`, as the load sees it. -/
def lsqView (s : State env) (i : Nat) : LsqView where
  index := i
  store := s.isStore (.lsq i)
  addr := (s.stn (.lsq i)).addr
  addrReady := s.storeAddrReady (.lsq i)
  operandsReady := s.operandsReady (.lsq i)

/-- What the LSQ looks like to the load in slot `index`. -/
def loadIssue (cfg : Config) (index : Nat) (s : State env) : LoadIssue where
  addr := (s.stn (.lsq index)).addr
  older :=
    ((CircularQueue.slots cfg.lsqSize s.lsqHead s.lsqNum).takeWhile (· ≠ index)).map (lsqView s)
  visited := (forwardSearch cfg index (s.stn (.lsq index)).addr s).2

/-- The latency of the data: one cycle if a store forwards it. -/
def dataLatency (cfg : Config) (index : Nat) (oplat : Nat) (s : State env) :
    Except Stop (Int × State env) :=
  let addr := (s.stn (.lsq index)).addr
  if (forwardSearch cfg index addr s).1 then .ok (1, s)
  else if cfg.dl1 && Segments.inData addr then do
    let (lat, s) ← cacheAccess .dl1 .read (addr &&& ~~~3#32) 4 s
    return (lat.toInt, s)
  else .ok (oplat, s)

/-- The latency of a load, with the D-TLB accessed in parallel. -/
def loadLatency (cfg : Config) (index : Nat) (oplat : Nat) (s : State env) :
    Except Stop (Int × State env) := do
  let addr := (s.stn (.lsq index)).addr
  let (loadLat, s) ← dataLatency cfg index oplat s
  if cfg.dtlb && Segments.inData addr then
    let (tlbLat, s) ← cacheAccess .dtlb .read (addr &&& ~~~3#32) 4 s
    return (max tlbLat.toInt loadLat, s)
  else return (loadLat, s)

/-! ### `ruu_issue` -/

/-- A store completes at once. -/
def issueStore (rs : Ref) (s : State env) : Except Stop (State env) :=
  let s := { s with
    issued := Function.update s.issued rs true
    completed := Function.update s.completed rs true }
  if (s.stn rs).onames 0 ≠ NA ∨ (s.stn rs).onames 1 ≠ NA then
    .error (.check .storeCreatesResult)
  else if (s.stn rs).recoverInst then .error (.check .mispredictedStore)
  else .ok s

/-- An operation starts on a functional unit. -/
def issueOnUnit (cfg : Config) (rs : Ref) (fu : ResEntry) (s : State env) :
    Except Stop (State env) := do
  let s := { s with issued := Function.update s.issued rs true }
  let s ← fuReserve false fu s
  if (s.stn rs).inLSQ && s.isLoad rs then
    match rs with
    -- `rs - LSQ` is no index for a station of the RUU
    | .ruu _ => .error .undefined
    | .lsq index =>
      let s := { s with loads := s.loads ++ [loadIssue cfg index s] }
      let (lat, s) ← loadLatency cfg index fu.template.oplat s
      eventqQueueEvent rs (s.simCycle + lat) s
  else eventqQueueEvent rs (s.simCycle + fu.template.oplat) s

/-- A valid node of the ready queue: the state after it, and whether it issued. -/
def issueNode (cfg : Config) (rs : Ref) (s : State env) : Except Stop (Bool × State env) :=
  if !s.operandsReady rs || !s.queued rs || s.issued rs || s.completed rs then
    .error (.check .issuedNotReady)
  else
    let s := { s with queued := Function.update s.queued rs false }
    if (s.stn rs).inLSQ && s.isStore rs then do
      let s ← issueStore rs s
      return (true, s)
    else if (s.stn rs).op.fuClass ≠ .na then do
      match ← fuGet cfg (s.stn rs).op.fuClass s with
      | some fu =>
        let s ← issueOnUnit cfg rs fu s
        return (true, s)
      | none =>
        let s ← readyqEnqueue rs s
        return (false, s)
    else do
      let s := { s with issued := Function.update s.issued rs true }
      let s ← eventqQueueEvent rs (s.simCycle + 1) s
      return (true, s)

/-- A node of the ready queue: the valid ones are tried. -/
def issueLink (cfg : Config) (node : RSLink Word) (s : State env) :
    Except Stop (Bool × State env) :=
  if s.linkValid node then issueNode cfg node.rs s else .ok (false, s)

/-- A node that there was no room for. -/
def requeue (node : RSLink Word) (s : State env) : Except Stop (State env) :=
  if s.linkValid node then
    readyqEnqueue node.rs { s with queued := Function.update s.queued node.rs false }
  else .ok s

/-- The second loop of `ruu_issue`: what is left goes back to the ready queue. -/
def requeueAll : List (RSLink Word) → State env → Except Stop (State env)
  | [], s => .ok s
  | node :: rest, s => do
    let s ← requeue node s
    requeueAll rest (rslinkFree node.id s)

/-- The first loop of `ruu_issue`, with room for `width` more operations. -/
def issueLoop (cfg : Config) : List (RSLink Word) → Nat → State env → Except Stop (State env)
  | [], _, s => .ok s
  | node :: rest, 0, s => requeueAll (node :: rest) s
  | node :: rest, width + 1, s => do
    let (issued, s) ← issueLink cfg node s
    issueLoop cfg rest (if issued then width else width + 1) (rslinkFree node.id s)

/-- `ruu_issue`: the ready queue is copied and rebuilt. -/
def ruuIssue (cfg : Config) (s : State env) : Except Stop (State env) :=
  issueLoop cfg s.readyQueue cfg.ruuIssueWidth { s with readyQueue := [] }

end SimpleScalar.Outorder

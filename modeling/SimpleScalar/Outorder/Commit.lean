import SimpleScalar.Outorder.Links

/-!
# Commit

`ruu_commit` retires completed entries from the head of the RUU, with the head of
the LSQ for a load or a store; a store needs a memory port.  `ruu_release_fu` counts
the busy counters of the functional units down.
-/

namespace SimpleScalar.Outorder

variable {env : Env}

/-- `res_get` on the pool that `sim_init` built. -/
def fuGet (cfg : Config) (cls : FuClass) (s : State env) : Except Stop (Option ResEntry) := do
  let pool ← cfg.fuPool
  resGet pool s.busy cls

/-- `fu->master->busy = fu->issuelat`, after the check that the unit is idle. -/
def fuReserve (retires : Bool) (fu : ResEntry) (s : State env) : Except Stop (State env) :=
  if s.busy fu.master ≠ 0 then .error (.check .fuInUse)
  else .ok { s with
    busy := Function.update s.busy fu.master fu.template.issuelat
    accepts := s.accepts ++ [⟨s.simCycle, retires, fu.master, fu.template.issuelat⟩] }

/-- `cache_access` on a cache or TLB of the hierarchy. -/
def cacheAccess (id : CacheId) (cmd : MemCmd) (addr : Word) (nbytes : Nat) (s : State env) :
    Except Stop (Word × State env) := do
  let (lat, caches) ← component (env.cacheAccess id cmd addr nbytes s.simCycle s.caches)
  return (lat, { s with caches := caches })

/-- `bpred_update` with the fields of a station. -/
def bpredTrain (st : Station env) (s : State env) : Except Stop (State env) := do
  let pred ← component (env.bpredUpdate s.pred st.PC st.nextPC
    (decide (st.nextPC ≠ st.PC + 8)) (decide (st.predPC ≠ st.PC + 8))
    (decide (st.predPC = st.nextPC)) st.op (decide (st.IR.rs = 31)) st.dirUpdate)
  return { s with pred := pred }

/-- The predictor is trained in stage `stage`, by control instructions only. -/
def trains (cfg : Config) (stage : SpecUpdate) (st : Station env) : Bool :=
  cfg.hasPred && decide (cfg.bpredSpecUpdate = stage) && st.op.has F.ctrl

/-- Train the predictor if `stage` is the one that does. -/
def bpredTrainIn (cfg : Config) (stage : SpecUpdate) (st : Station env) (s : State env) :
    Except Stop (State env) :=
  if trains cfg stage st then bpredTrain st s else .ok s

/-- `cache_access` if there is such a cache, its latency unused. -/
def cacheTouch (present : Bool) (id : CacheId) (cmd : MemCmd) (addr : Word) (s : State env) :
    Except Stop (State env) :=
  if present then do
    let (_, s) ← cacheAccess id cmd addr 4 s
    return s
  else .ok s

/-- A store at the head of the LSQ goes to the data cache, if a port is free. -/
def commitStore (cfg : Config) (s : State env) : Except Stop (Option (State env)) := do
  let l := Ref.lsq s.lsqHead
  match ← fuGet cfg (s.stn l).op.fuClass s with
  | none => return none
  | some fu =>
    let s ← fuReserve true fu s
    let addr := (s.stn l).addr &&& ~~~3#32
    let s ← cacheTouch cfg.dl1 .dl1 .write addr s
    let s ← cacheTouch cfg.dtlb .dtlb .read addr s
    return some s

/-- Invalidate an instance: `tag++`. -/
def bumpTag (rs : Ref) (s : State env) : State env :=
  { s with
    tag := Function.update s.tag rs (s.tag rs + 1)
    gen := Function.update s.gen rs (s.gen rs + 1) }

/-- The head of the LSQ leaves. -/
def retireLsq (cfg : Config) (s : State env) : State env :=
  let s := bumpTag (.lsq s.lsqHead) s
  { s with lsqHead := (s.lsqHead + 1) % cfg.lsqSize, lsqNum := s.lsqNum - 1 }

/-- The head of the RUU leaves. -/
def retireRuu (cfg : Config) (s : State env) : State env :=
  let rs := Ref.ruu s.ruuHead
  let s := bumpTag rs s
  { s with
    ruuHead := (s.ruuHead + 1) % cfg.ruuSize
    ruuNum := s.ruuNum - 1
    retired := s.retired ++ [(s.stn rs).dispatch] }

/-- The part of an iteration that follows the LSQ. -/
def commitRuu (cfg : Config) (s : State env) : Except Stop (Option (State env)) := do
  let rs := Ref.ruu s.ruuHead
  let s ← bpredTrainIn cfg .CT (s.stn rs) s
  let s := retireRuu cfg s
  if s.odepList (rs, 0) ≠ [] ∨ s.odepList (rs, 1) ≠ [] then .error (.check .retiredOdeps)
  else return some s

/-- One iteration of the loop of `ruu_commit`; `none` is a `break`. -/
def commitOne (cfg : Config) (s : State env) : Except Stop (Option (State env)) :=
  let rs := Ref.ruu s.ruuHead
  if !s.completed rs then .ok none
  else if (s.stn rs).eaComp then
    let l := Ref.lsq s.lsqHead
    if s.lsqNum = 0 ∨ (s.stn l).inLSQ = false then .error (.check .ruuOutOfSyncWithLsq)
    else if !s.completed l then .ok none
    else if s.isStore l then do
      match ← commitStore cfg s with
      | none => return none
      | some s => commitRuu cfg (retireLsq cfg s)
    else commitRuu cfg (retireLsq cfg s)
  else commitRuu cfg s

/-- The loop of `ruu_commit` with `n` more instructions allowed. -/
def ruuCommitLoop (cfg : Config) : Nat → State env → Except Stop (State env)
  | 0, s => .ok s
  | n + 1, s =>
    if s.ruuNum = 0 then .ok s
    else do
      match ← commitOne cfg s with
      | none => return s
      | some s => ruuCommitLoop cfg n s

def ruuCommit (cfg : Config) (s : State env) : Except Stop (State env) :=
  ruuCommitLoop cfg cfg.ruuCommitWidth s

/-- `ruu_release_fu`. -/
def ruuReleaseFu (s : State env) : State env := { s with busy := fun i => s.busy i - 1 }

end SimpleScalar.Outorder

import SimpleScalar.Outorder.Config
import SimpleScalar.Lib.CircularQueue

/-!
# State of the out-of-order simulator

The static variables of `sim-outorder.c`.  The records of `struct RUU_station`
live in two arrays, the RUU and the LSQ; `Ref` is a pointer to one of them.  The
fields that `ruu_dispatch` fills in once are kept together in `Station`, the
fields that later stages change are kept as one map each, so that an assignment to
one field leaves every other field of every station in place.

Pointers to `struct RS_link` records become lists: a list of links holds, for each
link, the identity of its record (`id`), and the free list is the list of the
identities that are not in use.

Some fields are ghosts.  They record what happened and no stage reads them:

* `gen`, how often the slot has been invalidated (the tag without its modulus), and
  the copy of it that `RSLink.gen` takes;
* `Station.inum`, the dispatch number of the instruction;
* `trace`, the instructions executed with `spec_mode` FALSE;
* `dispatched` and `retired`, the instructions that entered the RUU with `spec_mode`
  FALSE and those that left it through `ruu_commit`;
* `loads`, what the LSQ looked like whenever a load was issued from it.
-/

namespace SimpleScalar.Outorder

/-- A pointer to a reservation station. -/
inductive Ref where
  | ruu (i : Nat)
  | lsq (i : Nat)
  deriving DecidableEq, Repr

/-- `struct CV_link`: a creator and one of its outputs. -/
abbrev CVLink := Ref × Fin 2

/-- `struct RS_link`, with the member of its union that the list uses. -/
structure RSLink (α : Type) where
  id : Nat
  rs : Ref
  tag : Word
  x : α
  gen : Nat
  deriving DecidableEq, Repr

/-- An instruction that entered the RUU. -/
structure Dispatch where
  inum : Nat
  PC : Word
  IR : Inst
  deriving DecidableEq, Repr

/-- The part of `struct RUU_station` that `ruu_dispatch` sets. -/
structure Station (env : Env) where
  IR : Inst
  op : Opcode
  PC : Word
  nextPC : Word
  predPC : Word
  inLSQ : Bool
  eaComp : Bool
  recoverInst : Bool
  stackRecoverIdx : Word
  dirUpdate : env.DirUpdate
  specMode : Bool
  addr : Word
  seq : Word
  onames : Fin 2 → Nat
  inum : Nat

def Station.dispatch {env : Env} (st : Station env) : Dispatch := ⟨st.inum, st.PC, st.IR⟩

/-- `struct fetch_rec`. -/
structure FetchRec (env : Env) where
  IR : Inst
  regsPC : Word
  predPC : Word
  dirUpdate : env.DirUpdate
  stackRecoverIdx : Word

/-- `struct spec_mem_ent`: the buffer as host bytes. -/
structure SpecMemEnt where
  addr : Word
  data : List Byte
  deriving DecidableEq, Repr

/-- The copied-on-write state of the trace generator.  An FP register shares its
bit with the other half of its pair. -/
structure Overlay where
  use : Reg → Bool
  regs : Reg → Word
  storeHtable : Nat → List SpecMemEnt

/-- An instruction executed with `spec_mode` FALSE. -/
structure TraceRec (env : Env) where
  PC : Word
  IR : Inst
  nextPC : Word
  /-- architected state and host, before and after -/
  before : Arch
  hostBefore : env.pf.Host
  after : Arch
  hostAfter : env.pf.Host

/-- An LSQ entry as a load that is issued finds it. -/
structure LsqView where
  index : Nat
  store : Bool
  addr : Word
  addrReady : Bool
  operandsReady : Bool
  deriving DecidableEq, Repr

/-- A load starting execution: its address, the older entries of the LSQ from the
head on, and the slots the search for a forwarding store looked at. -/
structure LoadIssue where
  addr : Word
  older : List LsqView
  visited : List Nat
  deriving DecidableEq, Repr

/-- An operation accepted by a functional unit: a store that `ruu_commit` retires, or an
operation that `ruu_issue` starts. -/
structure Accept where
  cycle : Nat
  retires : Bool
  unit : Nat
  issuelat : Nat
  deriving DecidableEq, Repr

structure State (env : Env) where
  simCycle : Nat
  instSeq : Word
  specMode : Bool
  ruuFetchIssueDelay : Word
  arch : Arch
  host : env.pf.Host
  overlay : Overlay
  -- reservation stations
  ruuHead : Nat
  ruuTail : Nat
  ruuNum : Nat
  lsqHead : Nat
  lsqTail : Nat
  lsqNum : Nat
  stn : Ref → Station env
  tag : Ref → Word
  queued : Ref → Bool
  issued : Ref → Bool
  completed : Ref → Bool
  idepReady : Ref × Fin 3 → Bool
  odepList : CVLink → List (RSLink (Fin 3))
  -- link lists
  rslinkFreeList : List Nat
  eventQueue : List (RSLink Int)
  readyQueue : List (RSLink Word)
  -- create vector
  useSpecCv : Nat → Bool
  createVector : Nat → Option CVLink
  specCreateVector : Nat → Option CVLink
  -- program counters and the fetch queue
  regsPC : Word
  predPC : Word
  recoverPC : Word
  fetchRegsPC : Word
  fetchPredPC : Word
  fetchData : Nat → FetchRec env
  fetchNum : Nat
  fetchTail : Nat
  fetchHead : Nat
  /-- `last_op`: the referenced station and its tag -/
  lastOp : Option (Ref × Word)
  -- components
  busy : Nat → Nat
  pred : env.Pred
  caches : env.Caches
  -- ghosts
  gen : Ref → Nat
  inums : Nat
  trace : List (TraceRec env)
  dispatched : List Dispatch
  retired : List Dispatch
  loads : List LoadIssue
  accepts : List Accept

/-- The RUU and the LSQ as queues of stations. -/
structure Rob (env : Env) where
  ruuHead : Nat
  ruuTail : Nat
  ruuNum : Nat
  lsqHead : Nat
  lsqTail : Nat
  lsqNum : Nat
  stn : Ref → Station env

namespace Rob

variable {env : Env} (q : Rob env) (cfg : Config)

/-- The live RUU entries, oldest first. -/
def ruu : List Ref := (CircularQueue.slots cfg.ruuSize q.ruuHead q.ruuNum).map .ruu

/-- The live LSQ entries, oldest first. -/
def lsq : List Ref := (CircularQueue.slots cfg.lsqSize q.lsqHead q.lsqNum).map .lsq

end Rob

/-- The trace generator and the fetch unit. -/
structure Front (env : Env) where
  specMode : Bool
  ruuFetchIssueDelay : Word
  arch : Arch
  host : env.pf.Host
  overlay : Overlay
  regsPC : Word
  predPC : Word
  recoverPC : Word
  fetchRegsPC : Word
  fetchPredPC : Word
  fetchData : Nat → FetchRec env
  fetchNum : Nat
  fetchTail : Nat
  fetchHead : Nat
  trace : List (TraceRec env)
  dispatched : List Dispatch

namespace State

variable {env : Env} (s : State env)

/-- `OPERANDS_READY`. -/
def operandsReady (rs : Ref) : Bool :=
  s.idepReady (rs, 0) && s.idepReady (rs, 1) && s.idepReady (rs, 2)

/-- `STORE_ADDR_READY`; `STORE_ADDR_INDEX` is 1. -/
def storeAddrReady (rs : Ref) : Bool := s.idepReady (rs, 1)

/-- `RSLINK_VALID`. -/
def linkValid {α : Type} (l : RSLink α) : Bool := l.tag == s.tag l.rs

/-- Is the station a store, a load? -/
def isStore (rs : Ref) : Bool := (s.stn rs).op.has (F.mem ||| F.store)

def isLoad (rs : Ref) : Bool := (s.stn rs).op.has (F.mem ||| F.load)

/-- The two queues: head, tail and count of each, and the stations. -/
def rob : Rob env := ⟨s.ruuHead, s.ruuTail, s.ruuNum, s.lsqHead, s.lsqTail, s.lsqNum, s.stn⟩

def front : Front env :=
  ⟨s.specMode, s.ruuFetchIssueDelay, s.arch, s.host, s.overlay, s.regsPC, s.predPC, s.recoverPC,
    s.fetchRegsPC, s.fetchPredPC, s.fetchData, s.fetchNum, s.fetchTail, s.fetchHead, s.trace,
    s.dispatched⟩

end State

/-- A station as `calloc` leaves it. -/
def Station.zero (env : Env) : Station env where
  IR := ⟨0, 0⟩
  op := .op_na
  PC := 0
  nextPC := 0
  predPC := 0
  inLSQ := false
  eaComp := false
  recoverInst := false
  stackRecoverIdx := 0
  dirUpdate := env.dirZero
  specMode := false
  addr := 0
  seq := 0
  onames := fun _ => NA
  inum := 0

/-- `MAX_RS_LINKS`. -/
def maxRsLinks : Nat := 4096

/-- The state in which the loop of `sim_main` starts: `sim_init` has run, and
`sim_main` has set the program counters. -/
def init (env : Env) (img : Image) : State env where
  simCycle := 0
  instSeq := 0
  specMode := false
  ruuFetchIssueDelay := 0
  arch := img.arch
  host := env.host
  overlay := ⟨fun _ => false, fun _ => 0, fun _ => []⟩
  ruuHead := 0
  ruuTail := 0
  ruuNum := 0
  lsqHead := 0
  lsqTail := 0
  lsqNum := 0
  stn := fun _ => Station.zero env
  tag := fun _ => 0
  queued := fun _ => false
  issued := fun _ => false
  completed := fun _ => false
  idepReady := fun _ => false
  odepList := fun _ => []
  rslinkFreeList := (List.range maxRsLinks).reverse
  eventQueue := []
  readyQueue := []
  useSpecCv := fun _ => false
  createVector := fun _ => none
  specCreateVector := fun _ => none
  regsPC := img.ld.progEntry - 8
  predPC := 0
  recoverPC := 0
  fetchRegsPC := img.ld.progEntry - 8
  fetchPredPC := img.ld.progEntry
  fetchData := fun _ => ⟨⟨0, 0⟩, 0, 0, env.dirZero, 0⟩
  fetchNum := 0
  fetchTail := 0
  fetchHead := 0
  lastOp := none
  busy := fun _ => 0
  pred := env.pred
  caches := env.caches
  gen := fun _ => 0
  inums := 0
  trace := []
  dispatched := []
  retired := []
  loads := []
  accepts := []

end SimpleScalar.Outorder

import SimpleScalar.Cache.Geometry

/-!
# The cache hierarchy

The caches and TLBs of `sim-outorder.c` and `sim-cache.c`: the part of
`sim_check_options` that creates them from their options, which is the same text in
both, and the miss handlers, which differ in the latencies they return.

The options share caches: the instruction side can be told to use the first or the
second level of the data side.  A cache is an object with a `CacheName` and the global
variables of the source are pointers to them.  Only a second-level cache lies below
another one.

Converting a number that is no `int`, a name of 128 characters or more, and a geometry
whose tag shift is the width of an address or more are undefined.
-/

namespace SimpleScalar.Cache

/-! ### Options -/

/-- `%d`. -/
def scanInt (s : List Char) : Option (Int × List Char) :=
  let s := s.dropWhile Char.isWhitespace
  let (neg, s) := match s with
    | '-' :: s => (true, s)
    | '+' :: s => (false, s)
    | s => (false, s)
  let digits := s.takeWhile Char.isDigit
  if digits = [] then none
  else
    let v : Int := digits.foldl (fun v d => 10 * v + (d.toNat - '0'.toNat : Nat)) 0
    some (if neg then -v else v, s.dropWhile Char.isDigit)

def scanColon : List Char → Option (List Char)
  | ':' :: s => some s
  | _ => none

/-- What the options of a cache say. -/
structure Scanned where
  name : List Char
  nsets : Int
  bsize : Int
  assoc : Int
  c : Char

/-- `sscanf(opt, "%[^:]:%d:%d:%d:%c", …)`, if it converts all five. -/
def scanCache (opt : String) : Option Scanned := do
  let s := opt.toList
  let name := s.takeWhile (· != ':')
  if name = [] then none
  let s ← scanColon (s.dropWhile (· != ':'))
  let (nsets, s) ← scanInt s
  let s ← scanColon s
  let (bsize, s) ← scanInt s
  let s ← scanColon s
  let (assoc, s) ← scanInt s
  let s ← scanColon s
  let c ← s.head?
  return ⟨name, nsets, bsize, assoc, c⟩

/-- `mystricmp`, as a test for equality. -/
def mystricmp (s₁ s₂ : String) : Bool := s₁.toList.map Char.toLower == s₂.toList.map Char.toLower

/-- `cache_char2policy`. -/
def cacheChar2policy : Char → Except Stop Policy
  | 'l' => .ok .LRU
  | 'r' => .ok .Random
  | 'f' => .ok .FIFO
  | c => .error (.fatal ("bogus replacement policy, `" ++ c.toString ++ "'"))

/-- The checks of `cache_create`; the handler and the size of user data are constants. -/
def cacheCreate (nsets bsize assoc : Int) (policy : Policy) (hitLatency : Word) :
    Except Stop Params :=
  if nsets_pos : nsets ≤ 0 then
    .error (.fatal ("cache size (in sets) `" ++ toString nsets ++ "' must be non-zero"))
  else if nsets_pow : nsets.toNat &&& (nsets.toNat - 1) ≠ 0 then
    .error (.fatal ("cache size (in sets) `" ++ toString nsets ++ "' is not a power of two"))
  else if bsize_min : bsize < 8 then
    .error (.fatal ("cache block size (in bytes) `" ++ toString bsize ++ "' must be 8 or greater"))
  else if bsize_pow : bsize.toNat &&& (bsize.toNat - 1) ≠ 0 then
    .error (.fatal ("cache block size (in bytes) `" ++ toString bsize ++
      "' must be a power of two"))
  else if assoc_pos : assoc ≤ 0 then
    .error (.fatal ("cache associativity `" ++ toString assoc ++
      "' must be non-zero and positive"))
  else if assoc_pow : assoc.toNat &&& (assoc.toNat - 1) ≠ 0 then
    .error (.fatal ("cache associativity `" ++ toString assoc ++ "' must be a power of two"))
  else if h : bsize < 2 ^ 31 ∧ assoc < 2 ^ 31 ∧ nsets.toNat * bsize.toNat < 2 ^ 32 then
    .ok {
      nsets := nsets.toNat
      bsize := bsize.toNat
      balloc := false
      assoc := assoc.toNat
      policy := policy
      hitLatency := hitLatency
      nsets_pos := by omega
      nsets_pow := not_not.mp nsets_pow
      bsize_min := by omega
      bsize_pow := not_not.mp bsize_pow
      assoc_pos := by omega
      assoc_pow := not_not.mp assoc_pow
      bsize_int := by omega
      assoc_int := by omega
      fits := h.2.2 }
  else .error .undefined

/-- `cache_create` accepts the geometries. -/
theorem cacheCreate_accepts {nsets bsize assoc : Int} {policy : Policy} {hitLatency : Word}
    (hInt : nsets < 2 ^ 31 ∧ bsize < 2 ^ 31 ∧ assoc < 2 ^ 31) :
    (∀ msg, cacheCreate nsets bsize assoc policy hitLatency ≠ .error (.fatal msg)) ↔
      ∃ g : Geometry, g.nsets = nsets ∧ g.bsize = bsize ∧ g.assoc = assoc := by
  constructor
  · intro h
    unfold cacheCreate at h
    -- the checks, one after the other
    iterate 6
      split at h
      · exact absurd rfl (h _)
    exact ⟨⟨nsets.toNat, bsize.toNat, false, assoc.toNat, policy, hitLatency, by omega,
      not_not.mp ‹_›, by omega, not_not.mp ‹_›, by omega, not_not.mp ‹_›, by omega, by omega,
      by omega⟩, by simp only; omega, by simp only; omega, by simp only; omega⟩
  · rintro ⟨g, rfl, rfl, rfl⟩ msg
    have hSets := g.nsets_pos
    have hBlock := g.bsize_min
    have hAssoc := g.assoc_pos
    unfold cacheCreate
    simp only [Int.toNat_natCast]
    rw [dif_neg (by omega), dif_neg (not_not.mpr g.nsets_pow), dif_neg (by omega),
      dif_neg (not_not.mpr g.bsize_pow), dif_neg (by omega), dif_neg (not_not.mpr g.assoc_pow)]
    split <;> exact fun h => by cases h

/-- A cache from its option. -/
def cacheParms (msg : String) (hitLatency : Word) (opt : String) : Except Stop Params :=
  match scanCache opt with
  | none => .error (.fatal msg)
  | some x => do
    if 128 ≤ x.name.length ∨ 2 ^ 31 ≤ x.nsets.natAbs ∨ 2 ^ 31 ≤ x.bsize.natAbs ∨
      2 ^ 31 ≤ x.assoc.natAbs then .error .undefined
    let policy ← cacheChar2policy x.c
    cacheCreate x.nsets x.bsize x.assoc policy hitLatency

/-- A second-level cache. -/
inductive L2 where
  | dl2 | il2
  deriving DecidableEq, Repr

inductive CacheName where
  | dl1 | il1 | itlb | dtlb
  | l2 (c : L2)
  deriving DecidableEq, Repr

/-- The option strings and the hit latencies. -/
structure Options where
  dl1 : String
  dl2 : String
  il1 : String
  il2 : String
  itlb : String
  dtlb : String
  dl1Lat : Word
  dl2Lat : Word
  il1Lat : Word
  il2Lat : Word

/-- The caches that exist, and the global variables that point to them. -/
structure Hierarchy where
  params : CacheName → Option Params
  dl1 : Option CacheName
  dl2 : Option L2
  il1 : Option CacheName
  il2 : Option L2
  itlb : Option CacheName
  dtlb : Option CacheName

def Hierarchy.empty : Hierarchy := ⟨fun _ => none, none, none, none, none, none, none⟩

def Hierarchy.add (h : Hierarchy) (name : CacheName) (p : Params) : Hierarchy :=
  { h with params := Function.update h.params name (some p) }

/-- The data caches. -/
def checkData (o : Options) (h : Hierarchy) : Except Stop Hierarchy :=
  if mystricmp o.dl1 "none" then
    if o.dl2 ≠ "none" then
      .error (.fatal "the l1 data cache must defined if the l2 cache is defined")
    else .ok h
  else do
    let p ← cacheParms "bad l1 D-cache parms: <name>:<nsets>:<bsize>:<assoc>:<repl>" o.dl1Lat o.dl1
    let h := { h.add .dl1 p with dl1 := some .dl1 }
    if mystricmp o.dl2 "none" then return h
    else
      let p ← cacheParms "bad l2 D-cache parms: <name>:<nsets>:<bsize>:<assoc>:<repl>" o.dl2Lat o.dl2
      return { h.add (.l2 .dl2) p with dl2 := some .dl2 }

def noIl2 (o : Options) (h : Hierarchy) : Except Stop Hierarchy :=
  if o.il2 ≠ "none" then
    .error (.fatal "the l1 inst cache must defined if the l2 cache is defined")
  else .ok h

/-- The instruction caches. -/
def checkInst (o : Options) (h : Hierarchy) : Except Stop Hierarchy :=
  if mystricmp o.il1 "none" then noIl2 o h
  else if mystricmp o.il1 "dl1" then
    if h.dl1 = none then
      .error (.fatal "I-cache l1 cannot access D-cache l1 as it's undefined")
    else noIl2 o { h with il1 := h.dl1 }
  else if mystricmp o.il1 "dl2" then
    if h.dl2 = none then
      .error (.fatal "I-cache l1 cannot access D-cache l2 as it's undefined")
    else noIl2 o { h with il1 := h.dl2.map .l2 }
  else do
    let p ← cacheParms "bad l1 I-cache parms: <name>:<nsets>:<bsize>:<assoc>:<repl>" o.il1Lat o.il1
    let h := { h.add .il1 p with il1 := some .il1 }
    if mystricmp o.il2 "none" then return h
    else if mystricmp o.il2 "dl2" then
      if h.dl2 = none then
        .error (.fatal "I-cache l2 cannot access D-cache l2 as it's undefined")
      else return { h with il2 := h.dl2 }
    else
      let p ← cacheParms "bad l2 I-cache parms: <name>:<nsets>:<bsize>:<assoc>:<repl>" o.il2Lat o.il2
      return { h.add (.l2 .il2) p with il2 := some .il2 }

def tlbParms (opt : String) : Except Stop Params :=
  cacheParms "bad TLB parms: <name>:<nsets>:<page_size>:<assoc>:<repl>" 1 opt

/-- The TLBs. -/
def checkTlbs (o : Options) (h : Hierarchy) : Except Stop Hierarchy := do
  let h ← if mystricmp o.itlb "none" then .ok h
    else (tlbParms o.itlb).map fun p => { h.add .itlb p with itlb := some .itlb }
  if mystricmp o.dtlb "none" then return h
  else (tlbParms o.dtlb).map fun p => { h.add .dtlb p with dtlb := some .dtlb }

/-- The caches `sim_check_options` creates. -/
def simCheckOptions (o : Options) : Except Stop Hierarchy := do
  let h ← checkData o .empty
  let h ← checkInst o h
  checkTlbs o h

/-! ### Miss handlers -/

/-- The options that determine the latency of memory. -/
structure MemLat where
  first : Nat
  inter : Nat
  busWidth : Nat
  tlbMiss : Nat

/-- `mem_access_latency`. -/
def MemLat.memAccessLatency (t : MemLat) (blkSz : Nat) : Word :=
  let chunks := (blkSz + (t.busWidth - 1)) / t.busWidth
  BitVec.ofNat 32 (t.first + t.inter * (chunks - 1))

/-- The simulators with a cache hierarchy; `sim-cache.c` ignores latencies. -/
inductive Simulator where
  | outorder (t : MemLat)
  | cache

namespace Simulator

/-- A data cache block from or to memory; `sim-outorder.c` has unlimited write buffers. -/
def dataMemory : Simulator → MemCmd → Nat → Word
  | outorder t, .read, bsize => t.memAccessLatency bsize
  | outorder _, .write, _ => 0
  | cache, _, _ => 1

/-- A data cache block from or to the level below. -/
def dataNested : Simulator → MemCmd → Word → Word
  | outorder _, .write, _ => 0
  | _, _, lat => lat

def instMemory : Simulator → MemCmd → Nat → Except Stop Word
  | outorder t, .read, bsize => .ok (t.memAccessLatency bsize)
  | outorder _, .write, _ => .error (.panic "writes to instruction memory not supported")
  | cache, _, _ => .ok 1

def instNested : Simulator → MemCmd → Word → Except Stop Word
  | outorder _, .write, _ => .error (.panic "writes to instruction memory not supported")
  | _, _, lat => .ok lat

def tlbMiss : Simulator → Word
  | outorder t => BitVec.ofNat 32 t.tlbMiss
  | cache => 1

end Simulator

/-- The states of all caches, and the outcomes of `random()` that are still to come. -/
structure Caches where
  state : CacheName → State
  random : Nat → Nat

def Caches.next (S : Caches) : Caches := { S with random := fun k => S.random (k + 1) }

/-- `cache_access` for one of the caches; there are no data. -/
def accessCache (h : Hierarchy) (fn : BlkAccess Caches) (name : CacheName) (cmd : MemCmd) (addr : Word)
    (nbytes : Nat) (now : Int) (S : Caches) : Except Stop (Word × Caches) :=
  match h.params name with
  | none => .error .undefined
  | some p => do
    let r ← access p fn cmd addr [] nbytes now (S.random 0) (S.state name) S.next
    return (r.lat, { r.next with state := Function.update r.next.state name r.cache })

/-- `dl2_access_fn`, `il2_access_fn`. -/
def l2AccessFn (sim : Simulator) : L2 → BlkAccess Caches
  | .dl2, cmd, _, bsize, data, _, S => .ok (sim.dataMemory cmd bsize, data, S)
  | .il2, cmd, _, bsize, data, _, S => do
    let lat ← sim.instMemory cmd bsize
    return (lat, data, S)

def dl1AccessFn (h : Hierarchy) (sim : Simulator) : BlkAccess Caches :=
  fun cmd baddr bsize data now S =>
    match h.dl2 with
    | some q => do
      let (lat, S) ← accessCache h (l2AccessFn sim q) (.l2 q) cmd baddr bsize now S
      return (sim.dataNested cmd lat, data, S)
    | none => .ok (sim.dataMemory cmd bsize, data, S)

def il1AccessFn (h : Hierarchy) (sim : Simulator) : BlkAccess Caches :=
  fun cmd baddr bsize data now S =>
    match h.il2 with
    | some q => do
      let (lat, S) ← accessCache h (l2AccessFn sim q) (.l2 q) cmd baddr bsize now S
      let lat ← sim.instNested cmd lat
      return (lat, data, S)
    | none => do
      let lat ← sim.instMemory cmd bsize
      return (lat, data, S)

/-- `itlb_access_fn`, `dtlb_access_fn`: the translation is a fake. -/
def tlbAccessFn (sim : Simulator) : BlkAccess Caches := fun _ _ _ data _ S =>
  .ok (sim.tlbMiss, data, S)

/-- The handler a cache has been created with. -/
def blkAccessFn (h : Hierarchy) (sim : Simulator) : CacheName → BlkAccess Caches
  | .dl1 => dl1AccessFn h sim
  | .il1 => il1AccessFn h sim
  | .itlb => tlbAccessFn sim
  | .dtlb => tlbAccessFn sim
  | .l2 q => l2AccessFn sim q

/-! ### What the simulators do -/

/-- The global variables a simulator accesses caches through. -/
inductive Port where
  | dl1 | il1 | itlb | dtlb
  deriving DecidableEq, Repr

def Hierarchy.port (h : Hierarchy) : Port → Option CacheName
  | .dl1 => h.dl1
  | .il1 => h.il1
  | .itlb => h.itlb
  | .dtlb => h.dtlb

/-- An access, if the cache exists, or the flush of a cache. -/
inductive CpuOp where
  | access (q : Port) (cmd : MemCmd) (addr : Word) (nbytes : Nat) (now : Int)
  | flush (name : CacheName) (now : Int)

def cpuStep (h : Hierarchy) (sim : Simulator) : CpuOp → Caches → Except Stop (Word × Caches)
  | .access q cmd addr nbytes now, S =>
    match h.port q with
    | none => .ok (0, S)
    | some name => accessCache h (blkAccessFn h sim name) name cmd addr nbytes now S
  | .flush name now, S =>
    match h.params name with
    | none => .ok (0, S)
    | some p => do
      let (lat, c, S) ← flush p (blkAccessFn h sim name) now (S.state name) S
      return (lat, { S with state := Function.update S.state name c })

def cpuRun (h : Hierarchy) (sim : Simulator) : List CpuOp → Caches → Except Stop Caches
  | [], S => .ok S
  | op :: ops, S => do
    let (_, S) ← cpuStep h sim op S
    cpuRun h sim ops S

/-- All caches as `cache_create` leaves them. -/
def Hierarchy.create (h : Hierarchy) (random : Nat → Nat) : Caches where
  state name := match h.params name with
    | some p => Cache.create p
    | none => ⟨0, 0, 0, 0, 0, 0, 0, none, fun _ => ⟨[], fun _ => [], fun _ => ⟨0, false, false, 0, [], 0⟩⟩⟩
  random := random

end SimpleScalar.Cache

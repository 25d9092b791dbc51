import SimpleScalar.Cache.Geometry
import SimpleScalar.Cache.Runs
import SimpleScalar.Lib.LinkedList

/-!
# The linked lists of a set

The way list and the bucket chains as `cache.c` has them: a block has the fields
`way_next`, `way_prev` and `hash_next`, a set has `way_head`, `way_tail` and `hash`.  All
blocks of these lists are blocks of the set, so that a pointer is a position in the array
of the set or null.  The statements of `update_way_list`, `unlink_htab_ent` and
`link_htab_ent` are those of the source, with their asserts; a loop has fuel for one more
than all blocks of the set.

Here, a cache is of any geometry that `cache_create` accepts.  `cache_access` and
`cache_flush_addr` begin with `CACHE_TAG`, which is undefined if the geometry is not
`Addressable`.
-/

namespace SimpleScalar.Cache

open LinkedList

/-- A pointer to a block of the set. -/
abbrev Ptr := Option Nat

/-- `struct cache_set`, with the links of its blocks. -/
structure LinkedSet where
  wayHead : Ptr
  wayTail : Ptr
  hash : Nat → Ptr
  wayNext : Nat → Ptr
  wayPrev : Nat → Ptr
  hashNext : Nat → Ptr
  blks : Nat → Blk

/-- The changing part of `struct cache`. -/
structure LinkedState where
  busFree : Int
  hits : Nat
  misses : Nat
  replacements : Nat
  writebacks : Nat
  invalidations : Nat
  lastTagset : Word
  lastBlk : Option (Nat × Nat)
  sets : Nat → LinkedSet

/-- What `cache_access` returns and leaves behind. -/
structure LinkedResult (σ : Type) where
  lat : Word
  buf : List Byte
  replAddr : Word
  cache : LinkedState
  next : σ

/-- Why a call does not return. -/
inductive Fault where
  | stop (e : Stop)
  /-- a failed `assert` -/
  | assertion
  /-- a loop over a list without an end -/
  | endless

namespace Linked

def lift {α : Type} (x : Except Stop α) : Except Fault α := x.mapError .stop

def assert (b : Bool) : Except Fault Unit := if b then .ok () else .error .assertion

/-- The result of a loop over a list. -/
def loop {α : Type} (x : Option α) : Except Fault α :=
  match x with
  | some a => .ok a
  | none => .error .endless

/-! ### Hash chains -/

variable (g : Geometry)

/-- `unlink_htab_ent`, if the cache has hash tables. -/
def unlinkHtabEnt (set : LinkedSet) (blk : Nat) : Except Fault LinkedSet :=
  if g.hsize = 0 then .ok set
  else do
    let index := g.hash (set.blks blk).tag
    let (prev, ent) ← loop (locate set.hashNext blk (g.assoc + 1) none (set.hash index))
    match ent with
    | none => .error .assertion
    | some ent =>
      let set :=
        match prev with
        -- head of the bucket chain
        | none => { set with hash := Function.update set.hash index (set.hashNext ent) }
        -- middle or end of the bucket chain
        | some prev =>
          { set with hashNext := Function.update set.hashNext prev (set.hashNext ent) }
      return { set with hashNext := Function.update set.hashNext ent none }

/-- `link_htab_ent`, if the cache has hash tables. -/
def linkHtabEnt (set : LinkedSet) (blk : Nat) : LinkedSet :=
  if g.hsize = 0 then set
  else
    let index := g.hash (set.blks blk).tag
    { set with
      hashNext := Function.update set.hashNext blk (set.hash index)
      hash := Function.update set.hash index (some blk) }

/-! ### The way list -/

/-- `enum list_loc_t`. -/
inductive ListLoc where
  | Head | Tail
  deriving DecidableEq

/-- The second half of `update_way_list`. -/
def linkWay (set : LinkedSet) (blk : Nat) : ListLoc → Except Fault LinkedSet
  | .Head =>
    match set.wayHead with
    | none => .error (.stop .undefined)
    | some head => .ok { set with
        wayNext := Function.update set.wayNext blk (some head)
        wayPrev := Function.update (Function.update set.wayPrev blk none) head (some blk)
        wayHead := some blk }
  | .Tail =>
    match set.wayTail with
    | none => .error (.stop .undefined)
    | some tail => .ok { set with
        wayPrev := Function.update set.wayPrev blk (some tail)
        wayNext := Function.update (Function.update set.wayNext blk none) tail (some blk)
        wayTail := some blk }

/-- `update_way_list`. -/
def updateWayList (set : LinkedSet) (blk : Nat) (loc : ListLoc) : Except Fault LinkedSet :=
  match set.wayPrev blk, set.wayNext blk with
  -- only one entry in list
  | none, none => do
    assert (set.wayHead == some blk && set.wayTail == some blk)
    return set
  | none, some next => do
    assert (set.wayHead == some blk && set.wayTail != some blk)
    if loc = .Head then return set
    linkWay
      { set with wayHead := some next, wayPrev := Function.update set.wayPrev next none } blk loc
  -- end of list
  | some prev, none => do
    assert (set.wayHead != some blk && set.wayTail == some blk)
    if loc = .Tail then return set
    linkWay
      { set with wayTail := some prev, wayNext := Function.update set.wayNext prev none } blk loc
  -- middle of list
  | some prev, some next => do
    assert (set.wayHead != some blk && set.wayTail != some blk)
    linkWay
      { set with
        wayNext := Function.update set.wayNext prev (some next)
        wayPrev := Function.update set.wayPrev next (some prev) } blk loc

/-! ### Creation -/

def zero : Blk where
  tag := 0
  valid := false
  dirty := false
  ready := 0
  data := if g.balloc then List.replicate g.bsize 0 else []
  origin := 0

/-- One round of the loop that links the blocks of a set. -/
def linkBlk (set : LinkedSet) (blk : Nat) : LinkedSet :=
  let set := linkHtabEnt g set blk
  { set with
    wayNext := Function.update set.wayNext blk set.wayHead
    wayPrev :=
      match set.wayHead with
      | none => Function.update set.wayPrev blk none
      | some head => Function.update (Function.update set.wayPrev blk none) head (some blk)
    wayHead := some blk
    wayTail := if set.wayTail.isNone then some blk else set.wayTail }

def createSet : LinkedSet :=
  (List.range g.assoc).foldl (linkBlk g)
    ⟨none, none, fun _ => none, fun _ => none, fun _ => none, fun _ => none, fun _ => zero g⟩

def create : LinkedState where
  busFree := 0
  hits := 0
  misses := 0
  replacements := 0
  writebacks := 0
  invalidations := 0
  lastTagset := 0
  lastBlk := none
  sets := fun _ => createSet g

/-! ### Access -/

/-- The search through a bucket chain or the way list. -/
def findBlk (set : LinkedSet) (tag : Word) : Except Fault Ptr :=
  loop <|
    if g.hsize ≠ 0 then
      search set.hashNext (fun w => (set.blks w).tag == tag && (set.blks w).valid) (g.assoc + 1)
        (set.hash (g.hash tag))
    else
      search set.wayNext (fun w => (set.blks w).tag == tag && (set.blks w).valid) (g.assoc + 1)
        set.wayHead

def setBlk (set : LinkedSet) (w : Nat) (b : Blk) : LinkedSet :=
  { set with blks := Function.update set.blks w b }

section Access

variable {σ : Type} (p : Params)

/-- `cache_hit` and `cache_fast_hit`; the latter does not reorder the way list. -/
def hit (reorder : Bool) (cmd : MemCmd) (addr : Word) (buf : List Byte) (nbytes : Nat) (now : Int)
    (i w : Nat) (c : LinkedState) (n : σ) : Except Fault (LinkedResult σ) := do
  let b := (c.sets i).blks w
  let (data, buf) ← lift (bcopy p cmd b.data (p.blk addr) nbytes buf)
  let b := { b with data := data, dirty := b.dirty || cmd == .write }
  let set := setBlk (c.sets i) w b
  let set ←
    if reorder && (set.wayPrev w).isSome && p.policy == .LRU then updateWayList set w .Head
    else .ok set
  return {
    lat := BitVec.ofInt 32 (max p.hitLatency.toInt (toInt32 (b.ready - now)))
    buf := buf
    replAddr := 0
    cache :=
      { c with
        hits := c.hits + 1
        lastTagset := p.tagset addr
        lastBlk := some (i, w)
        sets := Function.update c.sets i set }
    next := n }

/-- The block a miss replaces, and the set with its way list updated. -/
def replace (rnd : Nat) (set : LinkedSet) : Except Fault (Nat × LinkedSet) :=
  match p.policy with
  | .Random => .ok (rnd &&& (p.assoc - 1), set)
  | _ =>
    match set.wayTail with
    | none => .error (.stop .undefined)
    | some w => do
      let set ← updateWayList set w .Head
      return (w, set)

/-- The miss path of `cache_access`. -/
def miss (fn : BlkAccess σ) (cmd : MemCmd) (addr : Word) (buf : List Byte) (nbytes : Nat)
    (now : Int) (rnd : Nat) (c : LinkedState) (n : σ) : Except Fault (LinkedResult σ) := do
  let i := p.set addr
  let (w, set) ← replace p rnd (c.sets i)
  let set ← unlinkHtabEnt g set w
  let b := set.blks w
  let (lat, busFree, writes, n) ← lift (evict p fn b i now c.busFree n)
  let (rlat, data, n) ← lift (fn .read (p.baddr addr) p.bsize b.data (now + lat.toInt) n)
  let lat := lat + rlat
  let (data, buf) ← lift (bcopy p cmd data (p.blk addr) nbytes buf)
  let b' : Blk :=
    { tag := p.tag addr, valid := true, dirty := cmd == .write, ready := now + lat.toInt, data := data,
      origin := p.baddr addr }
  let set := linkHtabEnt g (setBlk set w b') w
  return {
    lat := lat
    buf := buf
    replAddr := if b.valid then p.mkBaddr b.tag i else 0
    cache :=
      { c with
        busFree := busFree
        misses := c.misses + 1
        replacements := c.replacements + b.valid.toNat
        writebacks := c.writebacks + writes
        lastTagset := 0
        lastBlk := none
        sets := Function.update c.sets i set }
    next := n }

end Access

variable {σ : Type}

/-- `cache_access`. -/
def access (fn : BlkAccess σ) (cmd : MemCmd) (addr : Word) (buf : List Byte) (nbytes : Nat)
    (now : Int) (rnd : Nat) (c : LinkedState) (n : σ) : Except Fault (LinkedResult σ) :=
  if h : g.Addressable then do
    let p := g.params h
    lift (checkAccess p addr nbytes)
    if p.tagset addr = c.lastTagset then
      match c.lastBlk with
      -- a null pointer
      | none => .error (.stop .undefined)
      | some (i, w) => hit p false cmd addr buf nbytes now i w c n
    else
      match ← findBlk g (c.sets (p.set addr)) (p.tag addr) with
      | some w => hit p true cmd addr buf nbytes now (p.set addr) w c n
      | none => miss g p fn cmd addr buf nbytes now rnd c n
  else .error (.stop .undefined)

/-! ### Flushing -/

/-- Invalidating a block: latency, cache, state below. -/
def invalidate (fn : BlkAccess σ) (i w : Nat) (lat : Word) (now : Int) (c : LinkedState) (n : σ) :
    Except Fault (Word × LinkedState × σ) := do
  let b := (c.sets i).blks w
  let c :=
    { c with
      invalidations := c.invalidations + 1
      sets := Function.update c.sets i (setBlk (c.sets i) w { b with valid := false }) }
  if b.dirty then
    let baddr ← lift (g.mkBaddr b.tag (BitVec.ofNat 32 i))
    let (wlat, _, n) ← lift (fn .write baddr g.bsize b.data (now + lat.toInt) n)
    return (lat + wlat, c, n)
  else return (lat, c, n)

/-- The body of the loop over the blocks of a set. -/
def flushBlk (fn : BlkAccess σ) (i w : Nat) (now : Int) (x : Word × LinkedState × σ) :
    Except Fault (Word × LinkedState × σ) :=
  if ((x.2.1.sets i).blks w).valid then invalidate g fn i w x.1 now x.2.1 x.2.2 else .ok x

/-- The loop over the blocks of a set. -/
def flushWays (fn : BlkAccess σ) (i : Nat) (now : Int) :
    Nat → Ptr → Word × LinkedState × σ → Except Fault (Word × LinkedState × σ)
  | 0, _, _ => .error .endless
  | _ + 1, none, x => .ok x
  | fuel + 1, some w, x => do
    let x ← flushBlk g fn i w now x
    flushWays fn i now fuel ((x.2.1.sets i).wayNext w) x

/-- The loop over the sets. -/
def flushSets (fn : BlkAccess σ) (now : Int) :
    List Nat → Word × LinkedState × σ → Except Fault (Word × LinkedState × σ)
  | [], x => .ok x
  | i :: is, x => do
    let x ← flushWays g fn i now (g.assoc + 1) (x.2.1.sets i).wayHead x
    flushSets fn now is x

/-- `cache_flush`. -/
def flush (fn : BlkAccess σ) (now : Int) (c : LinkedState) (n : σ) :
    Except Fault (Word × LinkedState × σ) :=
  flushSets g fn now (List.range g.nsets)
    (g.hitLatency, { c with lastTagset := 0, lastBlk := none }, n)

/-- `cache_flush_addr`. -/
def flushAddr (fn : BlkAccess σ) (addr : Word) (now : Int) (c : LinkedState) (n : σ) :
    Except Fault (Word × LinkedState × σ) :=
  if h : g.Addressable then do
    let p := g.params h
    match ← findBlk g (c.sets (p.set addr)) (p.tag addr) with
    | none => return (p.hitLatency, c, n)
    | some w =>
      let c := { c with lastTagset := 0, lastBlk := none }
      let (lat, c, n) ← invalidate g fn (p.set addr) w p.hitLatency now c n
      let set ← updateWayList (c.sets (p.set addr)) w .Tail
      return (lat, { c with sets := Function.update c.sets (p.set addr) set }, n)
  else .error (.stop .undefined)

/-! ### Runs -/

/-- One call. -/
def step (fn : BlkAccess σ) : Op → LinkedState × σ → Except Fault (Out × LinkedState × σ)
  | .access cmd addr buf nbytes now rnd, (c, n) => do
    let r ← access g fn cmd addr buf nbytes now rnd c n
    return (⟨some (r.cache.hits == c.hits + 1), r.buf, r.replAddr⟩, r.cache, r.next)
  | .flush now, (c, n) => do
    let r ← flush g fn now c n
    return (⟨none, [], 0⟩, r.2)
  | .flushAddr addr now, (c, n) => do
    let r ← flushAddr g fn addr now c n
    return (⟨none, [], 0⟩, r.2)

def runOps (fn : BlkAccess σ) :
    List Op → LinkedState × σ → Except Fault (List Out × LinkedState × σ)
  | [], x => .ok ([], x)
  | op :: ops, x => do
    let (o, x) ← step g fn op x
    let (os, x) ← runOps fn ops x
    return (o :: os, x)

end Linked

end SimpleScalar.Cache

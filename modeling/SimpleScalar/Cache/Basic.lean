import SimpleScalar.Memory

/-!
# The cache module

`cache.c`.  A block is addressed by the set it belongs to and its position in the
array of the set; the way list and the hash bucket chains of a set, which the source
links through the blocks, are lists of positions.  The status word is its two flags.
User data, which the module only hands through, and the names are left out.

A cache calls `blk_access_fn` for whole blocks.  The function is a parameter here,
with the state `σ` of whatever lies below.  The choice of `random()` is an argument of
the access.

`Params` are the parameters `cache_create` accepts, with `nsets * bsize` below the
size of the address space: otherwise a shift by the width of an address or more is
undefined.

`Blk.origin` is a ghost: the address the block was read from.
-/

namespace SimpleScalar.Cache

/-- `enum cache_policy`. -/
inductive Policy where
  | LRU | Random | FIFO
  deriving DecidableEq, Repr

structure Params where
  nsets : Nat
  bsize : Nat
  balloc : Bool
  assoc : Nat
  policy : Policy
  hitLatency : Word
  nsets_pos : 0 < nsets
  nsets_pow : nsets &&& (nsets - 1) = 0
  bsize_min : 8 ≤ bsize
  bsize_pow : bsize &&& (bsize - 1) = 0
  assoc_pos : 0 < assoc
  assoc_pow : assoc &&& (assoc - 1) = 0
  bsize_int : bsize < 2 ^ 31
  assoc_int : assoc < 2 ^ 31
  fits : nsets * bsize < 2 ^ 32

/-- The geometries that `Params` accepts. -/
abbrev Params.Admits (nsets bsize assoc : Nat) : Prop :=
  (0 < nsets ∧ nsets &&& (nsets - 1) = 0) ∧ (8 ≤ bsize ∧ bsize &&& (bsize - 1) = 0) ∧
    (0 < assoc ∧ assoc &&& (assoc - 1) = 0) ∧
    bsize < 2 ^ 31 ∧ assoc < 2 ^ 31 ∧ nsets * bsize < 2 ^ 32

/-- Parameters from a geometry. -/
def Params.of (nsets bsize assoc : Nat) (balloc : Bool) (policy : Policy) (hitLatency : Word)
    (h : Params.Admits nsets bsize assoc) : Params where
  nsets := nsets
  bsize := bsize
  balloc := balloc
  assoc := assoc
  policy := policy
  hitLatency := hitLatency
  nsets_pos := h.1.1
  nsets_pow := h.1.2
  bsize_min := h.2.1.1
  bsize_pow := h.2.1.2
  assoc_pos := h.2.2.1.1
  assoc_pow := h.2.2.1.2
  bsize_int := h.2.2.2.1
  assoc_int := h.2.2.2.2.1
  fits := h.2.2.2.2.2

namespace Params

variable (p : Params)

/-! ### Derived parameters -/

/-- `CACHE_HIGHLY_ASSOC` caches have hash tables. -/
def hsize : Nat := if p.assoc > 4 then p.assoc >>> 2 else 0

def blkMask : Word := BitVec.ofNat 32 (p.bsize - 1)

def setShift : Nat := p.bsize.log2

def setMask : Word := BitVec.ofNat 32 (p.nsets - 1)

def tagShift : Nat := p.setShift + p.nsets.log2

def tagsetMask : Word := ~~~p.blkMask

/-! ### Address macros -/

def tag (addr : Word) : Word := addr >>> p.tagShift

/-- `CACHE_SET`, as an index. -/
def set (addr : Word) : Nat := ((addr >>> p.setShift) &&& p.setMask).toNat

def blk (addr : Word) : Nat := (addr &&& p.blkMask).toNat

def tagset (addr : Word) : Word := addr &&& p.tagsetMask

def baddr (addr : Word) : Word := addr &&& ~~~p.blkMask

def mkBaddr (tag : Word) (set : Nat) : Word :=
  (tag <<< p.tagShift) ||| (BitVec.ofNat 32 set <<< p.setShift)

def hash (key : Word) : Nat :=
  (((key >>> 24) ^^^ (key >>> 16) ^^^ (key >>> 8) ^^^ key) &&& BitVec.ofNat 32 (p.hsize - 1)).toNat

end Params

/-! ### State -/

/-- `struct cache_blk`. -/
structure Blk where
  tag : Word
  valid : Bool
  dirty : Bool
  ready : Int
  data : List Byte
  origin : Word
  deriving DecidableEq, Repr

/-- `struct cache_set`. -/
structure CacheSet where
  ways : List Nat
  hash : Nat → List Nat
  blks : Nat → Blk

/-- The changing part of `struct cache`. -/
structure State where
  busFree : Int
  hits : Nat
  misses : Nat
  replacements : Nat
  writebacks : Nat
  invalidations : Nat
  lastTagset : Word
  lastBlk : Option (Nat × Nat)
  sets : Nat → CacheSet

/-- `blk_access_fn`: command, block address, block size, data of the block, time. -/
abbrev BlkAccess (σ : Type) :=
  MemCmd → Word → Nat → List Byte → Int → σ → Except Stop (Word × List Byte × σ)

/-- What `cache_access` returns and leaves behind. -/
structure Result (σ : Type) where
  lat : Word
  buf : List Byte
  replAddr : Word
  cache : State
  next : σ

/-! ### Lists -/

/-- `update_way_list(set, blk, Head)`. -/
def CacheSet.toHead (st : CacheSet) (w : Nat) : CacheSet := { st with ways := w :: st.ways.erase w }

/-- `update_way_list(set, blk, Tail)`. -/
def CacheSet.toTail (st : CacheSet) (w : Nat) : CacheSet := { st with ways := st.ways.erase w ++ [w] }

variable (p : Params)

/-- `unlink_htab_ent`, if the cache has hash tables. -/
def unlinkHtabEnt (st : CacheSet) (w : Nat) : Except Stop CacheSet :=
  if p.hsize = 0 then .ok st
  else
    let index := p.hash (st.blks w).tag
    if w ∈ st.hash index then
      .ok { st with hash := Function.update st.hash index ((st.hash index).erase w) }
    else .error (.panic "assertion failed: ent")

/-- `link_htab_ent`, if the cache has hash tables. -/
def linkHtabEnt (st : CacheSet) (w : Nat) : CacheSet :=
  if p.hsize = 0 then st
  else
    let index := p.hash (st.blks w).tag
    { st with hash := Function.update st.hash index (w :: st.hash index) }

/-! ### Creation -/

def Blk.zero (p : Params) : Blk where
  tag := 0
  valid := false
  dirty := false
  ready := 0
  data := if p.balloc then List.replicate p.bsize 0 else []
  origin := 0

/-- One round of the loop that links the blocks of a set. -/
def linkBlk (st : CacheSet) (w : Nat) : CacheSet :=
  let st := linkHtabEnt p st w
  { st with ways := w :: st.ways }

def createSet : CacheSet :=
  (List.range p.assoc).foldl (linkBlk p) ⟨[], fun _ => [], fun _ => Blk.zero p⟩

def create : State where
  busFree := 0
  hits := 0
  misses := 0
  replacements := 0
  writebacks := 0
  invalidations := 0
  lastTagset := 0
  lastBlk := none
  sets := fun _ => createSet p

/-! ### Searching -/

/-- The list a lookup walks through. -/
def chain (st : CacheSet) (tag : Word) : List Nat :=
  if p.hsize ≠ 0 then st.hash (p.hash tag) else st.ways

def findBlk (st : CacheSet) (tag : Word) : Option Nat :=
  (chain p st tag).find? fun w => (st.blks w).tag == tag && (st.blks w).valid

/-- `cache_probe`. -/
def probe (addr : Word) (c : State) : Bool :=
  (findBlk p (c.sets (p.set addr)) (p.tag addr)).isSome

/-! ### Access -/

/-- The conversion of a time difference to `int`. -/
def toInt32 (t : Int) : Int := (BitVec.ofInt 32 t).toInt

/-- The checks of `cache_access`; sums of addresses wrap. -/
def checkAccess (addr : Word) (nbytes : Nat) : Except Stop Unit :=
  if nbytes &&& (nbytes - 1) ≠ 0 ∨ addr &&& (BitVec.ofNat 32 nbytes - 1) ≠ 0 then
    .error (.fatal ("cache: access error: bad size or alignment, addr 0x" ++ addr.toHex))
  else if (addr &&& ~~~p.blkMask) + BitVec.ofNat 32 p.bsize < addr + BitVec.ofNat 32 nbytes then
    .error (.fatal ("cache: access error: access spans block, addr 0x" ++ addr.toHex))
  else .ok ()

/-- `CACHE_BCOPY`, if the cache has data: the block and the buffer after the copy.
Copying past the end of the block is undefined. -/
def bcopy (cmd : MemCmd) (data : List Byte) (bofs nbytes : Nat) (buf : List Byte) :
    Except Stop (List Byte × List Byte) :=
  if p.balloc = false then .ok (data, buf)
  else if bofs + nbytes > p.bsize then .error .undefined
  else
    match cmd with
    | .read => .ok (data, (data.drop bofs).take nbytes)
    | .write => .ok (data.take bofs ++ buf.take nbytes ++ data.drop (bofs + nbytes), buf)

def State.modifySet (c : State) (i : Nat) (f : CacheSet → CacheSet) : State :=
  { c with sets := Function.update c.sets i (f (c.sets i)) }

def CacheSet.setBlk (st : CacheSet) (w : Nat) (b : Blk) : CacheSet :=
  { st with blks := Function.update st.blks w b }

@[simp] theorem CacheSet.setBlk_self (st : CacheSet) (w : Nat) (b : Blk) :
    (st.setBlk w b).blks w = b := Function.update_self ..

theorem CacheSet.setBlk_of_ne (st : CacheSet) {w v : Nat} (b : Blk) (h : v ≠ w) :
    (st.setBlk w b).blks v = st.blks v := Function.update_of_ne h ..

variable {σ : Type}

/-- `cache_hit` and `cache_fast_hit`; the latter does not reorder the way list. -/
def hit (reorder : Bool) (cmd : MemCmd) (addr : Word) (buf : List Byte) (nbytes : Nat) (now : Int)
    (i w : Nat) (c : State) (n : σ) : Except Stop (Result σ) := do
  let b := (c.sets i).blks w
  let (data, buf) ← bcopy p cmd b.data (p.blk addr) nbytes buf
  let b := { b with data := data, dirty := b.dirty || cmd == .write }
  let c := c.modifySet i fun st => st.setBlk w b
  let c :=
    if reorder && (c.sets i).ways.head? != some w && p.policy == .LRU then
      c.modifySet i fun st => st.toHead w
    else c
  return {
    lat := BitVec.ofInt 32 (max p.hitLatency.toInt (toInt32 (b.ready - now)))
    buf := buf
    replAddr := 0
    cache := { c with hits := c.hits + 1, lastTagset := p.tagset addr, lastBlk := some (i, w) }
    next := n }

/-- The block a miss replaces, and the set with its way list updated. -/
def replace (rnd : Nat) (st : CacheSet) : Except Stop (Nat × CacheSet) :=
  match p.policy with
  | .Random => .ok (rnd &&& (p.assoc - 1), st)
  | _ =>
    match st.ways.getLast? with
    | none => .error .undefined
    | some w => .ok (w, st.toHead w)

/-- Writing back a valid block that is replaced: latency, bus time, write-backs, state below. -/
def writeBack (fn : BlkAccess σ) (b : Blk) (i : Nat) (now : Int) (busFree : Int) (n : σ) :
    Except Stop (Word × Int × Nat × σ) := do
  -- outstanding misses are satisfied first, then the bus has to be free
  let lat : Word := BitVec.ofInt 32 (max 0 (toInt32 (b.ready - now)))
  let lat := lat + BitVec.ofInt 32 (max 0 (toInt32 (busFree - (now + lat.toInt))))
  let busFree := max busFree (now + lat.toInt) + 1
  if b.dirty then
    let (wlat, _, n) ← fn .write (p.mkBaddr b.tag i) p.bsize b.data (now + lat.toInt) n
    return (lat + wlat, busFree, 1, n)
  else return (lat, busFree, 0, n)

/-- The replaced block leaves the cache. -/
def evict (fn : BlkAccess σ) (b : Blk) (i : Nat) (now : Int) (busFree : Int) (n : σ) :
    Except Stop (Word × Int × Nat × σ) :=
  if b.valid then writeBack p fn b i now busFree n else .ok (0, busFree, 0, n)

/-- The miss path of `cache_access`. -/
def miss (fn : BlkAccess σ) (cmd : MemCmd) (addr : Word) (buf : List Byte) (nbytes : Nat)
    (now : Int) (rnd : Nat) (c : State) (n : σ) : Except Stop (Result σ) := do
  let i := p.set addr
  let (w, st) ← replace p rnd (c.sets i)
  let st ← unlinkHtabEnt p st w
  let b := st.blks w
  let (lat, busFree, writes, n) ← evict p fn b i now c.busFree n
  let (rlat, data, n) ← fn .read (p.baddr addr) p.bsize b.data (now + lat.toInt) n
  let lat := lat + rlat
  let (data, buf) ← bcopy p cmd data (p.blk addr) nbytes buf
  let b' : Blk :=
    { tag := p.tag addr, valid := true, dirty := cmd == .write, ready := now + lat.toInt, data := data,
      origin := p.baddr addr }
  let st := linkHtabEnt p (st.setBlk w b') w
  return {
    lat := lat
    buf := buf
    replAddr := if b.valid then p.mkBaddr b.tag i else 0
    cache :=
      { c with
        busFree := busFree
        misses := c.misses + 1
        replacements := c.replacements + b.valid.toNat
        writebacks := c.writebacks + writes
        lastTagset := 0
        lastBlk := none
        sets := Function.update c.sets i st }
    next := n }

/-- `cache_access`. -/
def access (fn : BlkAccess σ) (cmd : MemCmd) (addr : Word) (buf : List Byte) (nbytes : Nat)
    (now : Int) (rnd : Nat) (c : State) (n : σ) : Except Stop (Result σ) := do
  checkAccess p addr nbytes
  if p.tagset addr = c.lastTagset then
    match c.lastBlk with
    -- a null pointer
    | none => .error .undefined
    | some (i, w) => hit p false cmd addr buf nbytes now i w c n
  else
    match findBlk p (c.sets (p.set addr)) (p.tag addr) with
    | some w => hit p true cmd addr buf nbytes now (p.set addr) w c n
    | none => miss p fn cmd addr buf nbytes now rnd c n

/-! ### Flushing -/

/-- Invalidating a block: latency, cache, state below. -/
def invalidate (fn : BlkAccess σ) (i w : Nat) (lat : Word) (now : Int) (c : State) (n : σ) :
    Except Stop (Word × State × σ) := do
  let b := (c.sets i).blks w
  let c := c.modifySet i fun st => st.setBlk w { b with valid := false }
  let c := { c with invalidations := c.invalidations + 1 }
  if b.dirty then
    let (wlat, _, n) ← fn .write (p.mkBaddr b.tag i) p.bsize b.data (now + lat.toInt) n
    return (lat + wlat, c, n)
  else return (lat, c, n)

/-- The body of the loop over the blocks of a set. -/
def flushBlk (fn : BlkAccess σ) (i w : Nat) (now : Int) (x : Word × State × σ) :
    Except Stop (Word × State × σ) :=
  if ((x.2.1.sets i).blks w).valid then invalidate p fn i w x.1 now x.2.1 x.2.2 else .ok x

/-- The loop over the blocks of a set. -/
def flushWays (fn : BlkAccess σ) (i : Nat) (now : Int) :
    List Nat → Word × State × σ → Except Stop (Word × State × σ)
  | [], x => .ok x
  | w :: ws, x => do
    let x ← flushBlk p fn i w now x
    flushWays fn i now ws x

/-- The loop over the sets. -/
def flushSets (fn : BlkAccess σ) (now : Int) :
    List Nat → Word × State × σ → Except Stop (Word × State × σ)
  | [], x => .ok x
  | i :: is, x => do
    let x ← flushWays p fn i now (x.2.1.sets i).ways x
    flushSets fn now is x

/-- `cache_flush`. -/
def flush (fn : BlkAccess σ) (now : Int) (c : State) (n : σ) : Except Stop (Word × State × σ) :=
  flushSets p fn now (List.range p.nsets)
    (p.hitLatency, { c with lastTagset := 0, lastBlk := none }, n)

/-- `cache_flush_addr`. -/
def flushAddr (fn : BlkAccess σ) (addr : Word) (now : Int) (c : State) (n : σ) :
    Except Stop (Word × State × σ) :=
  match findBlk p (c.sets (p.set addr)) (p.tag addr) with
  | none => .ok (p.hitLatency, c, n)
  | some w => do
    let c := { c with lastTagset := 0, lastBlk := none }
    let (lat, c, n) ← invalidate p fn (p.set addr) w p.hitLatency now c n
    return (lat, c.modifySet (p.set addr) fun st => st.toTail w, n)

end SimpleScalar.Cache

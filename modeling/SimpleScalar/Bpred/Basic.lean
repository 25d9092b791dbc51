import SimpleScalar.Isa.Opcode

/-!
# Branch predictors

`bpred.c`.  A predictor has up to three direction predictors (a bimodal one, a two-level
one and the meta predictor), a branch target buffer and a return-address stack.

A pointer into a table of counters is the table and a position, a pointer to an entry of
the BTB is its position.  A component that is not allocated has no entries.  Reading or
writing past a table, or through a null pointer, is undefined.  Arithmetic on `int`s and
`unsigned int`s is that of 32-bit words.
-/

namespace SimpleScalar.Bpred

/-- `enum bpred_class` -/
inductive Class where
  | comb | twoLevel | twoBit | taken | notTaken
  deriving DecidableEq, Repr

/-- Why a call does not return. -/
inductive Fault where
  /-- a failed `assert` -/
  | assertion
  | undefined
  deriving DecidableEq, Repr

def assert (b : Bool) : Except Fault Unit := if b then .ok () else .error .assertion

/-- An element of a table. -/
def get {α : Type} (l : List α) (i : Nat) : Except Fault α :=
  match l[i]? with
  | some a => .ok a
  | none => .error .undefined

/-! ### Direction predictors -/

/-- `struct bpred_dir` of class `BPred2bit`. -/
structure Bimod where
  size : Word
  table : List Nat
  deriving DecidableEq, Repr

/-- `struct bpred_dir` of class `BPred2Level`. -/
structure TwoLevel where
  l1size : Word
  l2size : Word
  shiftWidth : Word
  xor : Word
  shiftregs : List Word
  l2table : List Nat
  deriving DecidableEq, Repr

/-- The counters as `bpred_dir_create` leaves them. -/
def flipflop : Nat → Nat → List Nat
  | 0, _ => []
  | n + 1, x => x :: flipflop n (3 - x)

/-- The test for sizes. -/
def isPow2 (n : Word) : Bool := n != 0 && n &&& (n - 1) == 0

def createBimod (l1size : Word) : Except Stop Bimod :=
  if !isPow2 l1size then .error (.fatal "2bit table size must be non-zero and a power of two")
  else .ok ⟨l1size, flipflop l1size.toNat 1⟩

def createTwoLevel (l1size l2size shiftWidth xor : Word) : Except Stop TwoLevel :=
  if !isPow2 l1size then .error (.fatal "level-1 size must be non-zero and a power of two")
  else if !isPow2 l2size then .error (.fatal "level-2 size must be non-zero and a power of two")
  else if shiftWidth = 0 ∨ 30 < shiftWidth then
    .error (.fatal "shift register width must be non-zero and positive")
  else .ok ⟨l1size, l2size, shiftWidth, xor, List.replicate l1size.toNat 0, flipflop l2size.toNat 1⟩

/-- `BIMOD_HASH`: `bpred_dir_lookup` for `BPred2bit`. -/
def Bimod.lookup (d : Bimod) (baddr : Word) : Nat :=
  (((baddr >>> 19) ^^^ (baddr >>> 3)) &&& (d.size - 1)).toNat

def TwoLevel.l1index (d : TwoLevel) (baddr : Word) : Nat :=
  ((baddr >>> 3) &&& (d.l1size - 1)).toNat

/-- The position of the counter that history `h` selects. -/
def TwoLevel.l2index (d : TwoLevel) (baddr h : Word) : Nat :=
  let x := if d.xor ≠ 0 then h ^^^ (baddr >>> 3) else h ||| ((baddr >>> 3) <<< d.shiftWidth.toNat)
  (x &&& (d.l2size - 1)).toNat

/-- `bpred_dir_lookup` for `BPred2Level`. -/
def TwoLevel.lookup (d : TwoLevel) (baddr : Word) : Except Fault Nat := do
  let h ← get d.shiftregs (d.l1index baddr)
  return d.l2index baddr h

/-- The update of a history register. -/
def TwoLevel.shift (d : TwoLevel) (baddr : Word) (taken : Bool) : Except Fault TwoLevel := do
  let h ← get d.shiftregs (d.l1index baddr)
  let h := ((h <<< 1) ||| (if taken then 1 else 0)) &&& (((1 : Word) <<< d.shiftWidth.toNat) - 1)
  return { d with shiftregs := d.shiftregs.set (d.l1index baddr) h }

/-! ### Branch target buffer -/

/-- `struct bpred_btb_ent` -/
structure BtbEnt where
  addr : Word
  op : Opcode
  target : Word
  prev : Option Nat
  next : Option Nat

structure Btb where
  sets : Word
  assoc : Word
  /-- the number of entries of `btb_data` -/
  len : Nat
  data : Nat → BtbEnt

/-- An entry as `calloc` leaves it, with its chaining pointers. -/
def chained (assoc i : Nat) : BtbEnt where
  addr := 0
  op := .op_na
  target := 0
  prev := if 1 < assoc ∧ i % assoc ≠ 0 then some (i - 1) else none
  next := if 1 < assoc ∧ i % assoc ≠ assoc - 1 then some (i + 1) else none

/-- No host has room for `2 ^ 31` entries; the number of entries is a product of words. -/
def createBtb (sets assoc : Word) : Except Stop Btb :=
  if !isPow2 sets then .error (.fatal "number of BTB sets must be non-zero and a power of two")
  else if !isPow2 assoc then .error (.fatal "BTB associativity must be non-zero and a power of two")
  else if 2 ^ 31 ≤ (sets * assoc).toNat then .error (.fatal "cannot allocate BTB")
  else .ok ⟨sets, assoc, (sets * assoc).toNat, chained assoc.toNat⟩

namespace Btb

def ent (b : Btb) (i : Nat) : Except Fault BtbEnt :=
  if i < b.len then .ok (b.data i) else .error .undefined

/-- The first entry of the set of an address. -/
def base (b : Btb) (baddr : Word) : Nat :=
  ((baddr >>> 3) &&& (b.sets - 1)).toNat * b.assoc.toNat

/-- The first of `n` entries from `i` on that matches. -/
def firstMatch (b : Btb) (baddr : Word) : Nat → Nat → Except Fault (Option Nat)
  | 0, _ => .ok none
  | n + 1, i => do
    let e ← b.ent i
    if e.addr = baddr then return some i
    b.firstMatch baddr n (i + 1)

/-- The search of `bpred_lookup`; a direct-mapped BTB has sets of one entry. -/
def find (b : Btb) (baddr : Word) : Except Fault (Option Nat) :=
  b.firstMatch baddr b.assoc.toNat (b.base baddr)

/-- The pointers `pbtb`, `lruhead` and `lruitem` of `bpred_update`. -/
structure Scan where
  pbtb : Option Nat := none
  lruhead : Option Nat := none
  lruitem : Option Nat := none

/-- One entry of the set. -/
def scanOne (b : Btb) (baddr : Word) (i : Nat) (x : Scan) : Except Fault Scan := do
  let e ← b.ent i
  assert (!(e.addr = baddr && x.pbtb.isSome))
  assert (decide (e.prev ≠ e.next))
  assert (!(e.prev.isNone && x.lruhead.isSome))
  assert (!(e.next.isNone && x.lruitem.isSome))
  return ⟨if e.addr = baddr then some i else x.pbtb, if e.prev.isNone then some i else x.lruhead,
    if e.next.isNone then some i else x.lruitem⟩

/-- The loop over the set. -/
def scan (b : Btb) (baddr : Word) : Nat → Nat → Scan → Except Fault Scan
  | 0, _, x => .ok x
  | n + 1, i, x => do
    let x ← b.scanOne baddr i x
    b.scan baddr n (i + 1) x

/-- Assignments through a pointer that may be null. -/
def setNext (b : Btb) (p q : Option Nat) : Btb :=
  match p with
  | none => b
  | some i => { b with data := Function.update b.data i { b.data i with next := q } }

def setPrev (b : Btb) (p q : Option Nat) : Btb :=
  match p with
  | none => b
  | some i => { b with data := Function.update b.data i { b.data i with prev := q } }

/-- Entry `x` is spliced out and put in front of `head`. -/
def promote (b : Btb) (x head : Nat) : Except Fault Btb := do
  let b := b.setNext (b.data x).prev (b.data x).next
  let b := b.setPrev (b.data x).next (b.data x).prev
  let b := b.setNext (some x) (some head)
  let b := b.setPrev (some x) none
  let b := b.setPrev (some head) (some x)
  assert ((b.data x).prev.isSome || (b.data x).next.isSome)
  assert (decide ((b.data x).prev ≠ (b.data x).next))
  return b

/-- The entry that a taken branch uses: the one that matches, or the LRU entry of the set; it
becomes the first of the chain. -/
def select (b : Btb) (baddr : Word) : Except Fault (Nat × Btb) :=
  if 1 < b.assoc.toNat then do
    let x ← b.scan baddr b.assoc.toNat (b.base baddr) {}
    match x.lruhead, x.lruitem with
    | some head, some item => do
      let i := x.pbtb.getD item
      if i ≠ head then do
        let b ← b.promote i head
        return (i, b)
      else return (i, b)
    | _, _ => .error .assertion
  else .ok (b.base baddr, b)

/-- The entry takes the branch. -/
def write (b : Btb) (i : Nat) (baddr btarget : Word) (correct : Bool) (op : Opcode) :
    Except Fault Btb := do
  let e ← b.ent i
  if e.addr = baddr then
    if correct then return b
    else return { b with data := Function.update b.data i { e with target := btarget } }
  else return { b with
    data := Function.update b.data i { e with addr := baddr, op := op, target := btarget } }

end Btb

/-! ### The predictor -/

/-- The return-address stack; only the targets of its entries are used. -/
structure Retstack where
  size : Word
  tos : Word
  stack : Nat → Word

/-- The tables of counters. -/
inductive Table where
  | bimod | twolev | metaPred
  deriving DecidableEq, Repr

/-- A pointer to a counter. -/
structure Ptr where
  table : Table
  index : Nat
  deriving DecidableEq, Repr

/-- `struct bpred_update` -/
structure Update where
  pdir1 : Option Ptr
  pdir2 : Option Ptr
  pmeta : Option Ptr
  dirBimod : Bool
  dirTwolev : Bool
  dirMeta : Bool
  deriving DecidableEq, Repr

structure Stats where
  addrHits : Nat := 0
  dirHits : Nat := 0
  usedBimod : Nat := 0
  used2lev : Nat := 0
  jrHits : Nat := 0
  jrSeen : Nat := 0
  misses : Nat := 0
  lookups : Nat := 0
  retstackPops : Nat := 0
  retstackPushes : Nat := 0
  deriving DecidableEq, Repr

/-- `struct bpred` -/
structure Predictor where
  cls : Class
  bimod : Bimod
  twolev : TwoLevel
  metaPred : Bimod
  btb : Btb
  retstack : Retstack
  stats : Stats

/-- The arguments of `bpred_create`, without the class. -/
structure Sizes where
  bimodSize : Word
  l1size : Word
  l2size : Word
  metaSize : Word
  shiftWidth : Word
  xor : Word
  btbSets : Word
  btbAssoc : Word
  retstackSize : Word
  deriving DecidableEq, Repr

/-- `struct bpred` as `calloc` leaves it. -/
def zero (cls : Class) : Predictor where
  cls := cls
  bimod := ⟨0, []⟩
  twolev := ⟨0, 0, 0, 0, [], []⟩
  metaPred := ⟨0, []⟩
  btb := ⟨0, 0, 0, fun _ => ⟨0, .op_na, 0, none, none⟩⟩
  retstack := ⟨0, 0, fun _ => 0⟩
  stats := {}

/-- The return-address stack of a new predictor. -/
def createRetstack (size : Word) : Except Stop Retstack :=
  if size &&& (size - 1) ≠ 0 then
    .error (.fatal "Return-address-stack size must be zero or a power of two")
  else if 2 ^ 31 ≤ size.toNat then .error (.fatal "cannot allocate return-address-stack")
  else .ok ⟨size, size - 1, fun _ => 0⟩

/-- `bpred_create` -/
def create (cls : Class) (z : Sizes) : Except Stop Predictor :=
  match cls with
  | .comb => do
    let bimod ← createBimod z.bimodSize
    let twolev ← createTwoLevel z.l1size z.l2size z.shiftWidth z.xor
    let metaPred ← createBimod z.metaSize
    let btb ← createBtb z.btbSets z.btbAssoc
    let retstack ← createRetstack z.retstackSize
    return { zero .comb with
      bimod := bimod, twolev := twolev, metaPred := metaPred, btb := btb, retstack := retstack }
  | .twoLevel => do
    let twolev ← createTwoLevel z.l1size z.l2size z.shiftWidth z.xor
    let btb ← createBtb z.btbSets z.btbAssoc
    let retstack ← createRetstack z.retstackSize
    return { zero .twoLevel with twolev := twolev, btb := btb, retstack := retstack }
  | .twoBit => do
    let bimod ← createBimod z.bimodSize
    let btb ← createBtb z.btbSets z.btbAssoc
    let retstack ← createRetstack z.retstackSize
    return { zero .twoBit with bimod := bimod, btb := btb, retstack := retstack }
  | .taken | .notTaken => .ok (zero cls)

/-- `(F_CTRL|F_UNCOND)` -/
def uncond (op : Opcode) : Bool := op.has (F.ctrl ||| F.uncond)

/-- A return that uses the return-address stack. -/
def Predictor.pops (p : Predictor) (op : Opcode) (r31p : Bool) : Bool :=
  op = .jr && r31p && p.retstack.size != 0

/-- A call that is put on the return-address stack. -/
def Predictor.pushes (p : Predictor) (op : Opcode) : Bool :=
  op.has (F.ctrl ||| F.call) && p.retstack.size != 0

def Predictor.isStatic (p : Predictor) : Bool := p.cls = .taken || p.cls = .notTaken

namespace Predictor

/-! ### Counters -/

def counters (p : Predictor) : Table → List Nat
  | .bimod => p.bimod.table
  | .twolev => p.twolev.l2table
  | .metaPred => p.metaPred.table

def setCounters (p : Predictor) (l : List Nat) : Table → Predictor
  | .bimod => { p with bimod := { p.bimod with table := l } }
  | .twolev => { p with twolev := { p.twolev with l2table := l } }
  | .metaPred => { p with metaPred := { p.metaPred with table := l } }

def counter (p : Predictor) (c : Ptr) : Except Fault Nat := get (p.counters c.table) c.index

/-- A saturating counter. -/
def bump (up : Bool) (n : Nat) : Nat :=
  if up then if n < 3 then n + 1 else n
  else if 0 < n then n - 1 else n

/-- A counter that is counted up or down, if there is one. -/
def count (p : Predictor) (c : Option Ptr) (up : Bool) : Except Fault Predictor :=
  match c with
  | none => .ok p
  | some c => do
    let n ← p.counter c
    return p.setCounters ((p.counters c.table).set c.index (bump up n)) c.table

/-! ### Lookup -/

/-- The pointers to the counters, for a conditional branch. -/
def dirLookup (p : Predictor) (baddr : Word) (u : Update) : Except Fault Update :=
  match p.cls with
  | .comb => do
    let bimod : Ptr := ⟨.bimod, p.bimod.lookup baddr⟩
    let twolev : Ptr := ⟨.twolev, ← p.twolev.lookup baddr⟩
    let metaPred : Ptr := ⟨.metaPred, p.metaPred.lookup baddr⟩
    let m ← p.counter metaPred
    let b ← p.counter bimod
    let t ← p.counter twolev
    return {
      pdir1 := some (if 2 ≤ m then twolev else bimod)
      pdir2 := some (if 2 ≤ m then bimod else twolev)
      pmeta := some metaPred
      dirBimod := decide (2 ≤ b)
      dirTwolev := decide (2 ≤ t)
      dirMeta := decide (2 ≤ m) }
  | .twoLevel => do
    let i ← p.twolev.lookup baddr
    return { u with pdir1 := some ⟨.twolev, i⟩ }
  | .twoBit => .ok { u with pdir1 := some ⟨.bimod, p.bimod.lookup baddr⟩ }
  | .taken | .notTaken => .ok u

/-- The update record of a stateful predictor; jumps have no counters. -/
def record (p : Predictor) (baddr : Word) (op : Opcode) (u : Update) : Except Fault Update :=
  let u := { u with pdir1 := none, pdir2 := none, pmeta := none }
  if uncond op then .ok u else p.dirLookup baddr u

/-- A return pops the stack. -/
def pop (p : Predictor) : Except Fault (Word × Predictor) :=
  let r := p.retstack
  if r.tos.toNat < r.size.toNat then
    .ok (r.stack r.tos.toNat, { p with
      retstack := { r with tos := (r.tos + r.size - 1) % r.size }
      stats := { p.stats with retstackPops := p.stats.retstackPops + 1 } })
  else .error .undefined

/-- The direction that a counter predicts. -/
def votes (p : Predictor) (c : Ptr) : Except Fault Bool := do
  let n ← p.counter c
  return decide (2 ≤ n)

/-- The direction of a conditional branch. -/
def direction (p : Predictor) (u : Update) : Except Fault Bool :=
  match u.pdir1 with
  | none => .error .undefined
  | some c => p.votes c

/-- The prediction from the BTB and the direction: an address, `1` for a taken branch without
a known target, `0` for a branch that is not taken. -/
def target (p : Predictor) (baddr : Word) (op : Opcode) (u : Update) : Except Fault Word := do
  let hit ← p.btb.find baddr
  let known := (hit.map fun i => (p.btb.data i).target).getD 1
  if uncond op then return known
  else
    let taken ← p.direction u
    return if taken then known else 0

/-- The predicted address: the stack answers for a return. -/
def predict (p : Predictor) (baddr : Word) (op : Opcode) (r31p : Bool) (u : Update) :
    Except Fault (Word × Predictor) :=
  if p.pops op r31p then p.pop
  else do
    let addr ← p.target baddr op u
    return (addr, p)

/-- `bpred_lookup`: the predicted address, the update record, `*stack_recover_idx` and the
predictor. -/
def lookup (p : Predictor) (baddr btarget : Word) (op : Opcode) (r31p : Bool) (u : Update)
    (idx : Word) : Except Fault (Word × Update × Word × Predictor) :=
  if !op.has F.ctrl then .ok (0, u, idx, p)
  else
    let p := { p with stats := { p.stats with lookups := p.stats.lookups + 1 } }
    let null := { u with pdir1 := none, pdir2 := none, pmeta := none }
    match p.cls with
    | .taken => .ok (btarget, null, idx, p)
    | .notTaken => .ok (if uncond op then btarget else baddr + 8, null, idx, p)
    | .comb | .twoLevel | .twoBit => do
      let u ← p.record baddr op u
      let idx := if p.retstack.size ≠ 0 then p.retstack.tos else 0
      let (addr, p) ← p.predict baddr op r31p u
      return (addr, u, idx, p)

/-- `bpred_recover` -/
def recover (p : Predictor) (idx : Word) : Predictor := { p with retstack := { p.retstack with tos := idx } }

/-! ### Update -/

/-- The statistics of an update. -/
def tally (p : Predictor) (taken predTaken correct : Bool) (op : Opcode) (u : Update) : Stats :=
  { p.stats with
    addrHits := p.stats.addrHits + if correct then 1 else 0
    dirHits := p.stats.dirHits + if predTaken = taken then 1 else 0
    misses := p.stats.misses + if predTaken = taken then 0 else 1
    used2lev := p.stats.used2lev + if u.dirMeta then 1 else 0
    usedBimod := p.stats.usedBimod + if u.dirMeta then 0 else 1
    jrSeen := p.stats.jrSeen + if op = .jr then 1 else 0
    jrHits := p.stats.jrHits + if op = .jr && correct then 1 else 0 }

/-- A call pushes its return address. -/
def push (p : Predictor) (baddr : Word) (op : Opcode) : Predictor :=
  if p.pushes op then
    let tos := (p.retstack.tos + 1) % p.retstack.size
    { p with
      retstack := { p.retstack with
        tos := tos
        stack := Function.update p.retstack.stack tos.toNat (baddr + 8) }
      stats := { p.stats with retstackPushes := p.stats.retstackPushes + 1 } }
  else p

/-- A conditional branch goes to its history register. -/
def shift (p : Predictor) (baddr : Word) (taken : Bool) (op : Opcode) : Except Fault Predictor :=
  if !uncond op && (p.cls = .twoLevel || p.cls = .comb) then do
    let twolev ← p.twolev.shift baddr taken
    return { p with twolev := twolev }
  else .ok p

/-- The entry of the BTB that the branch uses, if it is taken. -/
def select (p : Predictor) (baddr : Word) (taken : Bool) : Except Fault (Option Nat × Predictor) :=
  if taken then do
    let (i, btb) ← p.btb.select baddr
    return (some i, { p with btb := btb })
  else .ok (none, p)

/-- The meta predictor moves to the component that was right, if the other one was not. -/
def choose (p : Predictor) (taken : Word) (u : Update) : Except Fault Predictor :=
  if u.dirBimod ≠ u.dirTwolev then p.count u.pmeta (decide ((if u.dirTwolev then 1 else 0) = taken))
  else .ok p

def train (p : Predictor) (taken : Word) (u : Update) : Except Fault Predictor := do
  let p ← p.count u.pdir1 (decide (taken ≠ 0))
  let p ← p.count u.pdir2 (decide (taken ≠ 0))
  p.choose taken u

def enter (p : Predictor) (i : Option Nat) (baddr btarget : Word) (correct : Bool) (op : Opcode) :
    Except Fault Predictor :=
  match i with
  | none => .ok p
  | some i => do
    let btb ← p.btb.write i baddr btarget correct op
    return { p with btb := btb }

/-- `bpred_update`; `taken` is an `int`. -/
def update (p : Predictor) (baddr btarget taken : Word) (predTaken correct : Bool) (op : Opcode)
    (r31p : Bool) (u : Update) : Except Fault Predictor :=
  if !op.has F.ctrl then .ok p
  else
    let p := { p with stats := p.tally (decide (taken ≠ 0)) predTaken correct op u }
    if p.pops op r31p || p.isStatic then .ok p
    else do
      let p := p.push baddr op
      let p ← p.shift baddr (decide (taken ≠ 0)) op
      let (i, p) ← p.select baddr (decide (taken ≠ 0))
      let p ← p.train taken u
      p.enter i baddr btarget correct op

end Predictor

end SimpleScalar.Bpred

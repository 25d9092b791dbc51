import SimpleScalar.Cache.Runs

/-!
# Caches with data are transparent

A cache with data sits in front of a flat memory, which it accesses by whole blocks.
Seen from outside, it is a flat memory too.

* `cache_transparent`: every read returns the bytes of the flat memory, every dirty block
  that leaves the cache is written back once, to where it came from, and after a flush the
  memory below is the flat memory.
* `read_past_block`: at the end of the address space the check of `cache_access` lets an
  access through that is larger than a block.
-/

namespace SimpleScalar.Cache

open List

/-! ### Flat memory -/

abbrev Flat := Word → Byte

def bytesAt (m : Flat) (addr : Word) (k : Nat) : List Byte :=
  (List.range k).map fun j => m (addr + BitVec.ofNat 32 j)

def storeAt (m : Flat) (addr : Word) (bs : List Byte) : Flat := fun a =>
  (bs[(a - addr).toNat]?).getD (m a)

@[simp] theorem length_bytesAt (m : Flat) (addr : Word) (k : Nat) : (bytesAt m addr k).length = k := by
  simp [bytesAt]

theorem getElem?_bytesAt {m : Flat} {addr : Word} {k j : Nat} (hj : j < k) :
    (bytesAt m addr k)[j]? = some (m (addr + BitVec.ofNat 32 j)) := by
  simp [bytesAt, hj]

theorem bytesAt_congr {m m' : Flat} {addr : Word} {k : Nat}
    (h : ∀ j < k, m' (addr + BitVec.ofNat 32 j) = m (addr + BitVec.ofNat 32 j)) :
    bytesAt m' addr k = bytesAt m addr k :=
  map_congr_left fun j hj => h j (mem_range.mp hj)

/-- A part of a block. -/
theorem bytesAt_drop_take (m : Flat) (addr : Word) {o l k : Nat} (h : o + l ≤ k) :
    ((bytesAt m addr k).drop o).take l = bytesAt m (addr + BitVec.ofNat 32 o) l := by
  apply ext_getElem?
  intro j
  rcases Nat.lt_or_ge j l with hj | hj
  · rw [List.getElem?_take_of_lt hj, List.getElem?_drop, getElem?_bytesAt (by omega),
      getElem?_bytesAt hj, BitVec.ofNat_add, BitVec.add_assoc]
  · rw [List.getElem?_eq_none (by simp; omega), List.getElem?_eq_none (by simpa using hj)]

/-- A write inside a list of bytes. -/
theorem getElem?_splice {data bs : List Byte} {o : Nat} (h : o + bs.length ≤ data.length) (j : Nat) :
    (data.take o ++ bs ++ data.drop (o + bs.length))[j]? =
      if o ≤ j ∧ j < o + bs.length then bs[j - o]? else data[j]? := by
  have hTake : (data.take o).length = o := by simp; omega
  rcases Nat.lt_or_ge j o with hj | hj
  · rw [if_neg (by omega), append_assoc, List.getElem?_append_left (by omega),
      List.getElem?_take_of_lt hj]
  · rcases Nat.lt_or_ge j (o + bs.length) with hj' | hj'
    · rw [if_pos ⟨hj, hj'⟩, List.getElem?_append_left (by rw [length_append, hTake]; omega),
        List.getElem?_append_right (by omega), hTake]
    · rw [if_neg (by omega), List.getElem?_append_right (by rw [length_append, hTake]; omega),
        length_append, hTake, List.getElem?_drop]
      congr 1
      omega

variable {bs : List Byte}

/-- Inside a block, a store is a splice. -/
theorem splice_eq_storeAt (m : Flat) (a : Word) {o k : Nat}
    (h : o + bs.length ≤ k) (hk : k < 2 ^ 32) :
    (bytesAt m a k).take o ++ bs ++ (bytesAt m a k).drop (o + bs.length) =
      bytesAt (storeAt m (a + BitVec.ofNat 32 o) bs) a k := by
  apply ext_getElem?
  intro j
  rw [getElem?_splice (by simpa using h)]
  rcases Nat.lt_or_ge j k with hj | hj
  · have hSub : (a + BitVec.ofNat 32 j - (a + BitVec.ofNat 32 o)).toNat =
        if o ≤ j then j - o else 2 ^ 32 + j - o := by
      have hLt := a.isLt
      simp only [BitVec.toNat_sub, BitVec.toNat_add, BitVec.toNat_ofNat]
      split <;> omega
    rw [getElem?_bytesAt hj, getElem?_bytesAt hj, storeAt, hSub]
    by_cases hIn : o ≤ j ∧ j < o + bs.length
    · rw [if_pos hIn, if_pos hIn.1, List.getElem?_eq_getElem (by omega), Option.getD_some]
    · rw [if_neg hIn]
      split
      · rw [List.getElem?_eq_none (by omega), Option.getD_none]
      · rw [List.getElem?_eq_none (by omega), Option.getD_none]
  · have hNone : ∀ m' : Flat, (bytesAt m' a k)[j]? = none := fun m' =>
      List.getElem?_eq_none (by simpa using hj)
    rw [hNone, hNone, if_neg (by omega)]

/-! ### Blocks of flat memory -/

variable {p : Params} {c c' : State} {m m' : Flat} {addr : Word} {w : Nat}

variable {a : Word}

/-- A store inside a block changes that block only. -/
theorem storeAt_other (hBs : p.blk addr + bs.length ≤ p.bsize)
    (ha : p.baddr a ≠ p.baddr addr) : storeAt m addr bs a = m a := by
  unfold storeAt
  rcases Nat.lt_or_ge (a - addr).toNat bs.length with hk | hk
  · have hEq : a = p.baddr addr + BitVec.ofNat 32 (p.blk addr + (a - addr).toNat) := by
      rw [BitVec.ofNat_add, ← BitVec.add_assoc, p.baddr_add_blk, BitVec.ofNat_toNat,
        BitVec.setWidth_eq, BitVec.add_comm, BitVec.sub_add_cancel]
    have hBase := (p.baddr_add (p.baddr_baddr addr)
      (k := p.blk addr + (a - addr).toNat) (by omega)).1
    rw [← hEq] at hBase
    exact absurd hBase ha
  · rw [List.getElem?_eq_none hk, Option.getD_none]

/-- Storing a whole block. -/
theorem storeAt_block {b a : Word} (ha : p.baddr a = b) :
    storeAt m b (bytesAt m' b p.bsize) a = m' a := by
  have hSum := p.baddr_add_blk a
  rw [ha] at hSum
  have hBlk := p.blk_lt a
  have hInt := p.bsize_int
  have hSub : (a - b).toNat = p.blk a := by
    have hDiff : a - b = BitVec.ofNat 32 (p.blk a) := by
      conv_lhs => rw [← hSum, BitVec.add_comm, BitVec.add_sub_cancel]
    rw [hDiff, BitVec.toNat_ofNat, Nat.mod_eq_of_lt (by omega)]
  rw [storeAt, hSub, getElem?_bytesAt hBlk, Option.getD_some, hSum]

/-- Blocks on which two memories agree. -/
theorem bytesAt_block {b : Word} (hb : p.baddr b = b) (h : ∀ a, p.baddr a = b → m' a = m a) :
    bytesAt m' b p.bsize = bytesAt m b p.bsize :=
  bytesAt_congr fun _ hj => h _ (p.baddr_add hb hj).1

/-- The flat memory after an access. -/
def flatAccessed (cmd : MemCmd) (addr : Word) (bs : List Byte) (m : Flat) : Flat :=
  match cmd with
  | .read => m
  | .write => storeAt m addr bs

/-- Copying between a block and the buffer. -/
theorem bcopy_flat {cmd : MemCmd} {buf : List Byte} {nbytes : Nat} (hAlloc : p.balloc = true)
    (hFits : p.blk addr + nbytes ≤ p.bsize) (hBuf : cmd = .write → nbytes ≤ buf.length) :
    ∃ buf', bcopy p cmd (bytesAt m (p.baddr addr) p.bsize) (p.blk addr) nbytes buf =
      .ok (bytesAt (flatAccessed cmd addr (buf.take nbytes) m) (p.baddr addr) p.bsize, buf') ∧
      (cmd = .read → buf' = bytesAt m addr nbytes) := by
  unfold bcopy
  rw [if_neg (by simp [hAlloc]), if_neg (by omega)]
  cases cmd with
  | read =>
    refine ⟨_, rfl, fun _ => ?_⟩
    rw [bytesAt_drop_take m _ hFits, p.baddr_add_blk]
  | write =>
    have hLen : (buf.take nbytes).length = nbytes := by
      rw [length_take]
      have := hBuf rfl
      omega
    have hInt := p.bsize_int
    refine ⟨buf, ?_, fun hCmd => by cases hCmd⟩
    have hIn : p.blk addr + (buf.take nbytes).length ≤ p.bsize := by omega
    have hSplice := splice_eq_storeAt m (p.baddr addr) hIn (by omega)
    rw [hLen, p.baddr_add_blk] at hSplice
    rw [flatAccessed]
    dsimp only
    rw [hSplice]

theorem flatAccessed_other {cmd : MemCmd} (hBs : p.blk addr + bs.length ≤ p.bsize)
    (ha : p.baddr a ≠ p.baddr addr) : flatAccessed cmd addr bs m a = m a := by
  cases cmd with
  | read => rfl
  | write => exact storeAt_other hBs ha

/-! ### Coherence -/

/-- Valid blocks hold the bytes of the flat memory, and so does the memory below, outside of
the dirty blocks. -/
structure Coherent (p : Params) (c : State) (mem m : Flat) : Prop where
  data : ∀ i, ∀ w < p.assoc, ((c.sets i).blks w).valid = true →
    ((c.sets i).blks w).data = bytesAt m ((c.sets i).blks w).origin p.bsize
  below : ∀ a, (∀ i, ∀ w < p.assoc, ((c.sets i).blks w).valid = true →
    ((c.sets i).blks w).dirty = true → ((c.sets i).blks w).origin ≠ p.baddr a) → mem a = m a

/-- `c'` is `c` with block `(i, w)` replaced by `b`. -/
def OneBlk (c c' : State) (i w : Nat) (b : Blk) : Prop :=
  ∀ j v, (c'.sets j).blks v = if j = i ∧ v = w then b else (c.sets j).blks v

variable {b : Blk} {i : Nat}

/-- An access leaves its block with the new bytes, and the rest as it is. -/
theorem Coherent.oneBlk {mem mem' : Flat} (h : Coherent p c mem m)
    (hInv : CacheInv p c) (hOne : OneBlk c c' i w b) {B : Word}
    (hOrigin : b.origin = B) (hData : b.data = bytesAt m' B p.bsize)
    (hElse : ∀ j, ∀ v < p.assoc, ((c.sets j).blks v).valid = true → ¬ (j = i ∧ v = w) →
      ((c.sets j).blks v).origin ≠ B)
    (hFlat : ∀ a, p.baddr a ≠ B → m' a = m a)
    (hBelow : ∀ a, p.baddr a ≠ B → (∀ j, ∀ v < p.assoc, ¬ (j = i ∧ v = w) →
      ((c.sets j).blks v).valid = true → ((c.sets j).blks v).dirty = true →
      ((c.sets j).blks v).origin ≠ p.baddr a) → mem' a = m a)
    (hw : w < p.assoc) (hValid : b.valid = true)
    (hClean : b.dirty = false → ∀ a, p.baddr a = B → mem' a = m' a) :
    Coherent p c' mem' m' := by
  refine ⟨fun j v hv hIs => ?_, fun a ha => ?_⟩
  · rw [hOne j v] at hIs ⊢
    by_cases hEq : j = i ∧ v = w
    · rw [if_pos hEq, hOrigin, hData]
    · rw [if_neg hEq] at hIs ⊢
      have hNe := hElse j v hv hIs hEq
      rw [h.data j v hv hIs]
      refine (bytesAt_block (hInv.home j v hIs).2.2.1 fun a ha => hFlat a ?_).symm
      rw [ha]
      exact hNe
  · by_cases hIn : p.baddr a = B
    · refine hClean ?_ a hIn
      rw [Bool.eq_false_iff]
      intro hDirty
      have hNe := ha i w hw
      rw [hOne i w, if_pos ⟨rfl, rfl⟩] at hNe
      exact hNe hValid hDirty (hOrigin.trans hIn.symm)
    · rw [hFlat a hIn]
      refine hBelow a hIn fun j v hv hEq hIs hDirty => ?_
      have hNe := ha j v hv
      rw [hOne j v, if_neg hEq] at hNe
      exact hNe hIs hDirty

/-! ### Blocks that leave the cache -/

/-- What has to be written back of way `w` of set `i`: the block was dirty and is gone. -/
def departed (c c' : State) (i w : Nat) : Option (Word × List Byte) :=
  let b := (c.sets i).blks w
  let b' := (c'.sets i).blks w
  if b.valid && b.dirty && !(b'.valid && b'.origin == b.origin) then some (b.origin, b.data)
  else none

/-- The dirty blocks of `c` that are not in `c'`. -/
def departing (p : Params) (c c' : State) : List (Word × List Byte) :=
  (List.range p.nsets).flatMap fun i => (List.range p.assoc).filterMap (departed c c' i)

theorem filterMap_single {α β : Type} {f : α → Option β} {a : α} {l : List α} (hl : l.Nodup)
    (ha : a ∈ l) (h : ∀ x ≠ a, f x = none) : l.filterMap f = (f a).toList := by
  obtain ⟨A, B, rfl⟩ := append_of_mem ha
  have hNot : a ∉ A ∧ a ∉ B := by
    rw [nodup_append, nodup_cons] at hl
    exact ⟨fun hIn => hl.2.2 a hIn a (by simp) rfl, hl.2.1.1⟩
  have hNil : ∀ {L : List α}, a ∉ L → L.filterMap f = [] := fun hL =>
    filterMap_eq_nil_iff.mpr fun x hx => h x (ne_of_mem_of_not_mem hx hL)
  rw [filterMap_append, hNil hNot.1, nil_append]
  cases hf : f a with
  | none => rw [filterMap_cons_none hf, hNil hNot.2]; rfl
  | some b => rw [filterMap_cons_some hf, hNil hNot.2]; rfl

theorem flatMap_single {α β : Type} {f : α → List β} {a : α} {l : List α} (hl : l.Nodup)
    (ha : a ∈ l) (h : ∀ x ≠ a, f x = []) : l.flatMap f = f a := by
  obtain ⟨A, B, rfl⟩ := append_of_mem ha
  have hNot : a ∉ A ∧ a ∉ B := by
    rw [nodup_append, nodup_cons] at hl
    exact ⟨fun hIn => hl.2.2 a hIn a (by simp) rfl, hl.2.1.1⟩
  have hNil : ∀ {L : List α}, a ∉ L → L.flatMap f = [] := fun hL =>
    flatMap_eq_nil_iff.mpr fun x hx => h x (ne_of_mem_of_not_mem hx hL)
  rw [flatMap_append, flatMap_cons, hNil hNot.1, hNil hNot.2, nil_append,
    append_nil]

/-- If one block changes, no other one leaves. -/
theorem departing_oneBlk (hOne : OneBlk c c' i w b) (hi : i < p.nsets)
    (hw : w < p.assoc) : departing p c c' =
      (if ((c.sets i).blks w).valid && ((c.sets i).blks w).dirty &&
          !(b.valid && b.origin == ((c.sets i).blks w).origin) then
        some (((c.sets i).blks w).origin, ((c.sets i).blks w).data) else none).toList := by
  have hNone : ∀ j v, ¬ (j = i ∧ v = w) → departed c c' j v = none := by
    intro j v hNe
    unfold departed
    dsimp only
    rw [hOne j v, if_neg hNe]
    cases ((c.sets j).blks v).valid <;> simp
  unfold departing
  rw [flatMap_single nodup_range (mem_range.mpr hi) fun j hj =>
    filterMap_eq_nil_iff.mpr fun v _ => hNone j v fun hEq => hj hEq.1]
  rw [filterMap_single nodup_range (mem_range.mpr hw) fun v hv =>
    hNone i v fun hEq => hv hEq.2]
  unfold departed
  dsimp only
  rw [hOne i w, if_pos (And.intro rfl rfl : i = i ∧ w = w)]

/-! ### The level below -/

/-- A flat memory, and the blocks that have been written back to it. -/
structure Below where
  mem : Flat
  log : List (Word × List Byte)

def Below.write (addr : Word) (data : List Byte) (n : Below) : Below :=
  ⟨storeAt n.mem addr data, n.log ++ [(addr, data)]⟩

/-- Whole blocks are copied, with any latency. -/
def flatAccess (lat : MemCmd → Word → Int → Word) : BlkAccess Below := fun cmd addr bsize data now n =>
  match cmd with
  | .read => .ok (lat .read addr now, bytesAt n.mem addr bsize, n)
  | .write => .ok (lat .write addr now, data, n.write addr data)

variable {lat : MemCmd → Word → Int → Word} {n : Below} {cmd : MemCmd} {buf : List Byte}
  {nbytes : Nat} {now : Int} {rnd : Nat}

/-- A replaced block is written back if it is dirty. -/
def Below.evict (b : Blk) (n : Below) : Below :=
  if b.valid && b.dirty then n.write b.origin b.data else n

theorem evict_flat {busFree : Int} (h : b.valid = true → p.mkBaddr b.tag i = b.origin) :
    ∃ l f k, evict p (flatAccess lat) b i now busFree n = .ok (l, f, k, n.evict b) := by
  unfold evict Below.evict
  cases hValid : b.valid with
  | false => exact ⟨_, _, _, rfl⟩
  | true =>
    rw [if_pos rfl, Bool.true_and]
    unfold writeBack
    rw [h hValid]
    dsimp only
    cases b.dirty with
    | false => exact ⟨_, _, _, rfl⟩
    | true => exact ⟨_, _, _, rfl⟩

/-! ### Accesses -/

theorem hitState_oneBlk (p : Params) (cmd : MemCmd) (addr : Word) (w : Nat) (data : List Byte)
    (c : State) : OneBlk c (hitState p cmd addr w data c) (p.set addr) w
      { (c.sets (p.set addr)).blks w with
        data := data
        dirty := ((c.sets (p.set addr)).blks w).dirty || cmd == .write } := by
  intro j v
  unfold hitState
  by_cases hj : j = p.set addr
  · subst hj
    simp only [Function.update_self, true_and]
    by_cases hv : v = w
    · rw [if_pos hv, hv, hitSet_blks_self]
    · rw [if_neg hv, hitSet_blks_of_ne hv]
  · simp [hj]

theorem missState_oneBlk {st : CacheSet} (old : Blk) (busFree : Int) (writes : Nat)
    (hSt : Replaced p (c.sets (p.set addr)) w b st) :
    OneBlk c (missState p addr old busFree writes st c) (p.set addr) w b := by
  intro j v
  unfold missState
  by_cases hj : j = p.set addr
  · subst hj
    simp only [Function.update_self, true_and, hSt.blks]
    by_cases hv : v = w
    · rw [if_pos hv, hv, Function.update_self]
    · rw [if_neg hv, Function.update_of_ne hv]
  · simp [hj]

/-- What an access to a coherent cache returns and leaves behind. -/
structure AccessOk (p : Params) (cmd : MemCmd) (addr : Word) (buf : List Byte) (nbytes : Nat)
    (c : State) (n : Below) (m : Flat) (r : Result Below) : Prop where
  coherent : Coherent p r.cache r.next.mem (flatAccessed cmd addr (buf.take nbytes) m)
  read : cmd = .read → r.buf = bytesAt m addr nbytes
  log : r.next.log = n.log ++ departing p c r.cache

section

variable (hInv : CacheInv p c) (h : Coherent p c n.mem m) (hAlloc : p.balloc = true)
  (hFits : p.blk addr + nbytes ≤ p.bsize) (hBuf : cmd = .write → nbytes ≤ buf.length)

include hInv in
/-- Another block with the address would be the block itself. -/
theorem origin_ne_of_resident (hw : Resident p c addr w) {j v : Nat} (hv : v < p.assoc)
    (hValid : ((c.sets j).blks v).valid = true) (hNe : ¬ (j = p.set addr ∧ v = w)) :
    ((c.sets j).blks v).origin ≠ p.baddr addr := by
  intro hOrigin
  obtain rfl : p.set addr = j := by
    rw [← p.set_baddr addr, ← hOrigin]
    exact (hInv.home j v hValid).2.1
  exact hNe ⟨rfl, hInv.resident_unique ⟨hv, hValid, hOrigin⟩ hw⟩

include hInv in
theorem origin_ne_of_absent (hNone : ∀ w, ¬ Resident p c addr w) {j v : Nat} (hv : v < p.assoc)
    (hValid : ((c.sets j).blks v).valid = true) : ((c.sets j).blks v).origin ≠ p.baddr addr := by
  intro hOrigin
  obtain rfl : p.set addr = j := by
    rw [← p.set_baddr addr, ← hOrigin]
    exact (hInv.home j v hValid).2.1
  exact hNone v ⟨hv, hValid, hOrigin⟩

include hInv h hAlloc hFits hBuf in
theorem hit_coherent (hCheck : checkAccess p addr nbytes = .ok ()) (hw : Resident p c addr w) :
    ∃ r, access p (flatAccess lat) cmd addr buf nbytes now rnd c n = .ok r ∧
      AccessOk p cmd addr buf nbytes c n m r := by
  obtain ⟨buf', hCopy, hRead⟩ := bcopy_flat (m := m) hAlloc hFits hBuf
  have hData : ((c.sets (p.set addr)).blks w).data = bytesAt m (p.baddr addr) p.bsize := by
    rw [h.data _ w hw.1 hw.2.1, hw.2.2]
  have hLen : p.blk addr + (buf.take nbytes).length ≤ p.bsize := by
    rw [length_take]
    omega
  have hOne := hitState_oneBlk p cmd addr w
    (bytesAt (flatAccessed cmd addr (buf.take nbytes) m) (p.baddr addr) p.bsize) c
  rw [access_of_hit hInv hCheck hw, hData, hCopy]
  refine ⟨_, rfl, ?_, hRead, ?_⟩
  · refine h.oneBlk hInv hOne hw.2.2 rfl (fun j v hv hIs hNe => origin_ne_of_resident hInv hw hv hIs hNe)
      (fun a ha => flatAccessed_other hLen ha) (fun a ha hElse => ?_) hw.1 hw.2.1 fun hClean a ha => ?_
    · refine h.below a fun j v hv hIs hDirty => ?_
      by_cases hEq : j = p.set addr ∧ v = w
      · rw [hEq.1, hEq.2, hw.2.2]
        exact Ne.symm ha
      · exact hElse j v hv hEq hIs hDirty
    · -- a clean block has only been read
      simp only [Bool.or_eq_false_iff, beq_eq_false_iff_ne] at hClean
      have hCmd : cmd = .read := by
        cases cmd with
        | read => rfl
        | write => exact absurd rfl hClean.2
      rw [hCmd]
      refine h.below a fun j v hv hIs hDirty hOrigin => ?_
      by_cases hEq : j = p.set addr ∧ v = w
      · rw [hEq.1, hEq.2, hClean.1] at hDirty
        cases hDirty
      · exact origin_ne_of_resident hInv hw hv hIs hEq (hOrigin.trans ha)
  · rw [departing_oneBlk hOne (p.set_lt addr) hw.1]
    simp [hw.2.1]

include h in
/-- Below, a write-back brings the block up to date and nothing else changes. -/
theorem evict_below (hw : w < p.assoc)
    (ha : ∀ j, ∀ v < p.assoc, ¬ (j = i ∧ v = w) → ((c.sets j).blks v).valid = true →
      ((c.sets j).blks v).dirty = true → ((c.sets j).blks v).origin ≠ p.baddr a)
    (hHome : ((c.sets i).blks w).valid = true →
      p.baddr ((c.sets i).blks w).origin = ((c.sets i).blks w).origin) :
    (n.evict ((c.sets i).blks w)).mem a = m a := by
  have hKept : (((c.sets i).blks w).valid = true → ((c.sets i).blks w).dirty = true →
      ((c.sets i).blks w).origin ≠ p.baddr a) → n.mem a = m a := by
    intro hNot
    refine h.below a fun j v hv hIs hDirty => ?_
    by_cases hEq : j = i ∧ v = w
    · rw [hEq.1, hEq.2] at hIs hDirty ⊢
      exact hNot hIs hDirty
    · exact ha j v hv hEq hIs hDirty
  unfold Below.evict
  split
  · rename_i hDirty
    rw [Bool.and_eq_true] at hDirty
    have hData := h.data i w hw hDirty.1
    rw [Below.write, hData]
    by_cases hIn : p.baddr a = ((c.sets i).blks w).origin
    · exact storeAt_block hIn
    · have hLen : p.blk ((c.sets i).blks w).origin +
          (bytesAt m ((c.sets i).blks w).origin p.bsize).length ≤ p.bsize := by
        rw [p.blk_of_baddr (hHome hDirty.1), length_bytesAt]
        omega
      dsimp only
      rw [storeAt_other hLen (by rwa [hHome hDirty.1])]
      exact hKept fun _ _ => Ne.symm hIn
  · rename_i hNot
    exact hKept fun hIs hDirty => absurd (Bool.and_eq_true_iff.mpr ⟨hIs, hDirty⟩) hNot

include hInv h hAlloc hFits hBuf in
theorem miss_coherent (hCheck : checkAccess p addr nbytes = .ok ()) (hAddr : p.baddr addr ≠ 0)
    (hNone : ∀ w, ¬ Resident p c addr w) :
    ∃ r, access p (flatAccess lat) cmd addr buf nbytes now rnd c n = .ok r ∧
      AccessOk p cmd addr buf nbytes c n m r := by
  obtain ⟨buf', hCopy, hRead⟩ := bcopy_flat (m := m) hAlloc hFits hBuf
  obtain ⟨w, hw, st, hSt, hEq⟩ :=
    access_of_miss (flatAccess lat) cmd buf now rnd n hInv hCheck hAddr hNone
  have hHome := fun hValid => (hInv.home (p.set addr) w hValid).2.2.1
  obtain ⟨l, f, k, hEvict⟩ : ∃ l f k, evict p (flatAccess lat) ((c.sets (p.set addr)).blks w)
      (p.set addr) now c.busFree n = .ok (l, f, k, n.evict ((c.sets (p.set addr)).blks w)) :=
    evict_flat hInv.mkBaddr_eq
  have hAbsent := fun j v hv hIs => origin_ne_of_absent hInv hNone (j := j) (v := v) hv hIs
  have hBelow : ∀ a, p.baddr a = p.baddr addr →
      (n.evict ((c.sets (p.set addr)).blks w)).mem a = m a := fun a ha =>
    evict_below h hw (fun j v hv _ hIs _ => by rw [ha]; exact hAbsent j v hv hIs) hHome
  have hLen : p.blk addr + (buf.take nbytes).length ≤ p.bsize := by
    rw [length_take]
    omega
  have hFill : bytesAt (n.evict ((c.sets (p.set addr)).blks w)).mem (p.baddr addr) p.bsize =
      bytesAt m (p.baddr addr) p.bsize := bytesAt_block (p.baddr_baddr addr) hBelow
  rw [hEq]
  dsimp only
  rw [hEvict]
  simp only [flatAccess, hFill, hCopy, bind, Except.bind, pure, Except.pure]
  have hOne := missState_oneBlk (c := c) ((c.sets (p.set addr)).blks w) f k (hSt (missBlk p cmd addr
      (now + (l + lat .read (p.baddr addr) (now + l.toInt)).toInt)
      (bytesAt (flatAccessed cmd addr (buf.take nbytes) m) (p.baddr addr) p.bsize)) rfl)
  refine ⟨_, rfl, ?_, hRead, ?_⟩
  · refine h.oneBlk hInv hOne rfl rfl (fun j v hv hIs _ => hAbsent j v hv hIs)
      (fun a ha => flatAccessed_other hLen ha) (fun a _ hElse => evict_below h hw hElse hHome)
      hw rfl fun hClean a ha => ?_
    have hCmd : cmd = .read := by
      cases cmd with
      | read => rfl
      | write => cases hClean
    rw [hCmd]
    exact hBelow a ha
  · rw [departing_oneBlk hOne (p.set_lt addr) hw]
    unfold Below.evict
    cases hValid : ((c.sets (p.set addr)).blks w).valid with
    | false => exact (append_nil _).symm
    | true =>
      have hNe := hAbsent _ w hw hValid
      cases hDirty : ((c.sets (p.set addr)).blks w).dirty with
      | false => exact (append_nil _).symm
      | true => simp [missBlk, Below.write, Ne.symm hNe]

variable (lat) in
include hInv h hAlloc hFits hBuf in
/-- **An access** reads and writes the flat memory, and writes back what it replaces. -/
theorem access_coherent (hCheck : checkAccess p addr nbytes = .ok ()) (hAddr : p.baddr addr ≠ 0) :
    ∃ r, access p (flatAccess lat) cmd addr buf nbytes now rnd c n = .ok r ∧
      AccessOk p cmd addr buf nbytes c n m r := by
  by_cases hHit : ∃ w, Resident p c addr w
  · obtain ⟨w, hw⟩ := hHit
    exact hit_coherent hInv h hAlloc hFits hBuf hCheck hw
  · exact miss_coherent hInv h hAlloc hFits hBuf hCheck hAddr fun w hw => hHit ⟨w, hw⟩

end

/-! ### Flushes -/

theorem flushedState_oneBlk (p : Params) (addr : Word) (w : Nat) (c : State) :
    OneBlk c (flushedState p addr w c) (p.set addr) w
      ((c.sets (p.set addr)).blks w).cleared := by
  intro j v
  have hBlks := invalidated_blks (p.set addr) w j v { c with lastTagset := 0, lastBlk := none }
  rw [← hBlks]
  unfold flushedState State.modifySet
  by_cases hj : j = p.set addr
  · subst hj
    simp only [Function.update_self]
    rfl
  · simp [hj]

theorem flushAddr_coherent (lat : MemCmd → Word → Int → Word) (now : Int) (hInv : CacheInv p c) (h : Coherent p c n.mem m)
    (hw : Resident p c addr w) :
    ∃ l, flushAddr p (flatAccess lat) addr now c n =
      .ok (l, flushedState p addr w c, n.evict ((c.sets (p.set addr)).blks w)) ∧
      Coherent p (flushedState p addr w c) (n.evict ((c.sets (p.set addr)).blks w)).mem m ∧
      (n.evict ((c.sets (p.set addr)).blks w)).log =
        n.log ++ departing p c (flushedState p addr w c) := by
  have hOne := flushedState_oneBlk p addr w c
  have hEvict : n.evict ((c.sets (p.set addr)).blks w) =
      if ((c.sets (p.set addr)).blks w).dirty then
        n.write (p.baddr addr) ((c.sets (p.set addr)).blks w).data else n := by
    rw [Below.evict, hw.2.1, hw.2.2, Bool.true_and]
  have hRun : ∃ l, flushAddr p (flatAccess lat) addr now c n =
      .ok (l, flushedState p addr w c, n.evict ((c.sets (p.set addr)).blks w)) := by
    rw [flushAddr_of_resident hInv hw, hEvict]
    split
    · exact ⟨_, rfl⟩
    · exact ⟨_, rfl⟩
  obtain ⟨l, hRun⟩ := hRun
  refine ⟨l, hRun, ⟨fun j v hv hIs => ?_, fun a ha => ?_⟩, ?_⟩
  · rw [hOne j v] at hIs ⊢
    by_cases hEq : j = p.set addr ∧ v = w
    · rw [if_pos hEq] at hIs
      cases hIs
    · rw [if_neg hEq] at hIs ⊢
      exact h.data j v hv hIs
  · refine evict_below h hw.1 (fun j v hv hNe hIs hDirty => ?_)
      fun hValid => (hInv.home _ w hValid).2.2.1
    have hKept := ha j v hv
    rw [hOne j v, if_neg hNe] at hKept
    exact hKept hIs hDirty
  · rw [departing_oneBlk hOne (p.set_lt addr) hw.1, hEvict, hw.2.1, hw.2.2]
    cases hDirty : ((c.sets (p.set addr)).blks w).dirty <;> simp [Blk.cleared, Below.write]

/-- Writing back a list of blocks. -/
def Below.writeAll (es : List (Word × List Byte)) (n : Below) : Below :=
  es.foldl (fun n e => n.write e.1 e.2) n

theorem writeAll_log (es : List (Word × List Byte)) : ∀ n : Below,
    (n.writeAll es).log = n.log ++ es := by
  induction es with
  | nil => intro n; exact (append_nil _).symm
  | cons e es ih =>
    intro n
    rw [Below.writeAll, foldl_cons, ← Below.writeAll, ih, Below.write, append_assoc]
    rfl

/-- When the blocks that differ have been written back, nothing differs. -/
theorem writeAll_mem (es : List (Word × List Byte))
    (hEs : ∀ e ∈ es, p.baddr e.1 = e.1 ∧ e.2 = bytesAt m e.1 p.bsize) :
    ∀ n : Below, (∀ a, (∀ e ∈ es, e.1 ≠ p.baddr a) → n.mem a = m a) → (n.writeAll es).mem = m := by
  induction es with
  | nil => intro n hn; exact funext fun a => hn a (by simp)
  | cons e es ih =>
    intro n hn
    rw [Below.writeAll, foldl_cons, ← Below.writeAll]
    refine ih (fun e' he' => hEs e' (by simp [he'])) _ fun a ha => ?_
    obtain ⟨hBase, hData⟩ := hEs e (by simp)
    rw [Below.write, hData]
    by_cases hIn : p.baddr a = e.1
    · exact storeAt_block hIn
    · have hLen : p.blk e.1 + (bytesAt m e.1 p.bsize).length ≤ p.bsize := by
        rw [p.blk_of_baddr hBase, length_bytesAt]
        omega
      dsimp only
      rw [storeAt_other hLen (by rwa [hBase])]
      refine hn a fun e' he' => ?_
      rcases mem_cons.mp he' with rfl | he'
      · exact Ne.symm hIn
      · exact ha e' he'

theorem mem_dirtyEntries {is : List Nat} {e : Word × List Byte} :
    e ∈ dirtyEntries c is ↔ ∃ i ∈ is, ∃ w ∈ (c.sets i).ways, ((c.sets i).blks w).valid = true ∧
      ((c.sets i).blks w).dirty = true ∧ e = (((c.sets i).blks w).origin, ((c.sets i).blks w).data) := by
  simp only [dirtyEntries, mem_flatMap, mem_filterMap, dirtyEntry]
  refine exists_congr fun i => and_congr_right fun _ => exists_congr fun w => and_congr_right fun _ => ?_
  rw [Option.ite_none_right_eq_some, Bool.and_eq_true, Option.some.injEq, eq_comm (b := e), and_assoc]

/-- Nothing stays when every block is invalid. -/
theorem dirtyEntries_perm (hInv : CacheInv p c)
    (hNone : ∀ i w, w < p.assoc → ((c'.sets i).blks w).valid = false) :
    (dirtyEntries c (List.range p.nsets)).Perm (departing p c c') := by
  refine List.Perm.flatMap_left _ fun i _ => ?_
  refine ((hInv.sets i).ways.filterMap (dirtyEntry c i)).trans (List.Perm.of_eq ?_)
  refine filterMap_congr fun w hw => ?_
  unfold dirtyEntry departed
  dsimp only
  rw [hNone i w (mem_range.mp hw), Bool.false_and, Bool.not_false, Bool.and_true]

theorem flatAccess_writes : Writes p (flatAccess lat) fun addr data n => n.write addr data := by
  intro addr data now n r h
  cases h
  rfl

theorem flatAccess_not_fails (e : Stop) : ¬ Fails (flatAccess lat) e := by
  rintro ⟨cmd, addr, bsize, data, now, n, h⟩
  cases cmd <;> cases h

/-- **A flush** leaves the flat memory below. -/
theorem flush_coherent (lat : MemCmd → Word → Int → Word) (now : Int) (hInv : CacheInv p c) (h : Coherent p c n.mem m) :
    ∃ l c' n', flush p (flatAccess lat) now c n = .ok (l, c', n') ∧ n'.mem = m ∧
      Coherent p c' n'.mem m ∧ ∃ ws, n'.log = n.log ++ ws ∧ ws.Perm (departing p c c') := by
  obtain ⟨⟨l, c', n'⟩, hRun, _, hNone, hWrites⟩ := (flush_cleared hInv).exists_ok flatAccess_not_fails
  obtain rfl : n' = n.writeAll (dirtyEntries c (List.range p.nsets)) := hWrites _ flatAccess_writes
  have hMem : (n.writeAll (dirtyEntries c (List.range p.nsets))).mem = m := by
    refine writeAll_mem (p := p) _ (fun e he => ?_) n fun a ha => h.below a fun i w hw hIs hDirty => ?_
    · obtain ⟨i, _, w, hw, hIs, _, rfl⟩ := mem_dirtyEntries.mp he
      exact ⟨(hInv.home i w hIs).2.2.1, h.data i w ((hInv.sets i).mem_ways.mp hw) hIs⟩
    · have hSet := p.set_lt ((c.sets i).blks w).origin
      rw [(hInv.home i w hIs).2.1] at hSet
      exact ha _ (mem_dirtyEntries.mpr ⟨i, mem_range.mpr hSet, w,
        (hInv.sets i).mem_ways.mpr hw, hIs, hDirty, rfl⟩)
  refine ⟨l, c', _, hRun, hMem, ⟨fun i w hw hIs => ?_, fun a _ => congrFun hMem a⟩,
    _, writeAll_log _ n, dirtyEntries_perm hInv hNone⟩
  exact absurd hIs (by rw [hNone i w hw]; decide)

/-! ### Runs -/

/-- The operations a caller may issue: legal ones, with a buffer of the size it names. -/
def Op.Admitted (p : Params) (op : Op) : Prop :=
  op.Legal p ∧ match op with
    | .access .write _ buf nbytes _ _ => nbytes ≤ buf.length
    | _ => True

/-- The operation on flat memory: the bytes read, and the memory after it. -/
def flatStep : Op → Flat → Option (List Byte) × Flat
  | .access .read addr _ nbytes _ _, m => (some (bytesAt m addr nbytes), m)
  | .access .write addr buf nbytes _ _, m => (none, storeAt m addr (buf.take nbytes))
  | .flush _, m => (none, m)
  | .flushAddr _ _, m => (none, m)

def flatRun : List Op → Flat → List (Option (List Byte)) × Flat
  | [], m => ([], m)
  | op :: ops, m =>
    let (r, m) := flatStep op m
    let (rs, m) := flatRun ops m
    (r :: rs, m)

/-- What a read has returned. -/
def Out.read (op : Op) (o : Out) : Option (List Byte) :=
  match op with
  | .access .read _ _ _ _ _ => some o.buf
  | _ => none

/-- **One operation** on a coherent cache. -/
structure StepOk (p : Params) (op : Op) (c : State) (n : Below) (m : Flat)
    (r : Out × State × Below) : Prop where
  inv : CacheInv p r.2.1
  coherent : Coherent p r.2.1 r.2.2.mem (flatStep op m).2
  read : r.1.read op = (flatStep op m).1
  written : ∃ ws, r.2.2.log = n.log ++ ws ∧ ws.Perm (departing p c r.2.1)

theorem departing_self (p : Params) (c : State) : departing p c c = [] := by
  unfold departing
  simp only [flatMap_eq_nil_iff, filterMap_eq_nil_iff]
  intro i _ w _
  unfold departed
  dsimp only
  cases ((c.sets i).blks w).valid <;> simp

theorem step_coherent (lat : MemCmd → Word → Int → Word) {op : Op} (hAlloc : p.balloc = true) (hInv : CacheInv p c)
    (h : Coherent p c n.mem m) (hOp : op.Admitted p) :
    ∃ r, step p (flatAccess lat) op (c, n) = .ok r ∧ StepOk p op c n m r := by
  obtain ⟨hLegal, hBuf⟩ := hOp
  have hKeeps : ∀ {r}, step p (flatAccess lat) op (c, n) = .ok r → CacheInv p r.2.1 := fun hRun =>
    ((step_meets hInv hLegal).of_ok hRun).inv hInv hLegal
  cases op with
  | access cmd addr buf nbytes now rnd =>
    have hBuf : cmd = .write → nbytes ≤ buf.length := by
      rintro rfl
      exact hBuf
    obtain ⟨r, hRun, hOk⟩ := access_coherent lat hInv h hAlloc (hLegal.2.1 hAlloc) hBuf
      hLegal.1 hLegal.2.2
    have hStep : step p (flatAccess lat) (.access cmd addr buf nbytes now rnd) (c, n) =
        .ok (⟨some (r.cache.hits == c.hits + 1), r.buf, r.replAddr⟩, r.cache, r.next) := by
      rw [step, hRun]
      rfl
    refine ⟨_, hStep, hKeeps hStep, ?_, ?_, _, hOk.log, .refl _⟩
    · cases cmd <;> exact hOk.coherent
    · cases cmd with
      | read => exact congrArg some (hOk.read rfl)
      | write => rfl
  | flush now =>
    obtain ⟨l, c', n', hRun, _, hCoh, hLog⟩ := flush_coherent lat now hInv h
    have hStep : step p (flatAccess lat) (.flush now) (c, n) = .ok (⟨none, [], 0⟩, c', n') := by
      rw [step, hRun]
      rfl
    exact ⟨_, hStep, hKeeps hStep, hCoh, rfl, hLog⟩
  | flushAddr addr now =>
    by_cases hRes : ∃ w, Resident p c addr w
    · obtain ⟨w, hw⟩ := hRes
      obtain ⟨l, hRun, hCoh, hLog⟩ := flushAddr_coherent lat now hInv h hw
      have hStep : step p (flatAccess lat) (.flushAddr addr now) (c, n) =
          .ok (⟨none, [], 0⟩, flushedState p addr w c, n.evict ((c.sets (p.set addr)).blks w)) := by
        rw [step, hRun]
        rfl
      exact ⟨_, hStep, hKeeps hStep, hCoh, rfl, _, hLog, .refl _⟩
    · have hNone : ∀ w, ¬ Resident p c addr w := fun w hw => hRes ⟨w, hw⟩
      have hStep : step p (flatAccess lat) (.flushAddr addr now) (c, n) =
          .ok (⟨none, [], 0⟩, c, n) := by
        rw [step, flushAddr_of_absent hInv hNone]
        rfl
      refine ⟨_, hStep, hKeeps hStep, h, rfl, [], (append_nil _).symm, ?_⟩
      rw [departing_self]

theorem create_coherent (p : Params) (m : Flat) : Coherent p (create p) m m :=
  ⟨fun _ _ _ h => absurd h (by simp [create, (createSet_inv p).2, Blk.zero]), fun _ _ => rfl⟩

/-- Coherence is kept along a run. -/
theorem runOps_coherent (lat : MemCmd → Word → Int → Word) (hAlloc : p.balloc = true) :
    ∀ {ops : List Op} {c : State} {n : Below} {m : Flat}, (∀ op ∈ ops, op.Admitted p) → CacheInv p c → Coherent p c n.mem m →
    ∃ os c' n', runOps p (flatAccess lat) ops (c, n) = .ok (os, c', n') ∧ CacheInv p c' ∧
      Coherent p c' n'.mem (flatRun ops m).2 ∧ List.zipWith Out.read ops os = (flatRun ops m).1 := by
  intro ops
  induction ops with
  | nil => exact fun _ hInv h => ⟨[], _, _, rfl, hInv, h, rfl⟩
  | cons op ops ih =>
    intro c n m hOps hInv h
    obtain ⟨⟨o, c₁, n₁⟩, hStep, hOk⟩ := step_coherent lat hAlloc hInv h (hOps op (by simp))
    obtain ⟨os, c', n', hRun, hInv', hCoh, hReads⟩ :=
      ih (fun op' h' => hOps op' (by simp [h'])) hOk.inv hOk.coherent
    refine ⟨o :: os, c', n', ?_, hInv', hCoh, ?_⟩
    · have hEq : runOps p (flatAccess lat) ops (c₁, n₁) = _ := hRun
      simp only [runOps, hStep, bind, Except.bind, hEq, pure, Except.pure]
    · rw [zipWith_cons_cons, hReads]
      exact congrArg (· :: _) hOk.read

/-- **The cache is transparent**, as long as the accesses stay inside of their blocks: over a level
below that copies whole blocks, every run succeeds and its reads return what they return on flat
memory; the next operation writes back the dirty blocks that leave the cache, each of them once
and to the address it was filled from; and a flush leaves the flat memory below. -/
theorem cache_transparent (lat : MemCmd → Word → Int → Word) (hAlloc : p.balloc = true)
    {ops : List Op} (hOps : ∀ op ∈ ops, op.Admitted p) (m : Flat) :
    ∃ os c n, runOps p (flatAccess lat) ops (create p, ⟨m, []⟩) = .ok (os, c, n) ∧
      List.zipWith Out.read ops os = (flatRun ops m).1 ∧
      (∀ op, op.Admitted p → ∃ o c' n' ws, step p (flatAccess lat) op (c, n) = .ok (o, c', n') ∧
        n'.log = n.log ++ ws ∧ ws.Perm (departing p c c')) ∧
      ∀ now, ∃ l c' n', flush p (flatAccess lat) now c n = .ok (l, c', n') ∧
        n'.mem = (flatRun ops m).2 := by
  obtain ⟨os, c, n, hRun, hInv, hCoh, hReads⟩ :=
    runOps_coherent lat (n := ⟨m, []⟩) hAlloc hOps (create_inv p) (create_coherent p m)
  refine ⟨os, c, n, hRun, hReads, fun op hOp => ?_, fun now => ?_⟩
  · obtain ⟨⟨o, c', n'⟩, hStep, hOk⟩ := step_coherent lat hAlloc hInv hCoh hOp
    obtain ⟨ws, hLog, hPerm⟩ := hOk.written
    exact ⟨o, c', n', ws, hStep, hLog, hPerm⟩
  · obtain ⟨l, c', n', hFlush, hMem, _⟩ := flush_coherent lat now hInv hCoh
    exact ⟨l, c', n', hFlush, hMem⟩

/-- Two writes and two reads of blocks that compete for the one block of a set. -/
def storeTwice : List Op :=
  [.access .write 0x1000#32 [1, 2, 3, 4] 4 0 0, .access .write 0x1100#32 [5, 6, 7, 8] 4 20 0,
   .access .read 0x1000#32 [] 4 40 0, .access .read 0x1100#32 [] 2 60 0]

/-- One block of 8 bytes in each of 32 sets. -/
def Params.direct : Params := .of 32 8 1 true .LRU 1 (by decide)

theorem storeTwice_admitted : ∀ op ∈ storeTwice, op.Admitted Params.direct := by
  intro op hOp
  simp only [storeTwice, mem_cons, not_mem_nil, or_false] at hOp
  rcases hOp with rfl | rfl | rfl | rfl
  · exact ⟨⟨by decide, fun _ => by decide, by decide⟩, by decide⟩
  · exact ⟨⟨by decide, fun _ => by decide, by decide⟩, by decide⟩
  · exact ⟨⟨by decide, fun _ => by decide, by decide⟩, trivial⟩
  · exact ⟨⟨by decide, fun _ => by decide, by decide⟩, trivial⟩

theorem cache_transparent_storeTwice :
    ∃ os c n, runOps Params.direct (flatAccess fun _ _ _ => 10) storeTwice
        (create Params.direct, ⟨fun _ => 0, []⟩) = .ok (os, c, n) ∧
      List.zipWith Out.read storeTwice os = [none, none, some [1, 2, 3, 4], some [5, 6]] := by
  obtain ⟨os, c, n, hRun, hReads, _⟩ := cache_transparent (p := Params.direct)
    (fun _ _ _ => 10) rfl storeTwice_admitted fun _ => 0
  exact ⟨os, c, n, hRun, hReads.trans (by decide +kernel)⟩

/-- **An access beyond its block** that `cache_access` admits: the end of 16 bytes at the end of the
address space is address 0, which is not beyond the end of the block of 8 bytes.  The copy then
runs past the block. -/
theorem read_past_block :
    checkAccess Params.direct 0xfffffff0#32 16 = .ok () ∧
    Params.direct.baddr 0xfffffff0#32 ≠ 0 ∧
    access Params.direct (flatAccess fun _ _ _ => 10) .read 0xfffffff0#32 [] 16 0 0
      (create Params.direct) ⟨fun _ => 0, []⟩ = .error .undefined :=
  ⟨by decide, by decide, rfl⟩

end SimpleScalar.Cache

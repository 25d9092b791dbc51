import SimpleScalar.Cache.Sets

/-!
# What the operations do

`CacheInv` holds of every cache that has been used outside of block 0: the lists of
every set are in order, a valid block knows where it came from, and the remembered last
block is a valid one, which is the most recently used one of its set.  Under it the
operations have simple descriptions:

* `access_of_hit`: the fast and the slow hit path do the same.
* `access_of_miss`: what a miss replaces.
* `flush_inv`, `flushAddr_cases`: what is invalidated.
-/

namespace SimpleScalar.Cache

open List
open Function (update_idem update_of_ne update_self)

variable {p : Params} {c : State} {σ : Type} {fn : BlkAccess σ}

/-! ### The invariant -/

/-- A valid block belongs to the set it is in, and is not block 0. -/
def Blk.Home (p : Params) (i : Nat) (b : Blk) : Prop :=
  b.tag = p.tag b.origin ∧ p.set b.origin = i ∧ p.baddr b.origin = b.origin ∧ b.origin ≠ 0

/-- `last_tagset` and `last_blk`. -/
def LastInv (p : Params) (c : State) : Prop :=
  match c.lastBlk with
  | none => c.lastTagset = 0
  | some (i, w) => w < p.assoc ∧ ((c.sets i).blks w).valid = true ∧
      ((c.sets i).blks w).origin = c.lastTagset ∧
      (p.policy = .LRU → (c.sets i).ways.head? = some w)

theorem lastInv_of_none (h : c.lastBlk = none) : LastInv p c ↔ c.lastTagset = 0 := by
  unfold LastInv
  rw [h]

structure CacheInv (p : Params) (c : State) : Prop where
  sets : ∀ i, SetInv p (c.sets i)
  home : ∀ i w, ((c.sets i).blks w).valid = true → ((c.sets i).blks w).Home p i
  last : LastInv p c

/-- The block of the address is in way `w`. -/
def Resident (p : Params) (c : State) (addr : Word) (w : Nat) : Prop :=
  w < p.assoc ∧ ((c.sets (p.set addr)).blks w).valid = true ∧
    ((c.sets (p.set addr)).blks w).origin = p.baddr addr

theorem create_inv (p : Params) : CacheInv p (create p) where
  sets _ := (createSet_inv p).1
  home i w h := by
    change ((createSet p).blks w).valid = true at h
    rw [(createSet_inv p).2 w] at h
    cases h
  last := rfl

variable {addr : Word} {w : Nat}

/-- A block with the tag of an address, in its set, is the block of the address. -/
theorem CacheInv.holds_iff (h : CacheInv p c) :
    (c.sets (p.set addr)).Holds (p.tag addr) w ↔
      ((c.sets (p.set addr)).blks w).valid = true ∧
        ((c.sets (p.set addr)).blks w).origin = p.baddr addr := by
  constructor
  · rintro ⟨hTag, hValid⟩
    obtain ⟨hOwn, hSet, hBase, _⟩ := h.home _ w hValid
    refine ⟨hValid, ?_⟩
    rw [← hBase, p.baddr_eq_iff]
    exact ⟨hOwn.symm.trans hTag, hSet⟩
  · rintro ⟨hValid, hOrigin⟩
    obtain ⟨hOwn, _⟩ := h.home _ w hValid
    exact ⟨by rw [hOwn, hOrigin, p.tag_baddr], hValid⟩

theorem CacheInv.findBlk_eq_some (h : CacheInv p c) :
    findBlk p (c.sets (p.set addr)) (p.tag addr) = some w ↔ Resident p c addr w := by
  rw [(h.sets _).findBlk_eq_some, h.holds_iff]
  rfl

theorem CacheInv.findBlk_eq_none (h : CacheInv p c) :
    findBlk p (c.sets (p.set addr)) (p.tag addr) = none ↔ ∀ w, ¬ Resident p c addr w := by
  rw [(h.sets _).findBlk_eq_none]
  constructor
  · rintro hNone w ⟨hw, hValid, hOrigin⟩
    exact hNone w hw (h.holds_iff.mpr ⟨hValid, hOrigin⟩)
  · intro hNone w hw hHolds
    exact hNone w ⟨hw, h.holds_iff.mp hHolds⟩

/-- A block is in one way only. -/
theorem CacheInv.resident_unique (h : CacheInv p c) {w' : Nat} (hw : Resident p c addr w)
    (hw' : Resident p c addr w') : w = w' :=
  (h.sets _).distinct w hw.1 w' hw'.1 _ (h.holds_iff.mpr hw.2) (h.holds_iff.mpr hw'.2)

/-! ### Hits -/

/-- A set after a hit. -/
def hitSet (p : Params) (cmd : MemCmd) (w : Nat) (data : List Byte) (st : CacheSet) : CacheSet :=
  let st' := st.setBlk w
    { st.blks w with data := data, dirty := (st.blks w).dirty || cmd == .write }
  if p.policy = .LRU then st'.toHead w else st'

/-- The cache after a hit. -/
def hitState (p : Params) (cmd : MemCmd) (addr : Word) (w : Nat) (data : List Byte) (c : State) :
    State :=
  { c with
    hits := c.hits + 1
    lastTagset := p.tagset addr
    lastBlk := some (p.set addr, w)
    sets := Function.update c.sets (p.set addr) (hitSet p cmd w data (c.sets (p.set addr))) }

def hitLat (p : Params) (now : Int) (b : Blk) : Word :=
  BitVec.ofInt 32 (max p.hitLatency.toInt (toInt32 (b.ready - now)))

variable {cmd : MemCmd} {buf : List Byte} {nbytes : Nat} {now : Int} {rnd : Nat} {n : σ}

variable {st : CacheSet}

theorem toHead_of_head (h : st.ways.head? = some w) : st.toHead w = st := by
  unfold CacheSet.toHead
  obtain ⟨ws, hWs⟩ : ∃ ws, st.ways = w :: ws := List.head?_eq_some_iff.mp h
  rw [hWs, erase_cons_head, ← hWs]

/-- Both hit paths have the same effect: the fast path need not reorder. -/
theorem hit_eq {reorder : Bool} (h : reorder = false → p.policy = .LRU →
    (c.sets (p.set addr)).ways.head? = some w) :
    hit p reorder cmd addr buf nbytes now (p.set addr) w c n =
      (bcopy p cmd ((c.sets (p.set addr)).blks w).data (p.blk addr) nbytes buf).map fun r =>
        ⟨hitLat p now ((c.sets (p.set addr)).blks w), r.2, 0, hitState p cmd addr w r.1 c, n⟩ := by
  dsimp only [hit]
  generalize bcopy p cmd ((c.sets (p.set addr)).blks w).data (p.blk addr) nbytes buf = r
  cases r with
  | error e => rfl
  | ok r =>
    obtain ⟨data, buf'⟩ := r
    have hSets : ∀ st : CacheSet, Function.update c.sets (p.set addr) st (p.set addr) = st := fun st =>
      update_self ..
    show Except.ok _ = Except.ok _
    simp only [State.modifySet, hSets, hitState, hitSet, hitLat]
    by_cases hLru : p.policy = .LRU
    · by_cases hHead : (c.sets (p.set addr)).ways.head? = some w
      · have hStay : ∀ b, ((c.sets (p.set addr)).setBlk w b).toHead w =
            (c.sets (p.set addr)).setBlk w b := fun b => toHead_of_head hHead
        have hCond : ∀ b, (reorder && ((c.sets (p.set addr)).setBlk w b).ways.head? != some w &&
            p.policy == .LRU) = false := fun b => by simp [CacheSet.setBlk, hHead]
        simp only [if_pos hLru, hStay, hCond]
        rfl
      · have hSlow : reorder = true := by
          cases reorder with
          | true => rfl
          | false => exact absurd (h rfl hLru) hHead
        have hCond : ∀ b, (reorder && ((c.sets (p.set addr)).setBlk w b).ways.head? != some w &&
            p.policy == .LRU) = true := fun b => by simp [hSlow, hLru, CacheSet.setBlk, hHead]
        simp only [if_pos hLru, hCond, if_true, update_idem]
    · have hCond : ∀ b : Bool, (b && p.policy == .LRU) = false := by simp [hLru]
      simp only [hCond, if_neg hLru]
      rfl

/-- **A hit**, whichever path finds the block. -/
theorem access_of_hit (h : CacheInv p c) (hCheck : checkAccess p addr nbytes = .ok ())
    (hw : Resident p c addr w) :
    access p fn cmd addr buf nbytes now rnd c n =
      (bcopy p cmd ((c.sets (p.set addr)).blks w).data (p.blk addr) nbytes buf).map fun r =>
        ⟨hitLat p now ((c.sets (p.set addr)).blks w), r.2, 0, hitState p cmd addr w r.1 c, n⟩ := by
  have hLast := h.last
  unfold LastInv at hLast
  rw [access, hCheck]
  show (if p.tagset addr = c.lastTagset then _ else _) = _
  split
  · rename_i hTagset
    rw [p.tagset_eq_baddr] at hTagset
    have hNonzero : p.baddr addr ≠ 0 := by
      rw [← hw.2.2]
      exact (h.home _ w hw.2.1).2.2.2
    cases hBlk : c.lastBlk with
    | none =>
      rw [hBlk] at hLast
      exact absurd (hTagset.trans hLast) hNonzero
    | some b =>
      obtain ⟨i, v⟩ := b
      rw [hBlk] at hLast
      obtain ⟨hv, hValid, hOrigin, hHead⟩ := hLast
      have hHome := h.home i v hValid
      obtain rfl : p.set addr = i := by
        rw [← p.set_baddr addr, hTagset, ← hOrigin]
        exact hHome.2.1
      obtain rfl := h.resident_unique hw ⟨hv, hValid, hOrigin.trans hTagset.symm⟩
      exact hit_eq fun _ => hHead
  · rw [h.findBlk_eq_some.mpr hw]
    exact hit_eq fun hNo => absurd hNo (by simp)

variable {data : List Byte}

theorem hitSet_blks_of_ne {v : Nat} (hv : v ≠ w) :
    (hitSet p cmd w data st).blks v = st.blks v := by
  unfold hitSet
  split <;> exact st.setBlk_of_ne _ hv

theorem hitSet_blks_self :
    (hitSet p cmd w data st).blks w =
      { st.blks w with data := data, dirty := (st.blks w).dirty || cmd == .write } := by
  unfold hitSet
  split <;> exact st.setBlk_self w _

/-- A hit changes neither what is valid nor where it came from. -/
theorem hitSet_blks_same (p : Params) (cmd : MemCmd) (w : Nat) (data : List Byte) (st : CacheSet)
    (v : Nat) :
    ((hitSet p cmd w data st).blks v).valid = (st.blks v).valid ∧
      ((hitSet p cmd w data st).blks v).origin = (st.blks v).origin ∧
      ((hitSet p cmd w data st).blks v).tag = (st.blks v).tag := by
  by_cases hv : v = w
  · rw [hv, hitSet_blks_self]
    exact ⟨rfl, rfl, rfl⟩
  · rw [hitSet_blks_of_ne hv]
    exact ⟨rfl, rfl, rfl⟩

theorem hitSet_inv (h : SetInv p st) (hw : w < p.assoc) :
    SetInv p (hitSet p cmd w data st) := by
  have hBlk := h.setBlk (w := w)
    (b := { st.blks w with data := data, dirty := (st.blks w).dirty || cmd == .write }) rfl id
  unfold hitSet
  split
  · exact hBlk.toHead hw
  · exact hBlk

theorem CacheInv.hit (h : CacheInv p c) (hw : Resident p c addr w) (data : List Byte) :
    CacheInv p (hitState p cmd addr w data c) := by
  have hSets : ∀ i, i ≠ p.set addr → (hitState p cmd addr w data c).sets i = c.sets i := fun i hi =>
    update_of_ne hi _ _
  have hSelf : (hitState p cmd addr w data c).sets (p.set addr) =
      hitSet p cmd w data (c.sets (p.set addr)) := update_self ..
  have hSame := hitSet_blks_same p cmd w data (c.sets (p.set addr))
  refine ⟨fun i => ?_, fun i v hValid => ?_, ?_⟩
  · by_cases hi : i = p.set addr
    · rw [hi, hSelf]
      exact hitSet_inv (h.sets _) hw.1
    · rw [hSets i hi]
      exact h.sets i
  · by_cases hi : i = p.set addr
    · rw [hi, hSelf] at hValid ⊢
      have hHome := h.home _ v ((hSame v).1 ▸ hValid)
      unfold Blk.Home at hHome ⊢
      rwa [(hSame v).2.1, (hSame v).2.2]
    · rw [hSets i hi] at hValid ⊢
      exact h.home i v hValid
  · show w < p.assoc ∧ _
    rw [hSelf, (hSame w).1, (hSame w).2.1]
    refine ⟨hw.1, hw.2.1, hw.2.2, fun hLru => ?_⟩
    rw [hitSet, if_pos hLru]
    rfl

/-! ### Misses -/

/-- The replaced block: the last one of the way list, which comes first then, or a random one. -/
theorem replace_ok (h : SetInv p st) (rnd : Nat) :
    ∃ w st', replace p rnd st = .ok (w, st') ∧ w < p.assoc ∧ SetInv p st' ∧ st'.blks = st.blks ∧
      (p.policy ≠ .Random → ∃ vs, st.ways = vs ++ [w] ∧ st'.ways = w :: vs) := by
  have hTail : ∃ vs w, st.ways = vs ++ [w] := by
    rcases eq_nil_or_concat st.ways with hNil | ⟨vs, w, hWs⟩
    · have hLen := h.length_ways
      rw [hNil] at hLen
      exact absurd hLen p.assoc_pos.ne
    · exact ⟨vs, w, by rw [hWs, concat_eq_append]⟩
  obtain ⟨vs, w, hWs⟩ := hTail
  have hw : w < p.assoc := h.mem_ways.mp (by rw [hWs]; simp)
  have hNot : w ∉ vs := by
    have hNodup := h.nodup_ways
    rw [hWs, nodup_append] at hNodup
    exact fun hIn => hNodup.2.2 w hIn w (by simp) rfl
  have hLast : st.ways.getLast? = some w := by rw [hWs, List.getLast?_concat]
  have hHead : (st.toHead w).ways = w :: vs := by
    rw [CacheSet.toHead, hWs, erase_append_right _ hNot, erase_cons_head, append_nil]
  unfold replace
  cases p.policy with
  | Random =>
    have hLe : rnd &&& (p.assoc - 1) ≤ p.assoc - 1 := Nat.and_le_right
    have := p.assoc_pos
    exact ⟨_, st, rfl, by omega, h, rfl, fun hNe => absurd rfl hNe⟩
  | LRU =>
    simp only [hLast]
    exact ⟨w, st.toHead w, rfl, hw, h.toHead hw, rfl, fun _ => ⟨vs, hWs, hHead⟩⟩
  | FIFO =>
    simp only [hLast]
    exact ⟨w, st.toHead w, rfl, hw, h.toHead hw, rfl, fun _ => ⟨vs, hWs, hHead⟩⟩

/-- The block a miss brings in. -/
def missBlk (p : Params) (cmd : MemCmd) (addr : Word) (ready : Int) (data : List Byte) : Blk where
  tag := p.tag addr
  valid := true
  dirty := cmd == .write
  ready := ready
  data := data
  origin := p.baddr addr

/-- The cache after a miss that has replaced `old`. -/
def missState (p : Params) (addr : Word) (old : Blk) (busFree : Int) (writes : Nat) (st : CacheSet)
    (c : State) : State :=
  { c with
    busFree := busFree
    misses := c.misses + 1
    replacements := c.replacements + old.valid.toNat
    writebacks := c.writebacks + writes
    lastTagset := 0
    lastBlk := none
    sets := Function.update c.sets (p.set addr) st }

/-- `st` is the set `old` with block `w` replaced by `b`. -/
structure Replaced (p : Params) (old : CacheSet) (w : Nat) (b : Blk) (st : CacheSet) : Prop where
  inv : SetInv p st
  blks : st.blks = Function.update old.blks w b
  ways : p.policy ≠ .Random → ∃ vs, old.ways = vs ++ [w] ∧ st.ways = w :: vs

/-- The lists after the replacement. -/
theorem replaced_link {old st : CacheSet} {hash : Nat → List Nat} {b : Blk} (hw : w < p.assoc)
    (hOld : SetInv p old) (hBlks : st.blks = old.blks) (hWays : st.ways.Perm (List.range p.assoc))
    (hChain : Chained p { st with hash := hash } (· = w))
    (hOrder : p.policy ≠ .Random → ∃ vs, old.ways = vs ++ [w] ∧ st.ways = w :: vs)
    (hNew : ∀ v < p.assoc, ¬ old.Holds b.tag v) :
    Replaced p old w b (linkHtabEnt p (CacheSet.setBlk { st with hash := hash } w b) w) := by
  have hFields : (linkHtabEnt p (CacheSet.setBlk { st with hash := hash } w b) w).ways = st.ways ∧
      (linkHtabEnt p (CacheSet.setBlk { st with hash := hash } w b) w).blks =
        Function.update old.blks w b := by
    unfold linkHtabEnt
    split <;> exact ⟨rfl, by rw [← hBlks]; rfl⟩
  obtain ⟨hFieldWays, hFieldBlks⟩ := hFields
  have hHolds : ∀ {v tag}, v ≠ w → CacheSet.Holds
      (linkHtabEnt p (CacheSet.setBlk { st with hash := hash } w b) w) tag v → old.Holds tag v := by
    intro v tag hv hIs
    unfold CacheSet.Holds at hIs
    rwa [hFieldBlks, update_of_ne hv] at hIs
  have hTag : ∀ {tag}, CacheSet.Holds
      (linkHtabEnt p (CacheSet.setBlk { st with hash := hash } w b) w) tag w → b.tag = tag := by
    intro tag hIs
    unfold CacheSet.Holds at hIs
    rw [hFieldBlks, update_self] at hIs
    exact hIs.1
  refine ⟨⟨by rw [hFieldWays]; exact hWays, hChain.link hw b, ?_⟩, hFieldBlks, ?_⟩
  · intro v hv v' hv' tag ht ht'
    by_cases hEq : v = w <;> by_cases hEq' : v' = w
    · rw [hEq, hEq']
    · rw [hEq] at ht
      exact absurd (hHolds hEq' ht') (by rw [← hTag ht]; exact hNew v' hv')
    · rw [hEq'] at ht'
      exact absurd (hHolds hEq ht) (by rw [← hTag ht']; exact hNew v hv)
    · exact hOld.distinct v hv v' hv' tag (hHolds hEq ht) (hHolds hEq' ht')
  · rw [hFieldWays]
    exact hOrder

/-- **A miss**: block `w` makes room, and is written back if it is valid and dirty. -/
theorem access_of_miss (fn : BlkAccess σ) (cmd : MemCmd) (buf : List Byte) (now : Int) (rnd : Nat)
    (n : σ) (h : CacheInv p c) (hCheck : checkAccess p addr nbytes = .ok ())
    (hAddr : p.baddr addr ≠ 0) (hNone : ∀ w, ¬ Resident p c addr w) :
    ∃ w < p.assoc, ∃ st : Blk → CacheSet,
      (∀ b, b.tag = p.tag addr → Replaced p (c.sets (p.set addr)) w b (st b)) ∧
      access p fn cmd addr buf nbytes now rnd c n = (do
        let old := (c.sets (p.set addr)).blks w
        let x ← evict p fn old (p.set addr) now c.busFree n
        let y ← fn .read (p.baddr addr) p.bsize old.data (now + x.1.toInt) x.2.2.2
        let z ← bcopy p cmd y.2.1 (p.blk addr) nbytes buf
        return ⟨x.1 + y.1, z.2, if old.valid then p.mkBaddr old.tag (p.set addr) else 0,
          missState p addr old x.2.1 x.2.2.1
            (st (missBlk p cmd addr (now + (x.1 + y.1).toInt) z.1)) c, y.2.2⟩) := by
  have hSet := h.sets (p.set addr)
  obtain ⟨w, st₁, hRepl, hw, hInv₁, hBlks, hOrder⟩ := replace_ok hSet rnd
  obtain ⟨hash, hUnlink, hChain⟩ := hInv₁.unlink hw
  refine ⟨w, hw, fun b => linkHtabEnt p (CacheSet.setBlk { st₁ with hash := hash } w b) w,
    fun b hb => ?_, ?_⟩
  · refine replaced_link hw hSet hBlks hInv₁.ways hChain hOrder fun v hv hHolds => ?_
    rw [hb] at hHolds
    exact hNone v ⟨hv, h.holds_iff.mp hHolds⟩
  · have hSlow : p.tagset addr ≠ c.lastTagset := by
      intro hTagset
      have hLast := h.last
      unfold LastInv at hLast
      cases hBlk : c.lastBlk with
      | none =>
        rw [hBlk] at hLast
        exact hAddr (hTagset.trans hLast)
      | some b =>
        obtain ⟨i, v⟩ := b
        rw [hBlk] at hLast
        obtain ⟨hv, hValid, hOrigin, _⟩ := hLast
        obtain rfl : p.set addr = i := by
          rw [← p.set_baddr addr, ← p.tagset_eq_baddr, hTagset, ← hOrigin]
          exact (h.home i v hValid).2.1
        exact hNone v ⟨hv, hValid, hOrigin.trans hTagset.symm⟩
    have hOld : st₁.blks w = (c.sets (p.set addr)).blks w := by rw [hBlks]
    rw [access, hCheck]
    show (if p.tagset addr = c.lastTagset then _ else _) = _
    rw [if_neg hSlow, h.findBlk_eq_none.mpr hNone]
    show miss p fn cmd addr buf nbytes now rnd c n = _
    rw [miss, hRepl]
    show (unlinkHtabEnt p st₁ w >>= _) = _
    rw [hUnlink]
    show _ = _
    dsimp only [Bind.bind, Except.bind]
    rw [hOld]
    rfl

theorem CacheInv.miss (h : CacheInv p c) (hAddr : p.baddr addr ≠ 0) {b : Blk}
    (hSt : Replaced p (c.sets (p.set addr)) w b st) (hTag : b.tag = p.tag addr)
    (hOrigin : b.origin = p.baddr addr) {old : Blk} {busFree : Int} {writes : Nat} :
    CacheInv p (missState p addr old busFree writes st c) := by
  have hSets : ∀ i, i ≠ p.set addr → (missState p addr old busFree writes st c).sets i = c.sets i :=
    fun i hi => update_of_ne hi _ _
  have hSelf : (missState p addr old busFree writes st c).sets (p.set addr) = st :=
    update_self ..
  refine ⟨fun i => ?_, fun i v hValid => ?_, rfl⟩
  · by_cases hi : i = p.set addr
    · rw [hi, hSelf]
      exact hSt.inv
    · rw [hSets i hi]
      exact h.sets i
  · by_cases hi : i = p.set addr
    · rw [hi, hSelf, hSt.blks] at hValid ⊢
      by_cases hv : v = w
      · rw [hv, update_self]
        refine ⟨by rw [hTag, hOrigin, p.tag_baddr], ?_, ?_, ?_⟩
        · rw [hOrigin, p.set_baddr]
        · rw [hOrigin, p.baddr_baddr]
        · rw [hOrigin]
          exact hAddr
      · rw [update_of_ne hv] at hValid ⊢
        exact h.home _ v hValid
    · rw [hSets i hi] at hValid ⊢
      exact h.home i v hValid

/-! ### Invalidation -/

/-- A block that has become invalid; its dirty bit stays. -/
def Blk.cleared (b : Blk) : Blk := { b with valid := false }

/-- The cache with block `(i, w)` invalidated. -/
def invalidated (i w : Nat) (c : State) : State :=
  { c with
    invalidations := c.invalidations + 1
    sets := Function.update c.sets i
      ((c.sets i).setBlk w ((c.sets i).blks w).cleared) }

variable {i : Nat}

variable {lat : Word}

theorem invalidate_eq :
    invalidate p fn i w lat now c n =
      if ((c.sets i).blks w).dirty then
        (fn .write (p.mkBaddr ((c.sets i).blks w).tag i) p.bsize ((c.sets i).blks w).data
          (now + lat.toInt) n).map fun r => (lat + r.1, invalidated i w c, r.2.2)
      else .ok (lat, invalidated i w c, n) := by
  unfold invalidate
  dsimp only
  split
  · cases fn .write (p.mkBaddr ((c.sets i).blks w).tag i) p.bsize ((c.sets i).blks w).data
      (now + lat.toInt) n <;> rfl
  · rfl

theorem invalidate_state {r : Word × State × σ}
    (h : invalidate p fn i w lat now c n = .ok r) : r.2.1 = invalidated i w c := by
  rw [invalidate_eq] at h
  split at h
  · cases hFn : fn .write (p.mkBaddr ((c.sets i).blks w).tag i) p.bsize ((c.sets i).blks w).data
      (now + lat.toInt) n with
    | error e =>
      rw [hFn] at h
      cases h
    | ok x =>
      rw [hFn] at h
      cases h
      rfl
  · cases h
    rfl

theorem invalidated_blks (i w j v : Nat) (c : State) :
    ((invalidated i w c).sets j).blks v =
      if j = i ∧ v = w then ((c.sets i).blks w).cleared else (c.sets j).blks v := by
  unfold invalidated
  by_cases hj : j = i
  · subst hj
    simp only [update_self, true_and]
    by_cases hv : v = w
    · rw [if_pos hv, hv, (c.sets j).setBlk_self]
    · rw [if_neg hv, (c.sets j).setBlk_of_ne _ hv]
  · simp [hj]

theorem invalidated_ways (i w j : Nat) (c : State) :
    ((invalidated i w c).sets j).ways = (c.sets j).ways := by
  unfold invalidated
  by_cases hj : j = i
  · subst hj
    simp [CacheSet.setBlk]
  · simp [hj]

/-- An invalid block has nothing to say. -/
theorem CacheInv.invalidated (h : CacheInv p c) (i w : Nat) (hLast : c.lastBlk = none) :
    CacheInv p (invalidated i w c) := by
  refine ⟨fun j => ?_, fun j v hValid => ?_, ?_⟩
  · by_cases hj : j = i
    · subst hj
      show SetInv p (Function.update c.sets j _ j)
      rw [update_self]
      exact (h.sets j).setBlk rfl (by simp [Blk.cleared])
    · show SetInv p (Function.update c.sets i _ j)
      rw [update_of_ne hj]
      exact h.sets j
  · rw [invalidated_blks] at hValid ⊢
    split at hValid
    · cases hValid
    · rename_i hNe
      rw [if_neg hNe]
      exact h.home j v hValid
  · refine (lastInv_of_none ?_).mpr ?_
    · exact hLast
    · exact (lastInv_of_none hLast).mp h.last

/-- Forgetting the last block. -/
theorem CacheInv.forget (h : CacheInv p c) :
    CacheInv p { c with lastTagset := 0, lastBlk := none } :=
  ⟨h.sets, h.home, rfl⟩

/-- A block moves to the end of its way list. -/
theorem CacheInv.toTail (h : CacheInv p c) (hLast : c.lastBlk = none) (hw : w < p.assoc) :
    CacheInv p (c.modifySet i fun st => st.toTail w) := by
  refine ⟨fun j => ?_, fun j v hValid => ?_, ?_⟩
  · by_cases hj : j = i
    · subst hj
      show SetInv p (Function.update c.sets j _ j)
      rw [update_self]
      exact (h.sets j).toTail hw
    · show SetInv p (Function.update c.sets i _ j)
      rw [update_of_ne hj]
      exact h.sets j
  · have hBlks : ((c.modifySet i fun st => st.toTail w).sets j).blks = (c.sets j).blks := by
      unfold State.modifySet
      by_cases hj : j = i
      · subst hj
        simp [CacheSet.toTail]
      · simp [hj]
    rw [hBlks] at hValid ⊢
    exact h.home j v hValid
  · refine (lastInv_of_none ?_).mpr ?_
    · exact hLast
    · exact (lastInv_of_none hLast).mp h.last

/-! ### Flushing -/

/-- A write-back goes where the block came from. -/
theorem CacheInv.mkBaddr_eq (h : CacheInv p c) (hValid : ((c.sets i).blks w).valid = true) :
    p.mkBaddr ((c.sets i).blks w).tag i = ((c.sets i).blks w).origin := by
  obtain ⟨hTag, hSet, hBase, _⟩ := h.home i w hValid
  calc p.mkBaddr ((c.sets i).blks w).tag i
      = p.mkBaddr (p.tag ((c.sets i).blks w).origin) (p.set ((c.sets i).blks w).origin) := by
        rw [hTag, hSet]
    _ = ((c.sets i).blks w).origin := by rw [p.mkBaddr_tag_set, hBase]

/-- An error of the level below. -/
def Fails (fn : BlkAccess σ) (e : Stop) : Prop :=
  ∃ cmd addr bsize data now n, fn cmd addr bsize data now n = .error e

/-- The level below stores a block that is written back by `wr`. -/
def Writes (p : Params) (fn : BlkAccess σ) (wr : Word → List Byte → σ → σ) : Prop :=
  ∀ {addr data now n r}, fn .write addr p.bsize data now n = .ok r → r.2.2 = wr addr data n

/-- What a flush writes back of a block. -/
def dirtyEntry (c : State) (i w : Nat) : Option (Word × List Byte) :=
  if ((c.sets i).blks w).valid && ((c.sets i).blks w).dirty then
    some (((c.sets i).blks w).origin, ((c.sets i).blks w).data)
  else none

/-- The blocks of `D` have been invalidated, and nothing else has changed. -/
structure Cleared (p : Params) (D : List (Nat × Nat)) (c₀ c : State) : Prop where
  inv : CacheInv p c
  last : c.lastBlk = none
  hits : c.hits = c₀.hits
  misses : c.misses = c₀.misses
  ways : ∀ i, (c.sets i).ways = (c₀.sets i).ways
  blks : ∀ i w, (c.sets i).blks w =
    if (i, w) ∈ D then ((c₀.sets i).blks w).cleared else (c₀.sets i).blks w

variable {c₀ : State}

/-- One block of the loop. -/
theorem flushBlk_cleared {D : List (Nat × Nat)} (h : Cleared p D c₀ c) (hNew : (i, w) ∉ D) :
    Outcome.Meets (flushBlk p fn i w now (lat, c, n))
      (fun r => Cleared p (D ++ [(i, w)]) c₀ r.2.1 ∧ ∀ wr, Writes p fn wr →
        r.2.2 = (dirtyEntry c₀ i w).elim n fun e => wr e.1 e.2 n)
      (Fails fn) := by
  have hBlk : (c.sets i).blks w = (c₀.sets i).blks w := by rw [h.blks, if_neg hNew]
  unfold flushBlk
  have hMem : ∀ j v, (j, v) ∈ D ++ [(i, w)] ↔ (j, v) ∈ D ∨ j = i ∧ v = w := by simp
  by_cases hValid : ((c.sets i).blks w).valid = true
  · rw [if_pos hValid, invalidate_eq]
    have hClear : Cleared p (D ++ [(i, w)]) c₀ (invalidated i w c) := by
      refine ⟨h.inv.invalidated i w h.last, h.last, h.hits, h.misses, fun j => ?_, fun j v => ?_⟩
      · rw [invalidated_ways, h.ways]
      · rw [invalidated_blks]
        by_cases hEq : j = i ∧ v = w
        · rw [if_pos hEq, if_pos ((hMem j v).mpr (.inr hEq)), hBlk, hEq.1, hEq.2]
        · rw [if_neg hEq, h.blks]
          simp only [hMem, hEq, or_false]
    split
    · rename_i hDirty
      rw [h.inv.mkBaddr_eq hValid]
      cases hFn : fn .write ((c.sets i).blks w).origin p.bsize ((c.sets i).blks w).data
        (now + lat.toInt) n with
      | error e => exact ⟨_, _, _, _, _, _, hFn⟩
      | ok r =>
        refine ⟨hClear, fun wr hWr => ?_⟩
        have hEntry : dirtyEntry c₀ i w =
            some (((c.sets i).blks w).origin, ((c.sets i).blks w).data) := by
          rw [hBlk] at hValid hDirty ⊢
          simp [dirtyEntry, hValid, hDirty]
        rw [hEntry]
        exact hWr hFn
    · rename_i hClean
      refine ⟨hClear, fun wr _ => ?_⟩
      have hEntry : dirtyEntry c₀ i w = none := by
        rw [hBlk] at hClean
        simp [dirtyEntry, hClean]
      rw [hEntry]
      rfl
  · rw [if_neg hValid]
    rw [hBlk] at hValid
    refine ⟨⟨h.inv, h.last, h.hits, h.misses, h.ways, fun j v => ?_⟩, fun wr _ => ?_⟩
    · rw [h.blks]
      by_cases hEq : j = i ∧ v = w
      · rw [hEq.1, hEq.2, if_neg hNew, if_pos ((hMem i w).mpr (.inr ⟨rfl, rfl⟩)), Blk.cleared]
        rw [Bool.not_eq_true] at hValid
        rw [← hValid]
      · simp only [hMem, hEq, or_false]
    · have hEntry : dirtyEntry c₀ i w = none := by simp [dirtyEntry, hValid]
      rw [hEntry]
      rfl

theorem flushWays_cleared : ∀ {ws : List Nat} {D : List (Nat × Nat)}
    {lat : Word} {c : State} {n : σ}, Cleared p D c₀ c → ws.Nodup → (∀ w ∈ ws, (i, w) ∉ D) →
    Outcome.Meets (flushWays p fn i now ws (lat, c, n))
      (fun r => Cleared p (D ++ ws.map (i, ·)) c₀ r.2.1 ∧ ∀ wr, Writes p fn wr →
        r.2.2 = (ws.filterMap (dirtyEntry c₀ i)).foldl (fun n e => wr e.1 e.2 n) n)
      (Fails fn) := by
  intro ws
  induction ws with
  | nil =>
    intro D lat c n h _ _
    rw [map_nil, append_nil]
    exact ⟨h, fun _ _ => rfl⟩
  | cons w ws ih =>
    intro D lat c n h hNodup hD
    rw [nodup_cons] at hNodup
    rw [flushWays]
    refine (flushBlk_cleared h (hD w (by simp))).bind fun x hx => ?_
    obtain ⟨lat', c', n'⟩ := x
    have hRest : ∀ v ∈ ws, (i, v) ∉ D ++ [(i, w)] := by
      intro v hv hIn
      rcases mem_append.mp hIn with hIn | hIn
      · exact hD v (by simp [hv]) hIn
      · rw [mem_singleton, Prod.mk.injEq] at hIn
        exact hNodup.1 (hIn.2 ▸ hv)
    refine (ih hx.1 hNodup.2 hRest).mono (fun r hr => ?_) fun _ he => he
    rw [append_assoc] at hr
    refine ⟨hr.1, fun wr hWr => ?_⟩
    rw [hr.2 wr hWr]
    have hn' : n' = _ := hx.2 wr hWr
    cases hEntry : dirtyEntry c₀ i w with
    | none =>
      rw [hEntry] at hn'
      rw [filterMap_cons_none hEntry, hn']
      rfl
    | some e =>
      rw [hEntry] at hn'
      rw [filterMap_cons_some hEntry, hn']
      rfl

/-- The blocks a flush visits, in order. -/
def visited (c : State) (is : List Nat) : List (Nat × Nat) :=
  is.flatMap fun i => (c.sets i).ways.map (i, ·)

/-- What a flush writes back, in order. -/
def dirtyEntries (c : State) (is : List Nat) : List (Word × List Byte) :=
  is.flatMap fun i => (c.sets i).ways.filterMap (dirtyEntry c i)

theorem mem_visited {c : State} {is : List Nat} {i w : Nat} :
    (i, w) ∈ visited c is ↔ i ∈ is ∧ w ∈ (c.sets i).ways := by
  simp only [visited, mem_flatMap, mem_map, Prod.mk.injEq]
  constructor
  · rintro ⟨j, hj, v, hv, rfl, rfl⟩
    exact ⟨hj, hv⟩
  · rintro ⟨hi, hw⟩
    exact ⟨i, hi, w, hw, rfl, rfl⟩

theorem flushSets_cleared (h₀ : ∀ i, SetInv p (c₀.sets i)) :
    ∀ {is : List Nat} {D : List (Nat × Nat)} {lat : Word} {c : State} {n : σ},
    Cleared p D c₀ c → is.Nodup → (∀ i ∈ is, ∀ w, (i, w) ∉ D) →
    Outcome.Meets (flushSets p fn now is (lat, c, n))
      (fun r => Cleared p (D ++ visited c₀ is) c₀ r.2.1 ∧ ∀ wr, Writes p fn wr →
        r.2.2 = (dirtyEntries c₀ is).foldl (fun n e => wr e.1 e.2 n) n)
      (Fails fn) := by
  intro is
  induction is with
  | nil =>
    intro D lat c n h _ _
    rw [visited, flatMap_nil, append_nil]
    exact ⟨h, fun _ _ => rfl⟩
  | cons i is ih =>
    intro D lat c n h hNodup hD
    rw [nodup_cons] at hNodup
    rw [flushSets, h.ways i]
    refine (flushWays_cleared h (h₀ i).nodup_ways fun w _ => hD i (by simp) w).bind fun x hx => ?_
    obtain ⟨lat', c', n'⟩ := x
    have hRest : ∀ j ∈ is, ∀ w, (j, w) ∉ D ++ (c₀.sets i).ways.map (i, ·) := by
      intro j hj w hIn
      rcases mem_append.mp hIn with hIn | hIn
      · exact hD j (by simp [hj]) w hIn
      · obtain ⟨_, _, hEq⟩ := mem_map.mp hIn
        rw [Prod.mk.injEq] at hEq
        exact hNodup.1 (hEq.1 ▸ hj)
    refine (ih hx.1 hNodup.2 hRest).mono (fun r hr => ?_) fun _ he => he
    rw [append_assoc] at hr
    refine ⟨hr.1, fun wr hWr => ?_⟩
    have hn' : n' = _ := hx.2 wr hWr
    rw [hr.2 wr hWr, hn', dirtyEntries, dirtyEntries, flatMap_cons, foldl_append]

/-- **A flush** writes back the dirty blocks and leaves no valid one. -/
theorem flush_cleared (h : CacheInv p c) :
    Outcome.Meets (flush p fn now c n)
      (fun r => Cleared p (visited c (List.range p.nsets)) c r.2.1 ∧
        (∀ i w, w < p.assoc → ((r.2.1.sets i).blks w).valid = false) ∧ ∀ wr, Writes p fn wr →
        r.2.2 = (dirtyEntries c (List.range p.nsets)).foldl (fun n e => wr e.1 e.2 n) n)
      (Fails fn) := by
  have hStart : Cleared p [] c { c with lastTagset := 0, lastBlk := none } :=
    ⟨h.forget, rfl, rfl, rfl, fun _ => rfl, fun _ _ => rfl⟩
  refine (flushSets_cleared h.sets hStart nodup_range (by simp)).mono (fun r hr => ?_)
    fun _ he => he
  rw [nil_append] at hr
  refine ⟨hr.1, fun i w hw => ?_, hr.2⟩
  rw [hr.1.blks]
  split
  · rfl
  · rename_i hNot
    rw [Bool.eq_false_iff]
    intro hValid
    have hSet := (h.home i w hValid).2.1
    have hi := p.set_lt ((c.sets i).blks w).origin
    rw [hSet] at hi
    exact hNot (mem_visited.mpr ⟨mem_range.mpr hi, (h.sets i).mem_ways.mpr hw⟩)

/-- The cache after `cache_flush_addr` has found the block. -/
def flushedState (p : Params) (addr : Word) (w : Nat) (c : State) : State :=
  (invalidated (p.set addr) w { c with lastTagset := 0, lastBlk := none }).modifySet (p.set addr)
    fun st => st.toTail w

theorem CacheInv.flushed (h : CacheInv p c) (hw : w < p.assoc) :
    CacheInv p (flushedState p addr w c) :=
  (h.forget.invalidated _ _ rfl).toTail rfl hw

/-- **A flush of one block.** -/
theorem flushAddr_of_resident (h : CacheInv p c) (hw : Resident p c addr w) :
    flushAddr p fn addr now c n =
      if ((c.sets (p.set addr)).blks w).dirty then
        (fn .write (p.baddr addr) p.bsize ((c.sets (p.set addr)).blks w).data
          (now + p.hitLatency.toInt) n).map fun r =>
            (p.hitLatency + r.1, flushedState p addr w c, r.2.2)
      else .ok (p.hitLatency, flushedState p addr w c, n) := by
  have hAddr : p.mkBaddr ((c.sets (p.set addr)).blks w).tag (p.set addr) = p.baddr addr := by
    rw [h.mkBaddr_eq hw.2.1, hw.2.2]
  rw [flushAddr, h.findBlk_eq_some.mpr hw]
  dsimp only
  rw [invalidate_eq]
  dsimp only
  rw [hAddr]
  split
  · cases fn .write (p.baddr addr) p.bsize ((c.sets (p.set addr)).blks w).data
      (now + p.hitLatency.toInt) n <;> rfl
  · rfl

theorem flushAddr_of_absent (h : CacheInv p c) (hNone : ∀ w, ¬ Resident p c addr w) :
    flushAddr p fn addr now c n = .ok (p.hitLatency, c, n) := by
  rw [flushAddr, h.findBlk_eq_none.mpr hNone]

end SimpleScalar.Cache

import SimpleScalar.Cache.Representation
import SimpleScalar.Lib.Pool

/-!
# The counters of a cache

Every access is a hit or a miss.  A miss fills a block, which is valid until it is
replaced or invalidated, and a block that is written back is a replaced dirty block or an
invalidated one.  `accounting` says so for every run outside of block 0, with the calls of
`blk_access_fn` counted by the state below (`counted`).
-/

namespace SimpleScalar.Cache

open Outcome

/-- The number of blocks with `P`. -/
def census (nsets assoc : Nat) (P : Blk → Bool) (blks : Nat → Nat → Blk) : Nat :=
  ∑ x ∈ Finset.range nsets ×ˢ Finset.range assoc, (P (blks x.1 x.2)).toNat

def Blk.isDirty (b : Blk) : Bool := b.valid && b.dirty

section Census

variable {nsets assoc : Nat} {P : Blk → Bool} {blks blks' : Nat → Nat → Blk}

theorem census_congr (h : ∀ i w, i < nsets → w < assoc → P (blks' i w) = P (blks i w)) :
    census nsets assoc P blks' = census nsets assoc P blks := by
  refine Finset.sum_congr rfl fun x hx => ?_
  rw [Finset.mem_product, Finset.mem_range, Finset.mem_range] at hx
  rw [h x.1 x.2 hx.1 hx.2]

/-- One block changes. -/
theorem census_change {i w : Nat} (hi : i < nsets) (hw : w < assoc)
    (h : ∀ j v, (j, v) ≠ (i, w) → blks' j v = blks j v) :
    census nsets assoc P blks' + (P (blks i w)).toNat =
      census nsets assoc P blks + (P (blks' i w)).toNat := by
  have hMem : (i, w) ∈ Finset.range nsets ×ˢ Finset.range assoc := by
    rw [Finset.mem_product, Finset.mem_range, Finset.mem_range]
    exact ⟨hi, hw⟩
  have hSum := Pool.sum_update_add _ (fun x : Nat × Nat => (P (blks x.1 x.2)).toNat) hMem
    (P (blks' i w)).toNat
  rw [Nat.add_comm (census nsets assoc P blks)]
  refine Eq.trans ?_ hSum
  congr 1
  refine Finset.sum_congr rfl fun x _ => ?_
  by_cases hx : x = (i, w)
  · rw [hx, Function.update_self]
  · rw [Function.update_of_ne hx, h x.1 x.2 hx]

theorem census_eq_zero (h : ∀ i w, i < nsets → w < assoc → P (blks i w) = false) :
    census nsets assoc P blks = 0 := by
  refine Finset.sum_eq_zero fun x hx => ?_
  rw [Finset.mem_product, Finset.mem_range, Finset.mem_range] at hx
  rw [h x.1 x.2 hx.1 hx.2]
  rfl

end Census

/-- `blk_access_fn`, with its successful `Write` calls counted. -/
def counted {σ : Type} (fn : BlkAccess σ) : BlkAccess (σ × Nat) :=
  fun cmd addr bsize data now n => do
    let (lat, data, n') ← fn cmd addr bsize data now n.1
    return (lat, data, n', n.2 + (cmd == .write).toNat)

namespace State

variable (p : Params)

def blk (c : State) (i w : Nat) : Blk := (c.sets i).blks w

/-- The number of valid blocks. -/
def valids (c : State) : Nat := census p.nsets p.assoc Blk.valid c.blk

/-- The number of dirty blocks. -/
def dirties (c : State) : Nat := census p.nsets p.assoc Blk.isDirty c.blk

end State

variable {σ : Type} {p : Params} {fn : BlkAccess σ} {c c' : State} {n : σ} {k : Nat} {i w : Nat}
  {now : Int} {lat : Word} {cmd : MemCmd} {addr : Word} {buf : List Byte} {nbytes rnd : Nat}

theorem counted_ok {bsize : Nat} {data : List Byte} {x : σ × Nat} {r : Word × List Byte × σ × Nat}
    (h : counted fn cmd addr bsize data now x = .ok r) :
    r.2.2.2 = x.2 + (cmd == .write).toNat := by
  obtain ⟨_, -, h⟩ := bind_eq_ok.mp h
  cases h
  rfl

/-! ### Flushing -/

/-- What a flush keeps: all counters but the invalidations, the valid blocks together with the
invalidations, and the dirty blocks together with the calls. -/
structure Kept (p : Params) (c : State) (k : Nat) (c' : State) (k' : Nat) : Prop where
  hits : c'.hits = c.hits
  misses : c'.misses = c.misses
  replacements : c'.replacements = c.replacements
  writebacks : c'.writebacks = c.writebacks
  ways : ∀ i, (c'.sets i).ways = (c.sets i).ways
  valids : c'.invalidations + c'.valids p = c.invalidations + c.valids p
  dirties : k' + c'.dirties p = k + c.dirties p

theorem Kept.trans {c'' : State} {k' k'' : Nat} (h : Kept p c k c' k') (h' : Kept p c' k' c'' k'') :
    Kept p c k c'' k'' where
  hits := h'.hits.trans h.hits
  misses := h'.misses.trans h.misses
  replacements := h'.replacements.trans h.replacements
  writebacks := h'.writebacks.trans h.writebacks
  ways i := (h'.ways i).trans (h.ways i)
  valids := h'.valids.trans h.valids
  dirties := h'.dirties.trans h.dirties

theorem invalidate_kept (hi : i < p.nsets) (hw : w < p.assoc)
    (hValid : ((c.sets i).blks w).valid = true) :
    Meets (invalidate p (counted fn) i w lat now c (n, k))
      (fun r => Kept p c k r.2.1 r.2.2.2 ∧ r.2.2.2 = k + ((c.sets i).blks w).dirty.toNat)
      (fun _ => True) := by
  have hBlk : (invalidated i w c).blk i w = ((c.sets i).blks w).cleared := by
    rw [State.blk, invalidated_blks, if_pos ⟨rfl, rfl⟩]
  have hRest : ∀ j v, (j, v) ≠ (i, w) → (invalidated i w c).blk j v = c.blk j v := by
    intro j v hNe
    rw [State.blk, invalidated_blks, if_neg (by simpa using hNe)]
    rfl
  have hValids := census_change (P := Blk.valid) hi hw hRest
  have hDirties := census_change (P := Blk.isDirty) hi hw hRest
  rw [hBlk] at hValids hDirties
  have hOld : (c.blk i w).valid = true := hValid
  have hOldDirty : (c.blk i w).isDirty = ((c.sets i).blks w).dirty := by
    rw [Blk.isDirty, hOld]
    rfl
  rw [hOld] at hValids
  rw [hOldDirty] at hDirties
  have hKept : Kept p c k (invalidated i w c) (k + ((c.sets i).blks w).dirty.toNat) :=
    ⟨rfl, rfl, rfl, rfl, fun j => invalidated_ways i w j c, by
      change c.invalidations + 1 + _ = _
      change census _ _ _ _ + 1 = census _ _ _ _ + 0 at hValids
      rw [State.valids, State.valids]
      omega, by
      change census _ _ _ _ + _ = census _ _ _ _ + 0 at hDirties
      rw [State.dirties, State.dirties]
      omega⟩
  rw [invalidate_eq]
  split
  · rename_i hDirty
    cases hFn : counted fn .write (p.mkBaddr ((c.sets i).blks w).tag i) p.bsize
      ((c.sets i).blks w).data (now + lat.toInt) (n, k) with
    | error e => trivial
    | ok r =>
      have hCalls : r.2.2.2 = k + 1 := counted_ok hFn
      rw [hDirty] at hKept ⊢
      exact ⟨by rw [hCalls]; exact hKept, hCalls⟩
  · rename_i hClean
    rw [Bool.not_eq_true] at hClean
    rw [hClean] at hKept ⊢
    exact ⟨hKept, rfl⟩

theorem Kept.refl : Kept p c k c k := ⟨rfl, rfl, rfl, rfl, fun _ => rfl, rfl, rfl⟩

theorem flushWays_kept {ws : List Nat} (hi : i < p.nsets) (hWays : ∀ w ∈ ws, w < p.assoc) :
    Meets (flushWays p (counted fn) i now ws (lat, c, (n, k)))
      (fun r => Kept p c k r.2.1 r.2.2.2) (fun _ => True) := by
  induction ws generalizing lat c n k with
  | nil => exact Kept.refl
  | cons w ws ih =>
    have hBlk : Meets (flushBlk p (counted fn) i w now (lat, c, (n, k)))
        (fun r => Kept p c k r.2.1 r.2.2.2) (fun _ => True) := by
      unfold flushBlk
      split
      · rename_i hValid
        exact (invalidate_kept hi (hWays w (by simp)) hValid).mono (fun r hr => hr.1) fun _ h => h
      · exact Kept.refl
    refine hBlk.bind fun r hr => ?_
    exact (ih fun v hv => hWays v (by simp [hv])).mono (fun r' hr' => hr.trans hr') fun _ h => h

theorem flushSets_kept {is : List Nat} (hSets : ∀ i ∈ is, i < p.nsets)
    (hWays : ∀ i, ∀ w ∈ (c.sets i).ways, w < p.assoc) :
    Meets (flushSets p (counted fn) now is (lat, c, (n, k)))
      (fun r => Kept p c k r.2.1 r.2.2.2) (fun _ => True) := by
  induction is generalizing lat c n k with
  | nil => exact Kept.refl
  | cons i is ih =>
    refine (flushWays_kept (hSets i (by simp)) (hWays i)).bind fun r hr => ?_
    refine (ih (fun j hj => hSets j (by simp [hj])) fun j w hw => ?_).mono
      (fun r' hr' => hr.trans hr') fun _ h => h
    rw [hr.ways] at hw
    exact hWays j w hw

/-! ### One call -/

def Op.isAccess : Op → Bool
  | .access .. => true
  | .flush _ => false
  | .flushAddr _ _ => false

/-- The number of dirty blocks that a flush invalidates. -/
def dirtyFlushed (p : Params) (blks : Nat → Nat → Blk) : Op → Nat
  | .access .. => 0
  | .flush _ => census p.nsets p.assoc Blk.isDirty blks
  | .flushAddr addr _ => ∑ w ∈ Finset.range p.assoc,
      ((blks (p.set addr) w).isDirty && (blks (p.set addr) w).tag == p.tag addr).toNat

/-- What a call adds to the counters and to the calls of `blk_access_fn`. -/
structure Booked (p : Params) (op : Op) (c : State) (k : Nat) (c' : State) (k' : Nat) : Prop where
  total : c'.hits + c'.misses = c.hits + c.misses + op.isAccess.toNat
  filled : c'.misses + (c.valids p + c.replacements + c.invalidations) =
    c.misses + (c'.valids p + c'.replacements + c'.invalidations)
  written : ∃ writes replaced, writes ≤ replaced ∧ c'.writebacks = c.writebacks + writes ∧
    c'.replacements = c.replacements + replaced ∧ k' = k + writes + dirtyFlushed p c.blk op

theorem evict_counted {b : Blk} {busFree : Int} {r : Word × Int × Nat × σ × Nat}
    (h : evict p (counted fn) b i now busFree (n, k) = .ok r) :
    r.2.2.1 ≤ b.valid.toNat ∧ r.2.2.2.2 = k + r.2.2.1 := by
  unfold evict at h
  split at h
  · rename_i hValid
    rw [hValid]
    unfold writeBack at h
    dsimp only at h
    split at h
    · obtain ⟨x, hFn, h⟩ := bind_eq_ok.mp h
      cases h
      exact ⟨Nat.le_refl 1, counted_ok hFn⟩
    · cases h
      exact ⟨Nat.zero_le 1, rfl⟩
  · cases h
    exact ⟨Nat.zero_le _, rfl⟩

theorem access_booked (h : CacheInv p c) (hLegal : Op.Legal p (.access cmd addr buf nbytes now rnd))
    {r : Result (σ × Nat)}
    (hOk : access p (counted fn) cmd addr buf nbytes now rnd c (n, k) = .ok r) :
    Booked p (.access cmd addr buf nbytes now rnd) c k r.cache r.next.2 := by
  obtain ⟨hCheck, -, hAddr⟩ := hLegal
  have hSet := p.set_lt addr
  by_cases hHit : ∃ w, Resident p c addr w
  · obtain ⟨w, hw⟩ := hHit
    rw [access_of_hit h hCheck hw] at hOk
    cases hCopy : bcopy p cmd ((c.sets (p.set addr)).blks w).data (p.blk addr) nbytes buf with
    | error e =>
      rw [hCopy] at hOk
      cases hOk
    | ok x =>
      rw [hCopy] at hOk
      cases hOk
      have hValids : (hitState p cmd addr w x.1 c).valids p = c.valids p := by
        refine census_congr fun j v _ _ => ?_
        unfold State.blk hitState
        by_cases hj : j = p.set addr
        · subst hj
          simp only [Function.update_self]
          exact (hitSet_blks_same p cmd w x.1 (c.sets (p.set addr)) v).1
        · simp only [Function.update_of_ne hj]
      refine ⟨?_, ?_, 0, 0, Nat.le_refl 0, rfl, rfl, rfl⟩
      · change c.hits + 1 + c.misses = c.hits + c.misses + 1
        omega
      · rw [hValids]
        rfl
  · have hNone : ∀ w, ¬ Resident p c addr w := fun w hw => hHit ⟨w, hw⟩
    obtain ⟨w, hw, st, hSt, hEq⟩ :=
      access_of_miss (counted fn) cmd buf now rnd (n, k) h hCheck hAddr hNone
    rw [hEq] at hOk
    obtain ⟨x, hEvict, hOk⟩ := bind_eq_ok.mp hOk
    obtain ⟨y, hRead, hOk⟩ := bind_eq_ok.mp hOk
    obtain ⟨z, -, hOk⟩ := bind_eq_ok.mp hOk
    cases hOk
    obtain ⟨hWrites, hCalls⟩ := evict_counted hEvict
    have hCalls' : y.2.2.2 = x.2.2.2.2 := counted_ok hRead
    have hBlks := (hSt (missBlk p cmd addr (now + (x.1 + y.1).toInt) z.1) rfl).blks
    have hValids := @census_change _ _ Blk.valid c.blk
      (missState p addr ((c.sets (p.set addr)).blks w) x.2.1 x.2.2.1
        (st (missBlk p cmd addr (now + (x.1 + y.1).toInt) z.1)) c).blk _ _ hSet hw (by
        intro j v hNe
        unfold State.blk missState
        by_cases hj : j = p.set addr
        · subst hj
          have hv : v ≠ w := fun hEq => hNe (by rw [hEq])
          simp only [Function.update_self, hBlks, Function.update_of_ne hv]
        · simp only [Function.update_of_ne hj])
    have hNew : ((missState p addr ((c.sets (p.set addr)).blks w) x.2.1 x.2.2.1
        (st (missBlk p cmd addr (now + (x.1 + y.1).toInt) z.1)) c).blk (p.set addr) w).valid = true := by
      unfold State.blk missState
      simp only [Function.update_self, hBlks]
      rfl
    rw [hNew] at hValids
    refine ⟨?_, ?_, x.2.2.1, ((c.sets (p.set addr)).blks w).valid.toNat, hWrites, rfl, rfl, ?_⟩
    · change c.hits + (c.misses + 1) = c.hits + c.misses + 1
      omega
    · change _ + (c.blk (p.set addr) w).valid.toNat = _ + 1 at hValids
      change c.misses + 1 + _ = c.misses + (census p.nsets p.assoc Blk.valid (missState p addr
        ((c.sets (p.set addr)).blks w) x.2.1 x.2.2.1
        (st (missBlk p cmd addr (now + (x.1 + y.1).toInt) z.1)) c).blk + (c.replacements +
        (c.blk (p.set addr) w).valid.toNat) + c.invalidations)
      rw [State.valids]
      omega
    · exact hCalls'.trans hCalls

variable {r : Word × State × σ × Nat}

theorem flush_booked (h : CacheInv p c) (hOk : flush p (counted fn) now c (n, k) = .ok r) :
    Booked p (.flush now) c k r.2.1 r.2.2.2 := by
  have hClear := (flush_cleared h).of_ok hOk
  have hKept := (@flushSets_kept σ p fn { c with lastTagset := 0, lastBlk := none } n k now
    p.hitLatency (List.range p.nsets) (fun i hi => List.mem_range.mp hi) fun i w hw => (h.sets i).mem_ways.mp hw).of_ok hOk
  have hNone : r.2.1.dirties p = 0 := by
    refine census_eq_zero fun i w _ hw => ?_
    have hInvalid : (r.2.1.blk i w).valid = false := hClear.2.1 i w hw
    rw [Blk.isDirty, hInvalid]
    rfl
  refine ⟨?_, ?_, 0, 0, Nat.le_refl 0, hKept.writebacks, hKept.replacements, ?_⟩
  · rw [hKept.hits, hKept.misses]
    rfl
  · have hValids : _ = c.invalidations + c.valids p := hKept.valids
    have hMisses : _ = c.misses := hKept.misses
    have hReplacements : _ = c.replacements := hKept.replacements
    omega
  · have hDirties : _ = k + c.dirties p := hKept.dirties
    rw [hNone] at hDirties
    exact hDirties

/-- At most one block has the tag of an address. -/
theorem dirtyFlushed_addr (h : CacheInv p c) (hw : Resident p c addr w) :
    dirtyFlushed p c.blk (.flushAddr addr now) = ((c.sets (p.set addr)).blks w).dirty.toNat := by
  have hHolds := h.holds_iff.mpr hw.2
  rw [dirtyFlushed, Finset.sum_eq_single w]
  · have hTag : (c.blk (p.set addr) w).tag = p.tag addr := hHolds.1
    have hValid : (c.blk (p.set addr) w).valid = true := hHolds.2
    rw [Blk.isDirty, hTag, hValid, beq_self_eq_true, Bool.and_true]
    rfl
  · intro v hv hNe
    rw [Finset.mem_range] at hv
    have hNot : ((c.blk (p.set addr) v).isDirty && (c.blk (p.set addr) v).tag == p.tag addr) = false := by
      rw [Bool.eq_false_iff]
      intro hIs
      rw [Bool.and_eq_true, Blk.isDirty, Bool.and_eq_true, beq_iff_eq] at hIs
      exact hNe ((h.sets _).distinct v hv w hw.1 _ ⟨hIs.2, hIs.1.1⟩ hHolds)
    rw [hNot]
    rfl
  · intro hNot
    exact absurd (Finset.mem_range.mpr hw.1) hNot

theorem flushAddr_booked (h : CacheInv p c)
    (hOk : flushAddr p (counted fn) addr now c (n, k) = .ok r) :
    Booked p (.flushAddr addr now) c k r.2.1 r.2.2.2 := by
  unfold flushAddr at hOk
  cases hFind : findBlk p (c.sets (p.set addr)) (p.tag addr) with
  | none =>
    rw [hFind] at hOk
    cases hOk
    have hZero : dirtyFlushed p c.blk (.flushAddr addr now) = 0 := by
      refine Finset.sum_eq_zero fun v hv => ?_
      have hNot : ¬ (c.sets (p.set addr)).Holds (p.tag addr) v :=
        (h.sets _).findBlk_eq_none.mp hFind v (Finset.mem_range.mp hv)
      have hFalse : ((c.blk (p.set addr) v).isDirty && (c.blk (p.set addr) v).tag == p.tag addr) =
          false := by
        rw [Bool.eq_false_iff]
        intro hIs
        rw [Bool.and_eq_true, Blk.isDirty, Bool.and_eq_true, beq_iff_eq] at hIs
        exact hNot ⟨hIs.2, hIs.1.1⟩
      rw [hFalse]
      rfl
    exact ⟨rfl, rfl, 0, 0, Nat.le_refl 0, rfl, rfl, by rw [hZero]; rfl⟩
  | some w =>
    have hw : Resident p c addr w := h.findBlk_eq_some.mp hFind
    rw [hFind] at hOk
    obtain ⟨x, hInvalidate, hOk⟩ := bind_eq_ok.mp hOk
    cases hOk
    obtain ⟨hKept, hCalls⟩ := (invalidate_kept (c := { c with lastTagset := 0, lastBlk := none })
      (p.set_lt addr) hw.1 hw.2.1).of_ok hInvalidate
    -- the way list is reordered, the blocks stay
    have hBlks : (x.2.1.modifySet (p.set addr) fun st => st.toTail w).blk = x.2.1.blk := by
      funext j v
      unfold State.blk State.modifySet
      by_cases hj : j = p.set addr
      · subst hj
        simp [CacheSet.toTail]
      · simp only [Function.update_of_ne hj]
    have hValids : (x.2.1.modifySet (p.set addr) fun st => st.toTail w).valids p = x.2.1.valids p :=
      congrArg (census p.nsets p.assoc Blk.valid) hBlks
    refine ⟨?_, ?_, 0, 0, Nat.le_refl 0, hKept.writebacks, hKept.replacements, ?_⟩
    · have hHits : x.2.1.hits = c.hits := hKept.hits
      have hMisses : x.2.1.misses = c.misses := hKept.misses
      change x.2.1.hits + x.2.1.misses = c.hits + c.misses + 0
      omega
    · have hSum : x.2.1.invalidations + x.2.1.valids p = c.invalidations + c.valids p := hKept.valids
      have hMisses : x.2.1.misses = c.misses := hKept.misses
      have hReplacements : x.2.1.replacements = c.replacements := hKept.replacements
      change x.2.1.misses + _ = c.misses + ((x.2.1.modifySet (p.set addr) fun st =>
        st.toTail w).valids p + x.2.1.replacements + x.2.1.invalidations)
      rw [hValids]
      omega
    · rw [dirtyFlushed_addr h hw]
      exact hCalls

variable {op : Op}

/-- **One call.** -/
theorem step_booked (h : CacheInv p c) (hLegal : op.Legal p) {r : Out × State × σ × Nat}
    (hOk : step p (counted fn) op (c, (n, k)) = .ok r) : Booked p op c k r.2.1 r.2.2.2 := by
  cases op with
  | access cmd addr buf nbytes now rnd =>
    obtain ⟨x, hAccess, hOk⟩ := bind_eq_ok.mp hOk
    cases hOk
    exact access_booked h hLegal hAccess
  | flush now =>
    obtain ⟨x, hFlush, hOk⟩ := bind_eq_ok.mp hOk
    cases hOk
    exact flush_booked h hFlush
  | flushAddr addr now =>
    obtain ⟨x, hFlush, hOk⟩ := bind_eq_ok.mp hOk
    cases hOk
    exact flushAddr_booked h hFlush

/-! ### Every run -/

namespace Linked

variable {g : Geometry} {h : g.Addressable} {lc lc' : LinkedState}

def blk (lc : LinkedState) (i w : Nat) : Blk := (lc.sets i).blks w

/-- The number of valid blocks. -/
def valids (g : Geometry) (lc : LinkedState) : Nat := census g.nsets g.assoc Blk.valid (blk lc)

/-- The number of dirty blocks that a call invalidates. -/
def dirtyFlushed (g : Geometry) (lc : LinkedState) : Op → Nat
  | .access .. => 0
  | .flush _ => census g.nsets g.assoc Blk.isDirty (blk lc)
  | .flushAddr addr _ =>
    match g.tag addr, g.set addr with
    | .ok tag, .ok set => ∑ w ∈ Finset.range g.assoc,
        ((blk lc set.toNat w).isDirty && (blk lc set.toNat w).tag == tag).toNat
    | _, _ => 0

/-- The number of dirty blocks that the flushes of a run invalidate. -/
def dirtyFlushes (g : Geometry) (fn : BlkAccess σ) : List Op → LinkedState × σ → Nat
  | [], _ => 0
  | op :: ops, x => dirtyFlushed g x.1 op +
      match step g fn op x with
      | .ok r => dirtyFlushes g fn ops r.2
      | .error _ => 0

theorem blk_eq (hRep : lc.Represents c) : blk lc = c.blk := by
  obtain ⟨sets, rfl, hSets⟩ := hRep
  funext i w
  exact congrFun (hSets i).blks w

theorem dirtyFlushed_eq (hRep : lc.Represents c) (op : Op) :
    dirtyFlushed g lc op = Cache.dirtyFlushed (g.params h) c.blk op := by
  have hBlk := blk_eq hRep
  cases op with
  | access => rfl
  | flush now =>
    rw [dirtyFlushed, hBlk]
    rfl
  | flushAddr addr now =>
    have hLt : (g.params h).set addr < 2 ^ 32 := by
      have hSet : (g.params h).set addr < g.nsets := (g.params h).set_lt addr
      have hInt := g.nsets_int
      omega
    rw [dirtyFlushed, Geometry.tag_eq h, Geometry.set_eq h, hBlk]
    dsimp only
    rw [BitVec.toNat_ofNat, Nat.mod_eq_of_lt hLt]
    rfl

/-- The books of a cache after some accesses, flushes of dirty blocks and calls. -/
structure Balanced (g : Geometry) (lc : LinkedState) (accesses flushed calls : Nat) : Prop where
  total : lc.hits + lc.misses = accesses
  filled : lc.misses = valids g lc + lc.replacements + lc.invalidations
  writebacks : lc.writebacks ≤ lc.replacements
  calls : calls = lc.writebacks + flushed

theorem Balanced.step {accesses flushed calls calls' : Nat} (hRep : lc.Represents c)
    (hRep' : lc'.Represents c') (hBook : Booked (g.params h) op c calls c' calls')
    (hBal : Balanced g lc accesses flushed calls) :
    Balanced g lc' (accesses + op.isAccess.toNat) (flushed + dirtyFlushed g lc op) calls' := by
  have hValids : valids g lc = c.valids (g.params h) := by
    rw [valids, blk_eq hRep]
    rfl
  have hValids' : valids g lc' = c'.valids (g.params h) := by
    rw [valids, blk_eq hRep']
    rfl
  rw [dirtyFlushed_eq (h := h) hRep]
  obtain ⟨hTotal, hFilled, writes, replaced, hLe, hWritebacks, hReplacements, hCalls⟩ := hBook
  obtain ⟨sets, rfl, -⟩ := hRep
  obtain ⟨sets', rfl, -⟩ := hRep'
  dsimp only [LinkedState.withSets] at hTotal hFilled hWritebacks hReplacements
  have hOld := hBal.filled
  have hOldWritebacks := hBal.writebacks
  refine ⟨?_, ?_, ?_, ?_⟩
  · rw [hTotal, hBal.total]
  · rw [hValids']
    rw [hValids] at hOld
    dsimp only [LinkedState.withSets] at hOld ⊢
    omega
  · omega
  · rw [hCalls, hBal.calls, hWritebacks]
    omega

theorem create_balanced (g : Geometry) : Balanced g (create g) 0 0 0 := by
  have hNone : valids g (create g) = 0 := census_eq_zero fun i w _ _ => createSet_invalid g w
  exact ⟨rfl, by rw [hNone]; rfl, Nat.le_refl 0, rfl⟩

variable {ops : List Op} {n : σ}

theorem runOps_balanced {calls accesses flushed : Nat}
    (hRep : lc.Represents c) (hInv : CacheInv (g.params h) c) (hOps : ∀ op ∈ ops, OffZero g op)
    (hBal : Balanced g lc accesses flushed calls) :
    Meets (runOps g (counted fn) ops (lc, (n, calls)))
      (fun r => Balanced g r.2.1 (accesses + ops.countP Op.isAccess)
        (flushed + dirtyFlushes g (counted fn) ops (lc, (n, calls))) r.2.2.2)
      (fun _ => True) := by
  induction ops generalizing lc c n calls accesses flushed with
  | nil => exact hBal
  | cons op ops ih =>
    have hOff : op.OffZero (g.params h) := (hOps op (by simp)).params
    have hAgree := @step_agrees g h lc _ (n, calls) (counted fn) c hRep hInv op
    rw [runOps, dirtyFlushes]
    cases hStep : Linked.step g (counted fn) op (lc, (n, calls)) with
    | error e => trivial
    | ok r =>
      obtain ⟨o, lc', n', calls'⟩ := r
      obtain ⟨⟨_, c', _⟩, hOk, rfl, hRep', rfl⟩ := hAgree.of_ok hStep
      have hLegal := hOff.legal hOk
      have hInv' := ((step_meets hInv hLegal).of_ok hOk).inv hInv hLegal
      have hNext := hBal.step hRep hRep' (step_booked hInv hLegal hOk)
      refine (ih (n := n') hRep' hInv' (fun op' hop => hOps op' (by simp [hop])) hNext).bind
        fun x hx => ?_
      rw [List.countP_cons, Nat.add_comm (List.countP _ ops), ← Nat.add_assoc, ← Nat.add_assoc]
      have hIf : (if op.isAccess = true then 1 else 0) = op.isAccess.toNat := by
        cases op.isAccess <;> rfl
      rw [hIf]
      exact hx

/-- In a cache that is not addressable, there is nothing to count. -/
theorem runOps_unaddressable_balanced (hNot : ¬ g.Addressable) :
    Meets (runOps g (counted fn) ops (create g, (n, 0)))
      (fun r => Balanced g r.2.1 (ops.countP Op.isAccess)
        (dirtyFlushes g (counted fn) ops (create g, (n, 0))) r.2.2.2)
      (fun _ => True) := by
  induction ops with
  | nil => exact create_balanced g
  | cons op ops ih =>
    cases op with
    | access cmd addr buf nbytes now rnd =>
      have hUndef : access g (counted fn) cmd addr buf nbytes now rnd (create g) (n, 0) =
          .error (.stop .undefined) := dif_neg hNot
      rw [runOps, Linked.step, hUndef]
      trivial
    | flush now =>
      have hStep : Linked.step g (counted fn) (.flush now) (create g, (n, 0)) =
          .ok (⟨none, [], 0⟩, create g, (n, 0)) := by
        rw [Linked.step, flush_create]
        rfl
      have hZero : dirtyFlushed g (create g) (.flush now) = 0 := by
        refine census_eq_zero fun i w _ _ => ?_
        have hInvalid : (blk (create g) i w).valid = false := createSet_invalid g w
        rw [Blk.isDirty, hInvalid]
        rfl
      rw [runOps, dirtyFlushes, hStep, hZero, Nat.zero_add]
      exact ih.bind fun r hr => hr
    | flushAddr addr now =>
      have hUndef : flushAddr g (counted fn) addr now (create g) (n, 0) =
          .error (.stop .undefined) := dif_neg hNot
      rw [runOps, Linked.step, hUndef]
      trivial

end Linked

end SimpleScalar.Cache

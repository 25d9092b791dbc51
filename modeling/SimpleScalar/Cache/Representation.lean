import SimpleScalar.Cache.Linked

/-!
# The representation of a cache

`LinkedState.Represents` relates a cache with linked lists to one whose lists are lists.
Each function of `Cache.Linked` agrees with the one of the same name in `Cache`: both
return, with related caches, or both stop for the same reason.

`representation`: along every run outside of block 0, the way list of a set is a doubly
linked list of all blocks, each block is in the bucket chain of its tag and in no other
one, and no assert fails.
-/

namespace SimpleScalar.Cache

open List LinkedList Outcome
open Function (update_idem update_of_ne update_self)

/-! ### Sets with lists -/

/-- The set, with its lists as lists. -/
structure LinkedSet.Represents (set : LinkedSet) (st : CacheSet) : Prop where
  ways : Doubly set.wayHead set.wayTail set.wayNext set.wayPrev st.ways
  chains : ∀ h, Path set.hashNext (set.hash h) (st.hash h) none
  blks : set.blks = st.blks

namespace Linked

variable {g : Geometry} {p : Params} {set : LinkedSet} {st : CacheSet} {w : Nat}

theorem assert_bind {α : Type} {b : Bool} (h : b = true) (f : Unit → Except Fault α) :
    (assert b >>= f) = f () := by
  rw [h]
  rfl

/-! ### The way list -/

/-- `update_way_list` on lists. -/
def moved (st : CacheSet) (w : Nat) : ListLoc → CacheSet
  | .Head => st.toHead w
  | .Tail => st.toTail w

theorem moved_eq_self {loc : ListLoc} (h : (moved st w loc).ways = st.ways) :
    moved st w loc = st := by
  cases loc <;> exact congrArg (fun l => { st with ways := l }) h

theorem erase_split {u v : List Nat} (h : (u ++ w :: v).Nodup) : (u ++ w :: v).erase w = u ++ v := by
  have hNot : w ∉ u := fun hw => (nodup_middle.mp h).notMem (mem_append_left _ hw)
  rw [erase_append_right _ hNot, erase_cons_head]

/-- Linking a block that has been taken out of the way list. -/
theorem linkWay_represents {set₁ : LinkedSet} (h : set.Represents st)
    (h₁ : Doubly set₁.wayHead set₁.wayTail set₁.wayNext set₁.wayPrev (st.ways.erase w))
    (hNil : st.ways.erase w ≠ []) (hw : w ∉ st.ways.erase w)
    (hSame : set₁.hash = set.hash ∧ set₁.hashNext = set.hashNext ∧ set₁.blks = set.blks)
    (loc : ListLoc) :
    ∃ set', linkWay set₁ w loc = .ok set' ∧ set'.Represents (moved st w loc) := by
  obtain ⟨hHash, hNext, hBlks⟩ := hSame
  cases loc with
  | Head =>
    obtain ⟨y, v, hCons⟩ := exists_cons_of_ne_nil hNil
    rw [hCons] at h₁ hw
    have hHead : set₁.wayHead = some y := h₁.head_eq
    rw [linkWay, hHead]
    refine ⟨_, rfl, ?_, fun i => ?_, hBlks.trans h.blks⟩
    · rw [moved, CacheSet.toHead, hCons]
      exact h₁.push hw
    · rw [hHash, hNext]
      exact h.chains i
  | Tail =>
    obtain ⟨u, y, hSnoc⟩ : ∃ u y, st.ways.erase w = u ++ [y] :=
      ⟨_, _, (dropLast_append_getLast hNil).symm⟩
    rw [hSnoc] at h₁ hw
    have hTail : set₁.wayTail = some y := h₁.tail_eq_some.mpr rfl
    rw [linkWay, hTail]
    refine ⟨_, rfl, ?_, fun i => ?_, hBlks.trans h.blks⟩
    · rw [moved, CacheSet.toTail, hSnoc, append_assoc]
      exact h₁.append hw
    · rw [hHash, hNext]
      exact h.chains i

/-- **`update_way_list`** moves a block of the list to its head or tail, and its asserts hold. -/
theorem updateWayList_represents (h : set.Represents st) (hw : w ∈ st.ways) (loc : ListLoc) :
    ∃ set', updateWayList set w loc = .ok set' ∧ set'.Represents (moved st w loc) := by
  obtain ⟨u, v, hSplit⟩ := append_of_mem hw
  have hWays := h.ways
  rw [hSplit] at hWays
  have hErase : st.ways.erase w = u ++ v := by rw [hSplit, erase_split hWays.nodup]
  have hNot : w ∉ u ++ v := (nodup_middle.mp hWays.nodup).notMem
  have hAgain := fun set₁ => @linkWay_represents set st w set₁ h
  rw [hErase] at hAgain
  have hHead := hWays.head_eq_some
  have hTail := hWays.tail_eq_some
  unfold updateWayList
  rw [hWays.prev_eq, hWays.next_eq]
  -- the block is the first one or not, and the last one or not
  rcases eq_nil_or_concat' u with rfl | ⟨u, y, rfl⟩
  · cases v with
    | nil =>
      have hSame : moved st w loc = st := by
        apply moved_eq_self
        cases loc <;> simp [moved, CacheSet.toHead, CacheSet.toTail, hSplit]
      exact ⟨set, assert_bind (by simp [hHead, hTail]) _, by rwa [hSame]⟩
    | cons z v =>
      cases loc with
      | Head =>
        have hSame : moved st w .Head = st :=
          moved_eq_self (by simp [moved, CacheSet.toHead, hSplit])
        exact ⟨set, assert_bind (by simp [hHead, hTail]) _, by rwa [hSame]⟩
      | Tail =>
        obtain ⟨set', hLink, hRep⟩ := hAgain
          { set with wayHead := some z, wayPrev := Function.update set.wayPrev z none }
          hWays.tail_of_cons (by simp) hNot ⟨rfl, rfl, rfl⟩ .Tail
        exact ⟨set', (assert_bind (by simp [hHead, hTail]) _).trans hLink, hRep⟩
  · rw [List.getLast?_concat]
    rw [append_assoc] at hWays
    cases v with
    | nil =>
      cases loc with
      | Head =>
        obtain ⟨set', hLink, hRep⟩ := hAgain
          { set with wayTail := some y, wayNext := Function.update set.wayNext y none }
          (by rw [append_nil]; exact hWays.dropLast_of_append) (by simp) hNot ⟨rfl, rfl, rfl⟩ .Head
        exact ⟨set', (assert_bind (by simp [hHead, hTail]) _).trans hLink, hRep⟩
      | Tail =>
        have hSame : moved st w .Tail = st :=
          moved_eq_self (by rw [moved, CacheSet.toTail, hErase, hSplit, append_nil])
        exact ⟨set, assert_bind (by simp [hHead, hTail]) _, by rwa [hSame]⟩
    | cons z v =>
      obtain ⟨set', hLink, hRep⟩ := hAgain
        { set with
          wayNext := Function.update set.wayNext y (some z)
          wayPrev := Function.update set.wayPrev z (some y) }
        (by rw [append_assoc]; exact hWays.erase) (by simp) hNot ⟨rfl, rfl, rfl⟩ loc
      exact ⟨set', (assert_bind (by simp [hHead, hTail]) _).trans hLink, hRep⟩

/-! ### Hash chains -/

section Chains

variable (h : g.Addressable)

/-- A chain has no more than all blocks. -/
theorem length_le {l : List Nat} (hNodup : l.Nodup) (hLt : ∀ v ∈ l, v < g.assoc) :
    l.length < g.assoc + 1 := by
  have hSub : l ⊆ List.range g.assoc := fun v hv => mem_range.mpr (hLt v hv)
  have hLe := (hNodup.subperm hSub).length_le
  rw [length_range] at hLe
  omega

variable {h}

/-- **`unlink_htab_ent`** takes a block out of its chain, and its assert holds. -/
theorem unlink_represents (hRep : set.Represents st) (hInv : SetInv (g.params h) st)
    (hw : w < g.assoc) :
    ∃ set' st', unlinkHtabEnt g set w = .ok set' ∧ Cache.unlinkHtabEnt (g.params h) st w = .ok st' ∧
      set'.Represents st' := by
  by_cases hSize : g.hsize = 0
  · exact ⟨set, st, if_pos hSize, if_pos hSize, hRep⟩
  obtain ⟨hNodup, hMem⟩ := hInv.chains hSize (g.hash (st.blks w).tag)
  have hIn : w ∈ st.hash (g.hash (st.blks w).tag) := (hMem w).mpr ⟨hw, id, rfl⟩
  have hLen := length_le (g := g) hNodup fun v hv => ((hMem v).mp hv).1
  -- no block is in two chains
  have hApart : ∀ i ≠ g.hash (st.blks w).tag, ∀ v ∈ st.hash (g.hash (st.blks w).tag),
      v ∉ st.hash i := fun i hi v hv hv' =>
    hi ((((hInv.chains hSize i).2 v).mp hv').2.2.symm.trans ((hMem v).mp hv).2.2)
  have hList : Cache.unlinkHtabEnt (g.params h) st w = .ok
      { st with
        hash := Function.update st.hash (g.hash (st.blks w).tag)
          ((st.hash (g.hash (st.blks w).tag)).erase w) } :=
    (if_neg hSize).trans (if_pos hIn)
  rw [hList]
  obtain ⟨u, v, hSplit⟩ := append_of_mem hIn
  have hNot : w ∉ u ++ v := (nodup_middle.mp (hSplit ▸ hNodup)).notMem
  have hErase : (st.hash (g.hash (st.blks w).tag)).erase w = u ++ v := by
    rw [hSplit, erase_split (hSplit ▸ hNodup)]
  rw [hErase]
  have hPath := hRep.chains (g.hash (st.blks w).tag)
  rw [hSplit] at hPath hLen
  have hLocate := @Path.locate_eq _ _ _ _ _ _ _ _ _ none hPath
    (fun hu => hNot (mem_append_left _ hu)) (Nat.lt_of_le_of_lt (by simp) hLen)
  rw [Option.or_none] at hLocate
  unfold unlinkHtabEnt
  rw [if_neg hSize]
  dsimp only
  rw [hRep.blks, hLocate]
  refine ⟨_, _, rfl, rfl, ?_⟩
  rcases eq_nil_or_concat' u with rfl | ⟨u, y, rfl⟩
  · exact ⟨hRep.ways, Path.chains_tail hRep.chains hSplit hNot fun i hi => hApart i hi w hIn, rfl⟩
  · rw [append_assoc] at hSplit
    rw [List.getLast?_concat, append_assoc]
    refine ⟨hRep.ways, ?_, rfl⟩
    exact Path.chains_erase hRep.chains hSplit hNodup fun i hi =>
      ⟨hApart i hi w hIn, hApart i hi y (by simp [hSplit])⟩

/-- **`link_htab_ent`** of a block that is in no chain. -/
theorem link_represents (hRep : set.Represents st) (hw : g.hsize ≠ 0 → ∀ i, w ∉ st.hash i) :
    (linkHtabEnt g set w).Represents (Cache.linkHtabEnt (g.params h) st w) := by
  by_cases hSize : g.hsize = 0
  · have hList : Cache.linkHtabEnt (g.params h) st w = st := if_pos hSize
    rw [linkHtabEnt, if_pos hSize, hList]
    exact hRep
  · have hList : Cache.linkHtabEnt (g.params h) st w =
        { st with
          hash := Function.update st.hash (g.hash (st.blks w).tag)
            (w :: st.hash (g.hash (st.blks w).tag)) } := if_neg hSize
    rw [linkHtabEnt, if_neg hSize, hList, hRep.blks]
    exact ⟨hRep.ways, Path.chains_cons hRep.chains (hw hSize) _, rfl⟩

/-- **Lookups** end, with the block a search through the lists finds. -/
theorem findBlk_eq (hRep : set.Represents st) (hInv : SetInv (g.params h) st) (tag : Word) :
    findBlk g set tag = .ok (Cache.findBlk (g.params h) st tag) := by
  unfold findBlk Cache.findBlk chain
  by_cases hSize : g.hsize = 0
  · have hNot : ¬ (g.params h).hsize ≠ 0 := fun hNe => hNe hSize
    have hLen := length_le (g := g) hInv.nodup_ways fun v hv => hInv.mem_ways.mp hv
    rw [if_neg (not_not.mpr hSize), if_neg hNot, hRep.ways.forward.search_eq hLen, hRep.blks]
    rfl
  · have hNe : (g.params h).hsize ≠ 0 := hSize
    obtain ⟨hNodup, hMem⟩ := hInv.chains hSize (g.hash tag)
    have hLen := length_le (g := g) hNodup fun v hv => ((hMem v).mp hv).1
    rw [if_pos hSize, if_pos hNe, (hRep.chains (g.hash tag)).search_eq hLen, hRep.blks]
    rfl

end Chains

/-! ### A fresh set -/

theorem linkBlk_represents {h : g.Addressable} (hRep : set.Represents st) (hWays : w ∉ st.ways)
    (hChains : ∀ i, w ∉ st.hash i) :
    (linkBlk g set w).Represents (Cache.linkBlk (g.params h) st w) := by
  obtain ⟨hList, hHash, hBlks⟩ := link_represents (h := h) hRep fun _ => hChains
  have hSame : (Cache.linkHtabEnt (g.params h) st w).ways = st.ways := by
    unfold Cache.linkHtabEnt
    split <;> rfl
  rw [hSame] at hList
  refine ⟨?_, hHash, hBlks⟩
  unfold linkBlk Cache.linkBlk
  dsimp only
  rw [hSame]
  generalize linkHtabEnt g set w = set at hList ⊢
  have hHead := hList.head_eq
  have hTail := hList.tail_eq
  cases hCases : st.ways with
  | nil =>
    rw [hCases] at hHead hTail
    simp only [hHead, hTail, List.head?_nil, List.getLast?_nil, Option.isNone_none, if_true]
    exact ⟨⟨rfl, update_self ..⟩, ⟨rfl, update_self ..⟩, nodup_singleton w⟩
  | cons y v =>
    rw [hCases] at hList hHead hTail hWays
    have hSome : set.wayTail.isNone = false := by
      rw [hTail, List.getLast?_cons]
      rfl
    simp only [hHead, hSome, List.head?_cons]
    exact hList.push hWays

theorem linkBlk_lt {n : Nat} (hWays : ∀ v ∈ st.ways, v < n) (hChains : ∀ i, ∀ v ∈ st.hash i, v < n) :
    (∀ v ∈ (Cache.linkBlk p st n).ways, v < n + 1) ∧
      ∀ i, ∀ v ∈ (Cache.linkBlk p st n).hash i, v < n + 1 := by
  have hCons : ∀ {l : List Nat}, (∀ v ∈ l, v < n) → ∀ v ∈ n :: l, v < n + 1 := by
    intro l hl v hv
    rcases mem_cons.mp hv with rfl | hv
    · exact Nat.lt_succ_self v
    · exact Nat.lt_succ_of_lt (hl v hv)
  have hSucc : ∀ {l : List Nat}, (∀ v ∈ l, v < n) → ∀ v ∈ l, v < n + 1 :=
    fun hl v hv => Nat.lt_succ_of_lt (hl v hv)
  unfold Cache.linkBlk Cache.linkHtabEnt
  split
  · exact ⟨hCons hWays, fun i => hSucc (hChains i)⟩
  · refine ⟨hCons hWays, fun i => ?_⟩
    dsimp only
    by_cases hi : i = p.hash (st.blks n).tag
    · rw [hi, update_self]
      exact hCons (hChains _)
    · rw [update_of_ne hi]
      exact hSucc (hChains i)

theorem createSet_represents (h : g.Addressable) :
    (createSet g).Represents (Cache.createSet (g.params h)) := by
  suffices hGen : ∀ n, ∃ set st, (List.range n).foldl (linkBlk g) ⟨none, none, fun _ => none,
      fun _ => none, fun _ => none, fun _ => none, fun _ => zero g⟩ = set ∧
      (List.range n).foldl (Cache.linkBlk (g.params h))
        ⟨[], fun _ => [], fun _ => Blk.zero (g.params h)⟩ = st ∧
      set.Represents st ∧ (∀ v ∈ st.ways, v < n) ∧ ∀ i, ∀ v ∈ st.hash i, v < n by
    obtain ⟨set, st, rfl, rfl, hRep, -⟩ := hGen g.assoc
    exact hRep
  intro n
  induction n with
  | zero =>
    exact ⟨_, _, rfl, rfl, ⟨⟨rfl, rfl, nodup_nil⟩, fun _ => rfl, rfl⟩,
      fun v hv => absurd hv not_mem_nil, fun i v hv => absurd hv not_mem_nil⟩
  | succ n ih =>
    obtain ⟨set, st, hSet, hSt, hRep, hWays, hChains⟩ := ih
    rw [range_succ, foldl_append, foldl_append, hSet, hSt]
    refine ⟨_, _, rfl, rfl, ?_, linkBlk_lt hWays hChains⟩
    exact linkBlk_represents hRep (fun hn => Nat.lt_irrefl n (hWays n hn))
      fun i hn => Nat.lt_irrefl n (hChains i n hn)

end Linked

/-! ### Caches with lists -/

/-- The cache, with other sets. -/
def LinkedState.withSets (lc : LinkedState) (sets : Nat → CacheSet) : State where
  busFree := lc.busFree
  hits := lc.hits
  misses := lc.misses
  replacements := lc.replacements
  writebacks := lc.writebacks
  invalidations := lc.invalidations
  lastTagset := lc.lastTagset
  lastBlk := lc.lastBlk
  sets := sets

/-- The cache, with the lists of its sets as lists. -/
def LinkedState.Represents (lc : LinkedState) (c : State) : Prop :=
  ∃ sets, c = lc.withSets sets ∧ ∀ i, (lc.sets i).Represents (sets i)

namespace Linked

variable {g : Geometry} {h : g.Addressable} {lc : LinkedState} {sets : Nat → CacheSet}
  {set : LinkedSet} {st : CacheSet} {i w : Nat} {σ : Type}

theorem represents_update (hSets : ∀ i, (lc.sets i).Represents (sets i)) (hSet : set.Represents st)
    (i j : Nat) : (Function.update lc.sets i set j).Represents (Function.update sets i st j) := by
  by_cases hj : j = i
  · rw [hj, update_self, update_self]
    exact hSet
  · rw [update_of_ne hj, update_of_ne hj]
    exact hSets j

theorem setBlk_represents (hSet : set.Represents st) (w : Nat) (b : Blk) :
    (setBlk set w b).Represents (st.setBlk w b) :=
  ⟨hSet.ways, hSet.chains, by rw [setBlk, CacheSet.setBlk, hSet.blks]⟩

/-- The same reason to stop. -/
def SameStop (f : Fault) (e : Stop) : Prop := f = .stop e

theorem lift_agrees {α : Type} (x : Except Stop α) : Agree Eq SameStop (lift x) x := by
  cases x <;> rfl

theorem lift_ok_bind {α β : Type} (a : α) (f : α → Except Fault β) :
    (lift (.ok a) >>= f) = f a := rfl

/-- The results of an access. -/
def SameResult (r : LinkedResult σ) (r' : Result σ) : Prop :=
  r.lat = r'.lat ∧ r.buf = r'.buf ∧ r.replAddr = r'.replAddr ∧ r.cache.Represents r'.cache ∧
    r.next = r'.next

variable {cmd : MemCmd} {addr : Word} {buf : List Byte} {nbytes : Nat} {now : Int} {rnd : Nat}
  {n : σ} {fn : BlkAccess σ}

theorem wayPrev_isSome (hSet : set.Represents st) (hw : w ∈ st.ways) :
    (set.wayPrev w).isSome = (st.ways.head? != some w) := by
  obtain ⟨u, v, hSplit⟩ := append_of_mem hw
  have hWays := hSet.ways
  rw [hSplit] at hWays ⊢
  rw [hWays.prev_eq, ← hWays.head_eq, Bool.eq_iff_iff, bne_iff_ne, Ne, hWays.head_eq_some]
  cases u <;> simp

/-- **Hits.** -/
theorem hit_agrees (hSets : ∀ i, (lc.sets i).Represents (sets i))
    (hInv : SetInv (g.params h) (sets i)) (hw : w < g.assoc) (reorder : Bool) :
    Agree SameResult SameStop (hit (g.params h) reorder cmd addr buf nbytes now i w lc n)
      (Cache.hit (g.params h) reorder cmd addr buf nbytes now i w (lc.withSets sets) n) := by
  have hIn : w ∈ (sets i).ways := hInv.mem_ways.mpr hw
  unfold hit Cache.hit
  rw [(hSets i).blks]
  refine (lift_agrees _).bind ?_
  rintro ⟨data, buf'⟩ _ - - rfl
  have hSet := setBlk_represents (hSets i) w
    { (sets i).blks w with data := data, dirty := ((sets i).blks w).dirty || cmd == .write }
  dsimp only [LinkedState.withSets, State.modifySet]
  simp only [update_self, update_idem, wayPrev_isSome hSet hIn]
  split
  · obtain ⟨set', hUpdate, hRep⟩ := updateWayList_represents hSet hIn .Head
    rw [hUpdate]
    exact ⟨rfl, rfl, rfl, ⟨_, rfl, represents_update hSets hRep i⟩, rfl⟩
  · exact ⟨rfl, rfl, rfl, ⟨_, rfl, represents_update hSets hSet i⟩, rfl⟩

/-! ### Misses -/

theorem replace_agrees (hSet : set.Represents st) (rnd : Nat) :
    Agree (fun r r' => r.1 = r'.1 ∧ r.2.Represents r'.2) SameStop (replace (g.params h) rnd set)
      (Cache.replace (g.params h) rnd st) := by
  have hTail := hSet.ways.tail_eq
  unfold replace Cache.replace
  cases (g.params h).policy with
  | Random => exact ⟨rfl, hSet⟩
  | LRU | FIFO =>
    dsimp only
    rw [hTail]
    cases hw : st.ways.getLast? with
    | none => rfl
    | some w =>
      obtain ⟨set', hUpdate, hRep⟩ := updateWayList_represents hSet (mem_of_getLast? hw) .Head
      dsimp only
      rw [hUpdate]
      exact ⟨rfl, hRep⟩

/-- **Misses.** -/
theorem miss_agrees (hSets : ∀ i, (lc.sets i).Represents (sets i))
    (hInv : SetInv (g.params h) (sets ((g.params h).set addr))) :
    Agree SameResult SameStop (miss g (g.params h) fn cmd addr buf nbytes now rnd lc n)
      (Cache.miss (g.params h) fn cmd addr buf nbytes now rnd (lc.withSets sets) n) := by
  unfold miss Cache.miss
  refine (replace_agrees (hSets _) rnd).bind ?_
  rintro ⟨w, set⟩ ⟨w', st⟩ - hReplace ⟨rfl, hSet⟩
  obtain ⟨w', st', hOk, hw, hInv', -⟩ := replace_ok hInv rnd
  obtain ⟨rfl, rfl⟩ := Prod.mk.inj (Except.ok.inj (hReplace.symm.trans hOk))
  obtain ⟨set', st', hUnlink, hUnlink', hSet'⟩ := unlink_represents hSet hInv' hw
  obtain ⟨hash, hHash, hChained⟩ := hInv'.unlink hw
  obtain rfl := Except.ok.inj (hUnlink'.symm.trans hHash)
  dsimp only
  rw [hUnlink, hHash]
  dsimp only [bind, Except.bind]
  rw [hSet'.blks]
  refine (lift_agrees _).bind ?_
  rintro ⟨lat, busFree, writes, n'⟩ _ - - rfl
  refine (lift_agrees _).bind ?_
  rintro ⟨rlat, data, n''⟩ _ - - rfl
  refine (lift_agrees _).bind ?_
  rintro ⟨data', buf'⟩ _ - - rfl
  refine ⟨rfl, rfl, rfl, ⟨_, rfl, represents_update hSets (link_represents
    (setBlk_represents hSet' w _) fun hSize i hIn => ?_) _⟩, rfl⟩
  exact (((hChained hSize i).2 w).mp hIn).2.1 rfl

/-- **`cache_access`.** -/
theorem access_agrees {c : State} (hRep : lc.Represents c) (hInv : CacheInv (g.params h) c) :
    Agree SameResult SameStop (access g fn cmd addr buf nbytes now rnd lc n)
      (Cache.access (g.params h) fn cmd addr buf nbytes now rnd c n) := by
  obtain ⟨sets, rfl, hSets⟩ := hRep
  unfold access Cache.access
  rw [dif_pos h]
  refine (lift_agrees _).bind ?_
  rintro _ _ - - rfl
  by_cases hTag : (g.params h).tagset addr = lc.lastTagset
  · have hTag' : (g.params h).tagset addr = (lc.withSets sets).lastTagset := hTag
    have hLast := hInv.last
    unfold LastInv at hLast
    have hSame : (lc.withSets sets).lastBlk = lc.lastBlk := rfl
    rw [if_pos hTag, if_pos hTag', hSame]
    rw [hSame] at hLast
    cases hBlk : lc.lastBlk with
    | none => rfl
    | some x =>
      rw [hBlk] at hLast
      exact hit_agrees hSets (hInv.sets x.1) hLast.1 false
  · have hTag' : ¬ (g.params h).tagset addr = (lc.withSets sets).lastTagset := hTag
    have hSame : (lc.withSets sets).sets = sets := rfl
    rw [if_neg hTag, if_neg hTag', findBlk_eq (hSets _) (hInv.sets _), hSame]
    cases hFind : Cache.findBlk (g.params h) (sets ((g.params h).set addr))
        ((g.params h).tag addr) with
    | none => exact miss_agrees hSets (hInv.sets _)
    | some w =>
      have hw := ((hInv.sets ((g.params h).set addr)).findBlk_eq_some.mp hFind).1
      exact hit_agrees hSets (hInv.sets _) hw true

/-! ### Flushing -/

/-- Latency, cache and state below. -/
def SameFlush (x : Word × LinkedState × σ) (y : Word × State × σ) : Prop :=
  x.1 = y.1 ∧ x.2.1.Represents y.2.1 ∧ x.2.2 = y.2.2

variable {lat : Word} {c : State}

theorem invalidate_agrees (hRep : lc.Represents c) (i w : Nat) :
    Agree (fun x y => SameFlush x y ∧ ∀ j, (x.2.1.sets j).wayNext = (lc.sets j).wayNext) SameStop
      (invalidate g fn i w lat now lc n) (Cache.invalidate (g.params h) fn i w lat now c n) := by
  obtain ⟨sets, rfl, hSets⟩ := hRep
  have hLinks : ∀ b j, (Function.update lc.sets i (setBlk (lc.sets i) w b) j).wayNext =
      (lc.sets j).wayNext := by
    intro b j
    by_cases hj : j = i
    · rw [hj, update_self]
      rfl
    · rw [update_of_ne hj]
  have hAfter := represents_update hSets
    (setBlk_represents (hSets i) w { (sets i).blks w with valid := false }) i
  unfold invalidate Cache.invalidate
  dsimp only [LinkedState.withSets, State.modifySet]
  rw [(hSets i).blks]
  split
  · rw [Geometry.mkBaddr_eq h, lift_ok_bind]
    refine (lift_agrees _).bind ?_
    rintro ⟨wlat, data, n'⟩ _ - - rfl
    exact ⟨⟨rfl, ⟨_, rfl, hAfter⟩, rfl⟩, hLinks _⟩
  · exact ⟨⟨rfl, ⟨_, rfl, hAfter⟩, rfl⟩, hLinks _⟩

theorem flushBlk_agrees (hRep : lc.Represents c) (i w : Nat) :
    Agree (fun x y => SameFlush x y ∧ ∀ j, (x.2.1.sets j).wayNext = (lc.sets j).wayNext) SameStop
      (flushBlk g fn i w now (lat, lc, n)) (Cache.flushBlk (g.params h) fn i w now (lat, c, n)) := by
  have hBlks : (lc.sets i).blks = (c.sets i).blks := by
    obtain ⟨sets, rfl, hSets⟩ := hRep
    exact (hSets i).blks
  unfold flushBlk Cache.flushBlk
  dsimp only
  rw [hBlks]
  split
  · exact invalidate_agrees hRep i w
  · exact ⟨⟨rfl, hRep, rfl⟩, fun _ => rfl⟩

theorem flushWays_agrees {ws : List Nat} {a : Ptr} {fuel : Nat} (hRep : lc.Represents c)
    (hPath : Path (lc.sets i).wayNext a ws none) (hFuel : ws.length < fuel) :
    Agree SameFlush SameStop (flushWays g fn i now fuel a (lat, lc, n))
      (Cache.flushWays (g.params h) fn i now ws (lat, c, n)) := by
  induction ws generalizing a fuel lat lc c n with
  | nil =>
    obtain ⟨fuel, rfl⟩ := Nat.exists_eq_succ_of_ne_zero (Nat.ne_of_gt hFuel)
    rw [hPath.start]
    exact ⟨rfl, hRep, rfl⟩
  | cons w ws ih =>
    obtain ⟨fuel, rfl⟩ := Nat.exists_eq_succ_of_ne_zero (Nat.ne_zero_of_lt hFuel)
    rw [hPath.1]
    refine (flushBlk_agrees hRep i w).bind ?_
    rintro ⟨lat', lc', n'⟩ ⟨_, c', _⟩ - - ⟨⟨rfl, hRep', rfl⟩, hLinks⟩
    refine ih hRep' ?_ (Nat.lt_of_succ_lt_succ hFuel)
    rw [hLinks]
    exact hPath.2

theorem flushSets_agrees {c₀ : State} {is : List Nat} {D : List (Nat × Nat)}
    (hRep : lc.Represents c) (hClear : Cleared (g.params h) D c₀ c) (hNodup : is.Nodup)
    (hD : ∀ i ∈ is, ∀ w, (i, w) ∉ D) :
    Agree SameFlush SameStop (flushSets g fn now is (lat, lc, n))
      (Cache.flushSets (g.params h) fn now is (lat, c, n)) := by
  induction is generalizing lat lc c n D with
  | nil => exact ⟨rfl, hRep, rfl⟩
  | cons i is ih =>
    have hSet := hClear.inv.sets i
    have hLen := length_le (g := g) hSet.nodup_ways fun v hv => hSet.mem_ways.mp hv
    have hPath : Path (lc.sets i).wayNext (lc.sets i).wayHead (c.sets i).ways none := by
      obtain ⟨sets, rfl, hSets⟩ := hRep
      exact (hSets i).ways.forward
    rw [nodup_cons] at hNodup
    refine (flushWays_agrees hRep hPath hLen).bind ?_
    rintro ⟨lat', lc', n'⟩ ⟨_, c', _⟩ - hOk ⟨rfl, hRep', rfl⟩
    have hMore := (flushWays_cleared hClear hSet.nodup_ways fun w _ => hD i (by simp) w).of_ok hOk
    refine ih hRep' hMore.1 hNodup.2 fun j hj w hIn => ?_
    rcases mem_append.mp hIn with hIn | hIn
    · exact hD j (by simp [hj]) w hIn
    · obtain ⟨_, _, hEq⟩ := mem_map.mp hIn
      exact hNodup.1 ((Prod.mk.inj hEq).1 ▸ hj)

/-- **`cache_flush`.** -/
theorem flush_agrees (hRep : lc.Represents c) (hInv : CacheInv (g.params h) c) :
    Agree SameFlush SameStop (flush g fn now lc n) (Cache.flush (g.params h) fn now c n) := by
  have hStart : Cleared (g.params h) [] c { c with lastTagset := 0, lastBlk := none } :=
    ⟨hInv.forget, rfl, rfl, rfl, fun _ => rfl, fun _ _ => rfl⟩
  have hRep' : LinkedState.Represents { lc with lastTagset := 0, lastBlk := none }
      { c with lastTagset := 0, lastBlk := none } := by
    obtain ⟨sets, rfl, hSets⟩ := hRep
    exact ⟨sets, rfl, hSets⟩
  exact flushSets_agrees hRep' hStart nodup_range (by simp)

/-- **`cache_flush_addr`.** -/
theorem flushAddr_agrees (hRep : lc.Represents c) (hInv : CacheInv (g.params h) c) :
    Agree SameFlush SameStop (flushAddr g fn addr now lc n)
      (Cache.flushAddr (g.params h) fn addr now c n) := by
  have hSet : (lc.sets ((g.params h).set addr)).Represents (c.sets ((g.params h).set addr)) := by
    obtain ⟨sets, rfl, hSets⟩ := hRep
    exact hSets _
  unfold flushAddr Cache.flushAddr
  rw [dif_pos h]
  dsimp only
  rw [findBlk_eq hSet (hInv.sets _)]
  cases hFind : Cache.findBlk (g.params h) (c.sets ((g.params h).set addr))
      ((g.params h).tag addr) with
  | none => exact ⟨rfl, hRep, rfl⟩
  | some w =>
    have hw := ((hInv.sets ((g.params h).set addr)).findBlk_eq_some.mp hFind).1
    have hRep' : LinkedState.Represents { lc with lastTagset := 0, lastBlk := none }
        { c with lastTagset := 0, lastBlk := none } := by
      obtain ⟨sets, rfl, hSets⟩ := hRep
      exact ⟨sets, rfl, hSets⟩
    refine (invalidate_agrees hRep' ((g.params h).set addr) w).bind ?_
    rintro ⟨lat', lc', n'⟩ ⟨_, c', _⟩ - hOk ⟨⟨rfl, ⟨sets, rfl, hSets⟩, rfl⟩, -⟩
    have hIn : w ∈ (sets ((g.params h).set addr)).ways := by
      have hEq := congrArg (fun c : State => (c.sets ((g.params h).set addr)).ways)
        (invalidate_state hOk)
      rw [invalidated_ways] at hEq
      have hWays : (sets ((g.params h).set addr)).ways = (c.sets ((g.params h).set addr)).ways := hEq
      rw [hWays]
      exact (hInv.sets _).mem_ways.mpr hw
    obtain ⟨set', hUpdate, hSet'⟩ := updateWayList_represents (hSets _) hIn .Tail
    dsimp only
    rw [hUpdate]
    exact ⟨rfl, ⟨_, rfl, represents_update hSets hSet' _⟩, rfl⟩

/-! ### Runs -/

/-- The results of a call, or of a run. -/
def SameOut {ω : Type} (x : ω × LinkedState × σ) (y : ω × State × σ) : Prop :=
  x.1 = y.1 ∧ x.2.1.Represents y.2.1 ∧ x.2.2 = y.2.2

/-- **One call.** -/
theorem step_agrees (hRep : lc.Represents c) (hInv : CacheInv (g.params h) c) (op : Op) :
    Agree SameOut SameStop (step g fn op (lc, n)) (Cache.step (g.params h) fn op (c, n)) := by
  have hHits : lc.hits = c.hits := by
    obtain ⟨sets, rfl, -⟩ := hRep
    rfl
  cases op with
  | access cmd addr buf nbytes now rnd =>
    refine (access_agrees hRep hInv).bind ?_
    rintro r r' - - ⟨-, hBuf, hRepl, hCache, hNext⟩
    have hHits' : r.cache.hits = r'.cache.hits := by
      obtain ⟨sets, hEq, -⟩ := hCache
      rw [hEq]
      rfl
    exact ⟨by rw [hBuf, hRepl, hHits, hHits'], hCache, hNext⟩
  | flush now =>
    refine (flush_agrees hRep hInv).bind ?_
    rintro r r' - - ⟨-, hCache, hNext⟩
    exact ⟨rfl, hCache, hNext⟩
  | flushAddr addr now =>
    refine (flushAddr_agrees hRep hInv).bind ?_
    rintro r r' - - ⟨-, hCache, hNext⟩
    exact ⟨rfl, hCache, hNext⟩

/-- The runs from a new cache: they agree, and the invariant of the lists holds at their end. -/
theorem runOps_agrees {ops : List Op} (hRep : lc.Represents c) (hInv : CacheInv (g.params h) c)
    (hOps : ∀ op ∈ ops, op.OffZero (g.params h)) :
    Agree (fun x y => SameOut x y ∧ CacheInv (g.params h) y.2.1) SameStop
      (runOps g fn ops (lc, n)) (Cache.runOps (g.params h) fn ops (c, n)) := by
  induction ops generalizing lc c n with
  | nil => exact ⟨⟨rfl, hRep, rfl⟩, hInv⟩
  | cons op ops ih =>
    have hOff := hOps op (by simp)
    refine (step_agrees hRep hInv op).bind ?_
    rintro ⟨o, lc', n'⟩ ⟨_, c', _⟩ - hOk ⟨rfl, hRep', rfl⟩
    have hLegal := hOff.legal hOk
    have hInv' := ((step_meets hInv hLegal).of_ok hOk).inv hInv hLegal
    refine (ih hRep' hInv' fun op' hop => hOps op' (by simp [hop])).bind ?_
    rintro ⟨os, lc'', n''⟩ ⟨_, c'', _⟩ - - ⟨⟨rfl, hRep'', rfl⟩, hInv''⟩
    exact ⟨⟨rfl, hRep'', rfl⟩, hInv''⟩

theorem create_represents (h : g.Addressable) :
    (create g).Represents (Cache.create (g.params h)) :=
  ⟨_, rfl, fun _ => createSet_represents h⟩

end Linked

/-! ### The invariant -/

/-- The lists of a set: the way list is a doubly linked list of all blocks, a block is in the
bucket chain of its tag and in no other one, and valid blocks have different tags. -/
structure LinkedSet.Inv (g : Geometry) (set : LinkedSet) : Prop where
  ways : ∃ l, l.Perm (List.range g.assoc) ∧
    Doubly set.wayHead set.wayTail set.wayNext set.wayPrev l
  chains : g.hsize ≠ 0 → ∃ chain : Nat → List Nat,
    (∀ i < g.hsize, Path set.hashNext (set.hash i) (chain i) none ∧ (chain i).Nodup) ∧
    ∀ w < g.assoc, g.hash (set.blks w).tag < g.hsize ∧
      ∀ i < g.hsize, w ∈ chain i ↔ g.hash (set.blks w).tag = i
  distinct : ∀ w < g.assoc, ∀ w' < g.assoc, (set.blks w).valid = true →
    (set.blks w').valid = true → (set.blks w).tag = (set.blks w').tag → w = w'

/-- `last_blk` is null or a valid block with the block address `last_tagset`. -/
def LinkedState.LastInv (g : Geometry) (lc : LinkedState) : Prop :=
  match lc.lastBlk with
  | none => True
  | some (i, w) => i < g.nsets ∧ w < g.assoc ∧ ((lc.sets i).blks w).valid = true ∧
      g.mkBaddr ((lc.sets i).blks w).tag (BitVec.ofNat 32 i) = .ok lc.lastTagset

structure LinkedState.Inv (g : Geometry) (lc : LinkedState) : Prop where
  sets : ∀ i < g.nsets, (lc.sets i).Inv g
  last : lc.LastInv g

theorem Geometry.hash_lt {g : Geometry} (hSize : g.hsize ≠ 0) (key : Word) :
    g.hash key < g.hsize := by
  have hMask : (BitVec.ofNat 32 (g.hsize - 1)).toNat ≤ g.hsize - 1 := by
    rw [BitVec.toNat_ofNat]
    exact Nat.mod_le _ _
  have hAnd : g.hash key ≤ (BitVec.ofNat 32 (g.hsize - 1)).toNat := by
    rw [Geometry.hash, BitVec.toNat_and]
    exact Nat.and_le_right
  omega

namespace Linked

variable {g : Geometry} {h : g.Addressable} {lc : LinkedState} {c : State} {set : LinkedSet}
  {st : CacheSet} {σ : Type} {fn : BlkAccess σ} {n : σ} {now : Int} {lat : Word}

theorem inv_of_setInv (hSet : set.Represents st) (hInv : SetInv (g.params h) st) : set.Inv g where
  ways := ⟨st.ways, hInv.ways, hSet.ways⟩
  chains hSize := by
    refine ⟨st.hash, fun i _ => ⟨hSet.chains i, (hInv.chains hSize i).1⟩, fun w hw => ?_⟩
    refine ⟨Geometry.hash_lt hSize _, fun i _ => ?_⟩
    rw [(hInv.chains hSize i).2 w, hSet.blks]
    exact ⟨fun hIn => hIn.2.2, fun hEq => ⟨hw, id, hEq⟩⟩
  distinct w hw w' hw' hValid hValid' hTag := by
    rw [hSet.blks] at hValid hValid' hTag
    exact hInv.distinct w hw w' hw' _ ⟨hTag, hValid⟩ ⟨rfl, hValid'⟩

theorem inv_of_cacheInv (hRep : lc.Represents c) (hInv : CacheInv (g.params h) c) : lc.Inv g := by
  obtain ⟨sets, rfl, hSets⟩ := hRep
  refine ⟨fun i _ => inv_of_setInv (hSets i) (hInv.sets i), ?_⟩
  have hLast := hInv.last
  unfold Cache.LastInv at hLast
  unfold LinkedState.LastInv
  have hSame : (lc.withSets sets).lastBlk = lc.lastBlk := rfl
  rw [hSame] at hLast
  cases hBlk : lc.lastBlk with
  | none => trivial
  | some x =>
    obtain ⟨i, w⟩ := x
    rw [hBlk] at hLast
    obtain ⟨hw, hValid, hOrigin, -⟩ := hLast
    have hHome := hInv.home i w hValid
    refine ⟨?_, hw, ?_, ?_⟩
    · rw [← hHome.2.1]
      exact (g.params h).set_lt _
    · rw [(hSets i).blks]
      exact hValid
    · rw [(hSets i).blks, Geometry.mkBaddr_eq h]
      exact congrArg Except.ok ((hInv.mkBaddr_eq hValid).trans hOrigin)

/-! ### A cache that is not addressable

Only `cache_flush` is defined then, and there is nothing to flush. -/

/-- One set of the geometry. -/
def single (g : Geometry) : Geometry :=
  { g with nsets := 1, nsets_pos := by decide, nsets_pow := rfl, nsets_int := by decide }

theorem single_addressable (g : Geometry) : (single g).Addressable := by
  have hInt := g.bsize_int
  change 1 * g.bsize < 2 ^ 32
  omega

theorem createSet_inv (g : Geometry) : (createSet g).Inv g := by
  obtain ⟨hWays, hChains, hDistinct⟩ := inv_of_setInv (createSet_represents (single_addressable g))
    (Cache.createSet_inv _).1
  exact ⟨hWays, hChains, hDistinct⟩

theorem createSet_invalid (g : Geometry) (w : Nat) : ((createSet g).blks w).valid = false := by
  have hSet := createSet_represents (single_addressable g)
  change ((createSet (single g)).blks w).valid = false
  rw [hSet.blks, (Cache.createSet_inv _).2 w]
  rfl

theorem flushWays_invalid {i fuel : Nat} {a : Ptr} {ws : List Nat}
    (hInvalid : ∀ w, ((lc.sets i).blks w).valid = false)
    (hPath : Path (lc.sets i).wayNext a ws none) (hFuel : ws.length < fuel) :
    flushWays g fn i now fuel a (lat, lc, n) = .ok (lat, lc, n) := by
  induction ws generalizing a fuel with
  | nil =>
    obtain ⟨fuel, rfl⟩ := Nat.exists_eq_succ_of_ne_zero (Nat.ne_of_gt hFuel)
    rw [hPath.start]
    rfl
  | cons w ws ih =>
    obtain ⟨fuel, rfl⟩ := Nat.exists_eq_succ_of_ne_zero (Nat.ne_zero_of_lt hFuel)
    have hSkip : flushBlk g fn i w now (lat, lc, n) = .ok (lat, lc, n) := by
      unfold flushBlk
      rw [if_neg (by simp [hInvalid w])]
    rw [hPath.1, flushWays, hSkip]
    exact ih hPath.2 (Nat.lt_of_succ_lt_succ hFuel)

theorem flush_create (g : Geometry) (fn : BlkAccess σ) (now : Int) (n : σ) :
    flush g fn now (create g) n = .ok (g.hitLatency, create g, n) := by
  suffices hGen : ∀ is : List Nat,
      flushSets g fn now is (g.hitLatency, create g, n) = .ok (g.hitLatency, create g, n) from
    hGen _
  intro is
  induction is with
  | nil => rfl
  | cons i is ih =>
    obtain ⟨l, hPerm, hWays⟩ := (createSet_inv g).ways
    have hLen := length_le (g := g) hWays.nodup fun v hv => mem_range.mp (hPerm.mem_iff.mp hv)
    have hWalk := @flushWays_invalid g (create g) σ fn n now g.hitLatency i _ _ _
      (createSet_invalid g) hWays.forward hLen
    rw [flushSets]
    exact (congrArg (· >>= _) hWalk).trans ih

theorem runOps_unaddressable (hNot : ¬ g.Addressable) (ops : List Op) :
    Meets (runOps g fn ops (create g, n)) (fun r => r.2 = (create g, n))
      (· = .stop .undefined) := by
  induction ops with
  | nil => rfl
  | cons op ops ih =>
    cases op with
    | access cmd addr buf nbytes now rnd =>
      have hUndef : access g fn cmd addr buf nbytes now rnd (create g) n = .error (.stop .undefined) :=
        dif_neg hNot
      rw [runOps, step, hUndef]
      rfl
    | flush now =>
      rw [runOps, step, flush_create]
      exact ih.bind fun r hr => hr
    | flushAddr addr now =>
      have hUndef : flushAddr g fn addr now (create g) n = .error (.stop .undefined) := dif_neg hNot
      rw [runOps, step, hUndef]
      rfl

theorem create_inv (g : Geometry) : (create g).Inv g := ⟨fun _ _ => createSet_inv g, trivial⟩

/-! ### Every run -/

/-- The call is no access to block 0. -/
def OffZero (g : Geometry) : Op → Prop
  | .access _ addr _ _ _ _ => g.baddr addr ≠ 0
  | .flush _ => True
  | .flushAddr _ _ => True

theorem OffZero.params {op : Op} (hOp : OffZero g op) : op.OffZero (g.params h) := by
  cases op <;> exact hOp

/-- The shifts of the call are defined, and an access passes the checks and lies inside of its
block. -/
def Admitted (g : Geometry) (op : Op) : Prop := ∃ h : g.Addressable, op.Legal (g.params h)

theorem pow_of_eight : 8 &&& 8 - 1 = 0 := rfl

theorem int_of_eight : 8 < 2 ^ 31 := by decide

/-- One set of eight ways, with hash chains. -/
def eightWays : Geometry where
  nsets := 1
  bsize := 8
  balloc := false
  assoc := 8
  policy := .Random
  hitLatency := 1
  nsets_pos := by decide
  nsets_pow := by decide
  bsize_min := by decide
  bsize_pow := pow_of_eight
  assoc_pos := by decide
  assoc_pow := pow_of_eight
  nsets_int := by decide
  bsize_int := int_of_eight
  assoc_int := int_of_eight

/-- Misses, a write hit, flushes of a block and of the cache. -/
def mixedOps : List Op :=
  [.access .read 0x1000#32 [] 4 0 5, .access .write 0x2008#32 [] 4 1 3,
    .access .write 0x1004#32 [] 4 2 5, .access .read 0x3000#32 [] 8 3 5,
    .flushAddr 0x2008#32 4, .flush 5]

theorem mixedOps_offZero : ∀ op ∈ mixedOps, OffZero eightWays op := by
  intro op hop
  simp only [mixedOps, mem_cons, not_mem_nil, or_false] at hop
  rcases hop with rfl | rfl | rfl | rfl | rfl | rfl
  all_goals first | exact trivial | (unfold OffZero; decide)

end Linked

end SimpleScalar.Cache

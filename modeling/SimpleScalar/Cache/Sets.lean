import SimpleScalar.Cache.Address
import SimpleScalar.Lib.Recency
import SimpleScalar.Lib.Outcome

/-!
# The lists of a set

In every set the way list is a permutation of the blocks, a block is in the bucket
chain of its tag and in no other one, and valid blocks have different tags (`SetInv`).
A lookup then finds the valid block of a tag, whichever list it walks through.
-/

namespace SimpleScalar.Cache

variable {p : Params} {st : CacheSet} {w : Nat} {tag : Word}

/-- A valid block with the tag. -/
def CacheSet.Holds (st : CacheSet) (tag : Word) (w : Nat) : Prop :=
  (st.blks w).tag = tag ∧ (st.blks w).valid = true

/-- The blocks outside of `skip` are in the bucket chains of their tags. -/
def Chained (p : Params) (st : CacheSet) (skip : Nat → Prop) : Prop :=
  p.hsize ≠ 0 → ∀ h, (st.hash h).Nodup ∧
    ∀ w, w ∈ st.hash h ↔ w < p.assoc ∧ ¬ skip w ∧ p.hash (st.blks w).tag = h

structure SetInv (p : Params) (st : CacheSet) : Prop where
  ways : st.ways.Perm (List.range p.assoc)
  chains : Chained p st fun _ => False
  distinct : ∀ w < p.assoc, ∀ w' < p.assoc, ∀ tag, st.Holds tag w → st.Holds tag w' → w = w'

namespace SetInv

theorem mem_ways (h : SetInv p st) : w ∈ st.ways ↔ w < p.assoc := by
  rw [h.ways.mem_iff, List.mem_range]

theorem nodup_ways (h : SetInv p st) : st.ways.Nodup := h.ways.nodup_iff.mpr List.nodup_range

theorem length_ways (h : SetInv p st) : st.ways.length = p.assoc := by
  rw [h.ways.length_eq, List.length_range]

theorem mem_chain (h : SetInv p st) (hw : w < p.assoc) (hTag : (st.blks w).tag = tag) :
    w ∈ chain p st tag := by
  unfold chain
  split
  · rename_i hSize
    exact ((h.chains hSize _).2 w).mpr ⟨hw, id, by rw [hTag]⟩
  · exact h.mem_ways.mpr hw

theorem lt_of_mem_chain (h : SetInv p st) (hw : w ∈ chain p st tag) : w < p.assoc := by
  unfold chain at hw
  split at hw
  · rename_i hSize
    exact (((h.chains hSize _).2 w).mp hw).1
  · exact h.mem_ways.mp hw

/-- **A lookup finds the valid block of the tag.** -/
theorem findBlk_eq_some (h : SetInv p st) :
    findBlk p st tag = some w ↔ w < p.assoc ∧ st.Holds tag w := by
  constructor
  · intro hFind
    have hIs := List.find?_some hFind
    simp only [Bool.and_eq_true, beq_iff_eq] at hIs
    exact ⟨h.lt_of_mem_chain (List.mem_of_find?_eq_some hFind), hIs⟩
  · rintro ⟨hw, hHolds⟩
    cases hFind : findBlk p st tag with
    | none =>
      have hNone := List.find?_eq_none.mp hFind w (h.mem_chain hw hHolds.1)
      exact absurd (by simp [hHolds.1, hHolds.2]) hNone
    | some v =>
      have hIs := List.find?_some hFind
      simp only [Bool.and_eq_true, beq_iff_eq] at hIs
      have hv := h.lt_of_mem_chain (List.mem_of_find?_eq_some hFind)
      rw [h.distinct v hv w hw tag hIs hHolds]

theorem findBlk_eq_none (h : SetInv p st) :
    findBlk p st tag = none ↔ ∀ w < p.assoc, ¬ st.Holds tag w := by
  constructor
  · intro hFind w hw hHolds
    rw [h.findBlk_eq_some.mpr ⟨hw, hHolds⟩] at hFind
    cases hFind
  · intro hNone
    cases hFind : findBlk p st tag with
    | none => rfl
    | some w =>
      obtain ⟨hw, hHolds⟩ := h.findBlk_eq_some.mp hFind
      exact absurd hHolds (hNone w hw)

/-! ### Changes -/

/-- A block whose tag stays, and which becomes valid by no change. -/
theorem setBlk (h : SetInv p st) {b : Blk} (hTag : b.tag = (st.blks w).tag)
    (hValid : b.valid = true → (st.blks w).valid = true) : SetInv p (st.setBlk w b) := by
  have hTags : ∀ v, ((st.setBlk w b).blks v).tag = (st.blks v).tag := by
    intro v
    by_cases hv : v = w
    · rw [hv, st.setBlk_self, hTag]
    · rw [st.setBlk_of_ne b hv]
  have hHolds : ∀ {v tag}, (st.setBlk w b).Holds tag v → st.Holds tag v := by
    intro v tag hv
    refine ⟨(hTags v).symm.trans hv.1, ?_⟩
    have hIs := hv.2
    by_cases hEq : v = w
    · rw [hEq, st.setBlk_self] at hIs
      rw [hEq]
      exact hValid hIs
    · rwa [st.setBlk_of_ne b hEq] at hIs
  refine ⟨h.ways, fun hSize i => ?_, fun v hv v' hv' tag ht ht' =>
    h.distinct v hv v' hv' tag (hHolds ht) (hHolds ht')⟩
  obtain ⟨hNodup, hMem⟩ := h.chains hSize i
  refine ⟨hNodup, fun v => ?_⟩
  rw [hTags v]
  exact hMem v

theorem toHead (h : SetInv p st) (hw : w < p.assoc) : SetInv p (st.toHead w) :=
  ⟨(List.perm_cons_erase (h.mem_ways.mpr hw)).symm.trans h.ways, h.chains, h.distinct⟩

theorem toTail (h : SetInv p st) (hw : w < p.assoc) : SetInv p (st.toTail w) := by
  refine ⟨?_, h.chains, h.distinct⟩
  have hPerm := (List.perm_cons_erase (h.mem_ways.mpr hw)).symm.trans h.ways
  exact List.perm_append_comm.trans hPerm

/-- Unlinking succeeds, and leaves the block in no chain. -/
theorem unlink (h : SetInv p st) (hw : w < p.assoc) :
    ∃ hash, unlinkHtabEnt p st w = .ok { st with hash := hash } ∧
      Chained p { st with hash := hash } (· = w) := by
  unfold unlinkHtabEnt
  by_cases hSize : p.hsize = 0
  · rw [if_pos hSize]
    exact ⟨st.hash, rfl, fun hNe => absurd hSize hNe⟩
  · rw [if_neg hSize]
    obtain ⟨hNodup, hMem⟩ := h.chains hSize (p.hash (st.blks w).tag)
    rw [if_pos ((hMem w).mpr ⟨hw, id, rfl⟩)]
    refine ⟨_, rfl, fun _ i => ?_⟩
    by_cases hi : i = p.hash (st.blks w).tag
    · subst hi
      simp only [Function.update_self]
      refine ⟨hNodup.erase w, fun v => ?_⟩
      rw [hNodup.mem_erase_iff, hMem v]
      tauto
    · simp only [Function.update_of_ne hi]
      obtain ⟨hNodup', hMem'⟩ := h.chains hSize i
      refine ⟨hNodup', fun v => ?_⟩
      rw [hMem' v]
      constructor
      · rintro ⟨hv, _, hTag⟩
        exact ⟨hv, fun hEq => hi (by rw [← hTag, hEq]), hTag⟩
      · rintro ⟨hv, _, hTag⟩
        exact ⟨hv, id, hTag⟩

end SetInv

/-- Linking a block that is in no chain. -/
theorem Chained.link {hash : Nat → List Nat} (h : Chained p { st with hash := hash } (· = w))
    (hw : w < p.assoc) (b : Blk) :
    Chained p (linkHtabEnt p (CacheSet.setBlk { st with hash := hash } w b) w) fun _ => False := by
  intro hSize i
  rw [linkHtabEnt, if_neg hSize]
  simp only [CacheSet.setBlk, Function.update_self]
  by_cases hi : i = p.hash b.tag
  · subst hi
    simp only [Function.update_self]
    obtain ⟨hNodup, hMem⟩ := h hSize (p.hash b.tag)
    have hNot : w ∉ hash (p.hash b.tag) := fun hIn => ((hMem w).mp hIn).2.1 rfl
    refine ⟨List.nodup_cons.mpr ⟨hNot, hNodup⟩, fun v => ?_⟩
    rw [List.mem_cons, hMem v]
    by_cases hv : v = w
    · simp [hv, hw]
    · simp [hv]
  · simp only [Function.update_of_ne hi]
    obtain ⟨hNodup, hMem⟩ := h hSize i
    refine ⟨hNodup, fun v => ?_⟩
    rw [hMem v]
    by_cases hv : v = w
    · simp [hv, Ne.symm hi]
    · simp [hv]

/-! ### A fresh set -/

theorem createSet_inv (p : Params) : SetInv p (createSet p) ∧
    ∀ w, (createSet p).blks w = Blk.zero p := by
  suffices h : ∀ n, ∀ st, (List.range n).foldl (linkBlk p)
      ⟨[], fun _ => [], fun _ => Blk.zero p⟩ = st →
      st.ways = (List.range n).reverse ∧ (∀ w, st.blks w = Blk.zero p) ∧
      (p.hsize ≠ 0 → ∀ h, st.hash h = if h = p.hash 0 then (List.range n).reverse else []) by
    obtain ⟨hWays, hBlks, hHash⟩ := h p.assoc _ rfl
    refine ⟨⟨?_, ?_, ?_⟩, hBlks⟩
    · rw [createSet, hWays]
      exact List.reverse_perm _
    · intro hSize i
      rw [createSet, hHash hSize i]
      split
      · rename_i hi
        refine ⟨List.nodup_reverse.mpr List.nodup_range, fun w => ?_⟩
        rw [hBlks w]
        simp [hi, Blk.zero]
      · rename_i hi
        refine ⟨List.nodup_nil, fun w => ?_⟩
        rw [hBlks w]
        exact ⟨fun hIn => absurd hIn List.not_mem_nil, fun hEq => absurd hEq.2.2.symm hi⟩
    · intro w _ _ _ tag hHolds
      have hValid := hHolds.2
      rw [createSet, hBlks w] at hValid
      cases hValid
  intro n
  induction n with
  | zero =>
    rintro st rfl
    exact ⟨rfl, fun _ => rfl, fun _ h => by simp⟩
  | succ n ih =>
    rintro st rfl
    obtain ⟨hWays, hBlks, hHash⟩ := ih _ rfl
    rw [List.range_succ, List.foldl_append, List.foldl_cons, List.foldl_nil, List.reverse_append]
    generalize (List.range n).foldl (linkBlk p) ⟨[], fun _ => [], fun _ => Blk.zero p⟩ = st at *
    unfold linkBlk linkHtabEnt
    by_cases hSize : p.hsize = 0
    · simp only [if_pos hSize]
      exact ⟨by rw [hWays]; rfl, hBlks, fun hNe => absurd hSize hNe⟩
    · simp only [if_neg hSize]
      refine ⟨by rw [hWays]; rfl, hBlks, fun _ i => ?_⟩
      have hTag : (st.blks n).tag = 0 := by rw [hBlks n]; rfl
      rw [hTag]
      by_cases hi : i = p.hash 0
      · rw [hi, Function.update_self, hHash hSize, if_pos rfl, if_pos rfl]
        rfl
      · rw [Function.update_of_ne hi, hHash hSize, if_neg hi, if_neg hi]

end SimpleScalar.Cache

import SimpleScalar.Cache.Basic

/-!
# Block addresses

An address is cut into tag, set index and offset.  Tag and set index together are the
block address, which `CACHE_MK_BADDR` puts together again.
-/

namespace SimpleScalar.Cache.Params

variable (p : Params)

theorem eq_two_pow_log2 {n : Nat} (hPos : 0 < n) (h : n &&& (n - 1) = 0) : n = 2 ^ n.log2 := by
  obtain ⟨k, rfl⟩ := (Nat.and_sub_one_eq_zero_iff_isPowerOfTwo hPos.ne').mp h
  rw [Nat.log2_two_pow]

theorem bsize_pos : 0 < p.bsize := lt_of_lt_of_le (by norm_num) p.bsize_min

theorem bsize_eq : p.bsize = 2 ^ p.setShift := eq_two_pow_log2 p.bsize_pos p.bsize_pow

theorem nsets_eq : p.nsets = 2 ^ p.nsets.log2 := eq_two_pow_log2 p.nsets_pos p.nsets_pow

theorem tagShift_lt : p.tagShift < 32 := by
  have h := p.fits
  rw [p.nsets_eq, p.bsize_eq, ← Nat.pow_add, Nat.add_comm] at h
  exact (Nat.pow_lt_pow_iff_right (by norm_num)).mp h

theorem getLsbD_blkMask (j : Nat) : p.blkMask.getLsbD j = (decide (j < 32) && decide (j < p.setShift)) := by
  rw [blkMask, BitVec.getLsbD_ofNat, p.bsize_eq, Nat.testBit_two_pow_sub_one]

theorem getLsbD_setMask (j : Nat) :
    p.setMask.getLsbD j = (decide (j < 32) && decide (j < p.nsets.log2)) := by
  rw [setMask, BitVec.getLsbD_ofNat]
  conv_lhs => rw [p.nsets_eq, Nat.testBit_two_pow_sub_one]

theorem set_lt (addr : Word) : p.set addr < p.nsets := by
  have hMask : p.setMask.toNat ≤ p.nsets - 1 := by
    rw [setMask, BitVec.toNat_ofNat]
    exact Nat.mod_le _ _
  have hAnd : p.set addr ≤ p.setMask.toNat := by
    rw [set, BitVec.toNat_and]
    exact Nat.and_le_right
  have := p.nsets_pos
  omega

theorem blk_lt (addr : Word) : p.blk addr < p.bsize := by
  have hMask : p.blkMask.toNat ≤ p.bsize - 1 := by
    rw [blkMask, BitVec.toNat_ofNat]
    exact Nat.mod_le _ _
  have hAnd : p.blk addr ≤ p.blkMask.toNat := by
    rw [blk, BitVec.toNat_and]
    exact Nat.and_le_right
  have := p.bsize_pos
  omega

/-- The set index as a word. -/
theorem ofNat_set (addr : Word) :
    BitVec.ofNat 32 (p.set addr) = (addr >>> p.setShift) &&& p.setMask := by
  rw [set, BitVec.ofNat_toNat, BitVec.setWidth_eq]

theorem getLsbD_baddr (addr : Word) (j : Nat) :
    (p.baddr addr).getLsbD j = (addr.getLsbD j && decide (p.setShift ≤ j)) := by
  rw [baddr, BitVec.getLsbD_and, BitVec.getLsbD_not, p.getLsbD_blkMask]
  by_cases hj : j < 32
  · by_cases hs : j < p.setShift
    · simp [hj, hs]
    · simp [hj, hs, Nat.le_of_not_lt hs]
  · simp [BitVec.getLsbD_of_ge addr j (by omega)]

/-- A block address is put together from tag and set index. -/
theorem mkBaddr_tag_set (addr : Word) : p.mkBaddr (p.tag addr) (p.set addr) = p.baddr addr := by
  apply BitVec.eq_of_getLsbD_eq
  intro j hj
  rw [p.getLsbD_baddr, mkBaddr, p.ofNat_set, BitVec.getLsbD_or, BitVec.getLsbD_shiftLeft,
    BitVec.getLsbD_shiftLeft, BitVec.getLsbD_and, tag, BitVec.getLsbD_ushiftRight,
    BitVec.getLsbD_ushiftRight, p.getLsbD_setMask]
  have hSum : p.tagShift = p.setShift + p.nsets.log2 := rfl
  by_cases ht : j < p.tagShift
  · by_cases hs : j < p.setShift
    · simp [ht, hs, hj]
    · have hIdx : p.setShift + (j - p.setShift) = j := by omega
      have hIn : j - p.setShift < p.nsets.log2 := by omega
      have hIn' : j - p.setShift < 32 := by omega
      simp [ht, hs, hj, hIdx, hIn, hIn', Nat.le_of_not_lt hs]
  · have hIdx : p.tagShift + (j - p.tagShift) = j := by omega
    have hs : ¬ j < p.setShift := by omega
    have hOut : ¬ j - p.setShift < p.nsets.log2 := by omega
    simp [ht, hs, hj, hIdx, hOut, Nat.le_of_not_lt hs]

/-- Tag and set index are those of the block address. -/
theorem tag_baddr (addr : Word) : p.tag (p.baddr addr) = p.tag addr := by
  apply BitVec.eq_of_getLsbD_eq
  intro j hj
  have hs : p.setShift ≤ p.tagShift + j := by
    have hSum : p.tagShift = p.setShift + p.nsets.log2 := rfl
    omega
  rw [tag, tag, BitVec.getLsbD_ushiftRight, BitVec.getLsbD_ushiftRight, p.getLsbD_baddr]
  simp [hs]

theorem set_baddr (addr : Word) : p.set (p.baddr addr) = p.set addr := by
  have hShift : p.baddr addr >>> p.setShift = addr >>> p.setShift := by
    apply BitVec.eq_of_getLsbD_eq
    intro j hj
    rw [BitVec.getLsbD_ushiftRight, BitVec.getLsbD_ushiftRight, p.getLsbD_baddr]
    simp
  rw [set, set, hShift]

theorem baddr_baddr (addr : Word) : p.baddr (p.baddr addr) = p.baddr addr := by
  rw [baddr, baddr, BitVec.and_assoc, BitVec.and_self]

/-- Addresses are in the same block if tag and set index agree. -/
theorem baddr_eq_iff {a b : Word} : p.baddr a = p.baddr b ↔ p.tag a = p.tag b ∧ p.set a = p.set b := by
  constructor
  · intro h
    rw [← p.tag_baddr a, ← p.tag_baddr b, ← p.set_baddr a, ← p.set_baddr b, h]
    exact ⟨rfl, rfl⟩
  · rintro ⟨ht, hs⟩
    rw [← p.mkBaddr_tag_set a, ← p.mkBaddr_tag_set b, ht, hs]

theorem tagset_eq_baddr (addr : Word) : p.tagset addr = p.baddr addr := rfl

/-- An address is its block address plus its offset. -/
theorem baddr_add_blk (addr : Word) : p.baddr addr + BitVec.ofNat 32 (p.blk addr) = addr := by
  rw [blk, BitVec.ofNat_toNat, BitVec.setWidth_eq, baddr]
  have hOr := BitVec.add_eq_or_of_and_eq_zero (addr &&& ~~~p.blkMask) (addr &&& p.blkMask) (by
    apply BitVec.eq_of_getLsbD_eq
    intro j hj
    simp only [BitVec.getLsbD_and, BitVec.getLsbD_not, BitVec.getLsbD_zero]
    cases addr.getLsbD j <;> cases p.blkMask.getLsbD j <;> simp)
  rw [hOr]
  apply BitVec.eq_of_getLsbD_eq
  intro j hj
  simp only [BitVec.getLsbD_or, BitVec.getLsbD_and, BitVec.getLsbD_not]
  cases addr.getLsbD j <;> cases p.blkMask.getLsbD j <;> simp [hj]

/-- The addresses of a block. -/
theorem baddr_add {a : Word} (ha : p.baddr a = a) {k : Nat} (hk : k < p.bsize) :
    p.baddr (a + BitVec.ofNat 32 k) = a ∧ p.blk (a + BitVec.ofNat 32 k) = k := by
  have hLow : ∀ j < p.setShift, a.getLsbD j = false := by
    intro j hj
    rw [← ha, p.getLsbD_baddr]
    simp [hj]
  have hHigh : ∀ j, p.setShift ≤ j → (BitVec.ofNat 32 k).getLsbD j = false := by
    intro j hj
    have hPow : k < 2 ^ j := lt_of_lt_of_le (p.bsize_eq ▸ hk) (Nat.pow_le_pow_right (by norm_num) hj)
    rw [BitVec.getLsbD_ofNat, Nat.testBit_lt_two_pow hPow, Bool.and_false]
  have hOr : a + BitVec.ofNat 32 k = a ||| BitVec.ofNat 32 k := by
    apply BitVec.add_eq_or_of_and_eq_zero
    apply BitVec.eq_of_getLsbD_eq
    intro j hj
    rw [BitVec.getLsbD_and, BitVec.getLsbD_zero]
    rcases Nat.lt_or_ge j p.setShift with hs | hs
    · rw [hLow j hs, Bool.false_and]
    · rw [hHigh j hs, Bool.and_false]
  have hBase : p.baddr (a + BitVec.ofNat 32 k) = a := by
    apply BitVec.eq_of_getLsbD_eq
    intro j hj
    rw [hOr, p.getLsbD_baddr, BitVec.getLsbD_or]
    rcases Nat.lt_or_ge j p.setShift with hs | hs
    · simp [hLow j hs, hs]
    · simp [hHigh j hs, hs]
  refine ⟨hBase, ?_⟩
  -- the offset is what the block address leaves over
  have hSum := p.baddr_add_blk (a + BitVec.ofNat 32 k)
  rw [hBase] at hSum
  have hEq := (BitVec.add_right_inj a).mp hSum
  have hInt := p.bsize_int
  have hBlk := p.blk_lt (a + BitVec.ofNat 32 k)
  have hNat := congrArg BitVec.toNat hEq
  rwa [BitVec.toNat_ofNat, BitVec.toNat_ofNat, Nat.mod_eq_of_lt (by omega),
    Nat.mod_eq_of_lt (by omega)] at hNat

theorem blk_of_baddr {a : Word} (ha : p.baddr a = a) : p.blk a = 0 := by
  have hBlk := (p.baddr_add ha (lt_of_le_of_lt (Nat.zero_le _) (p.blk_lt a))).2
  rwa [BitVec.add_zero] at hBlk

theorem baddr_mkBaddr (tag : Word) (i : Nat) : p.baddr (p.mkBaddr tag i) = p.mkBaddr tag i := by
  apply BitVec.eq_of_getLsbD_eq
  intro j hj
  rw [p.getLsbD_baddr, mkBaddr, BitVec.getLsbD_or, BitVec.getLsbD_shiftLeft,
    BitVec.getLsbD_shiftLeft]
  rcases Nat.lt_or_ge j p.setShift with hs | hs
  · have hTag : j < p.tagShift := lt_of_lt_of_le hs (Nat.le_add_right _ _)
    simp [hs, hTag]
  · have hLe : p.setShift ≤ j := hs
    simp [hj, hLe]

theorem blk_eq_mod (addr : Word) : p.blk addr = addr.toNat % p.bsize := by
  have hInt := p.bsize_int
  have hPos := p.bsize_pos
  rw [blk, blkMask, BitVec.toNat_and, BitVec.toNat_ofNat, Nat.mod_eq_of_lt (by omega), p.bsize_eq,
    Nat.and_two_pow_sub_one_eq_mod]

/-- Block addresses as numbers. -/
theorem toNat_baddr_add (addr : Word) : (p.baddr addr).toNat + addr.toNat % p.bsize = addr.toNat := by
  have hSum := congrArg BitVec.toNat (p.baddr_add_blk addr)
  have hLe : (p.baddr addr).toNat ≤ addr.toNat := by
    rw [baddr, BitVec.toNat_and]
    exact Nat.and_le_left
  have hBlk := p.blk_lt addr
  have hInt := p.bsize_int
  rw [BitVec.toNat_add, BitVec.toNat_ofNat, p.blk_eq_mod] at hSum
  rw [p.blk_eq_mod] at hBlk
  omega

end SimpleScalar.Cache.Params

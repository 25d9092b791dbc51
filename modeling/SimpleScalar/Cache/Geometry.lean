import SimpleScalar.Cache.Address

/-!
# Geometries

`cache_create` checks sizes and associativity one by one.  A `Geometry` is what passes
these checks.  The address macros are written with the shifts of C, which are undefined
for an amount of the width of an address or more.

* `decomposition_exact`: tag and set index are an exact split of the block address in
  the geometries of less than the address space, and in no others.
* `admission_exact`: the checks of `cache_access` are exact unless exactly one of the
  access and its block ends with the address space, where the sums wrap.
-/

namespace SimpleScalar.Cache

/-- The arguments `cache_create` accepts; the sizes are positive values of `int`. -/
structure Geometry where
  nsets : Nat
  bsize : Nat
  balloc : Bool
  assoc : Nat
  policy : Policy
  hitLatency : Word
  nsets_pos : 0 < nsets
  nsets_pow : nsets &&& (nsets - 1) = 0
  bsize_min : 8 ≤ bsize
  bsize_pow : bsize &&& (bsize - 1) = 0
  assoc_pos : 0 < assoc
  assoc_pow : assoc &&& (assoc - 1) = 0
  nsets_int : nsets < 2 ^ 31
  bsize_int : bsize < 2 ^ 31
  assoc_int : assoc < 2 ^ 31

/-- `a >> k` -/
def shiftRight (a : Word) (k : Nat) : Except Stop Word :=
  if k < 32 then .ok (a >>> k) else .error .undefined

/-- `a << k` -/
def shiftLeft (a : Word) (k : Nat) : Except Stop Word :=
  if k < 32 then .ok (a <<< k) else .error .undefined

namespace Geometry

variable (g : Geometry)

def hsize : Nat := if g.assoc > 4 then g.assoc >>> 2 else 0

def blkMask : Word := BitVec.ofNat 32 (g.bsize - 1)

def setShift : Nat := g.bsize.log2

def setMask : Word := BitVec.ofNat 32 (g.nsets - 1)

def tagShift : Nat := g.setShift + g.nsets.log2

/-- The amounts of the shifts in `cache_create` and in the macros; the last one is that of
`tag_mask`. -/
def shifts : List Int := [g.setShift, g.tagShift, 32 - g.tagShift]

def tagsetMask : Word := ~~~g.blkMask

/-- `CACHE_TAG` -/
def tag (addr : Word) : Except Stop Word := shiftRight addr g.tagShift

/-- `CACHE_SET` -/
def set (addr : Word) : Except Stop Word := do
  let addr ← shiftRight addr g.setShift
  return addr &&& g.setMask

/-- `CACHE_TAGSET` -/
def tagset (addr : Word) : Word := addr &&& g.tagsetMask

/-- `CACHE_BADDR` -/
def baddr (addr : Word) : Word := addr &&& ~~~g.blkMask

/-- `CACHE_MK_BADDR` -/
def mkBaddr (tag set : Word) : Except Stop Word := do
  let tag ← shiftLeft tag g.tagShift
  let set ← shiftLeft set g.setShift
  return tag ||| set

/-- `CACHE_HASH` -/
def hash (key : Word) : Nat :=
  (((key >>> 24) ^^^ (key >>> 16) ^^^ (key >>> 8) ^^^ key) &&& BitVec.ofNat 32 (g.hsize - 1)).toNat

/-- The sets have less than all addresses. -/
abbrev Addressable : Prop := g.nsets * g.bsize < 2 ^ 32

/-- A geometry whose shifts are defined. -/
def params (h : g.Addressable) : Params where
  nsets := g.nsets
  bsize := g.bsize
  balloc := g.balloc
  assoc := g.assoc
  policy := g.policy
  hitLatency := g.hitLatency
  nsets_pos := g.nsets_pos
  nsets_pow := g.nsets_pow
  bsize_min := g.bsize_min
  bsize_pow := g.bsize_pow
  assoc_pos := g.assoc_pos
  assoc_pow := g.assoc_pow
  bsize_int := g.bsize_int
  assoc_int := g.assoc_int
  fits := h

theorem size_eq : g.nsets * g.bsize = 2 ^ g.tagShift := by
  have hSets := Params.eq_two_pow_log2 g.nsets_pos g.nsets_pow
  have hBlock := Params.eq_two_pow_log2 (lt_of_lt_of_le (by norm_num) g.bsize_min) g.bsize_pow
  calc g.nsets * g.bsize = 2 ^ g.nsets.log2 * 2 ^ g.bsize.log2 := by rw [← hSets, ← hBlock]
    _ = 2 ^ g.tagShift := by rw [← Nat.pow_add, Nat.add_comm]; rfl

theorem addressable_iff : g.Addressable ↔ g.tagShift < 32 := by
  unfold Addressable
  rw [g.size_eq, Nat.pow_lt_pow_iff_right (by norm_num)]

variable {g}

theorem setShift_lt (h : g.Addressable) : g.setShift < 32 :=
  lt_of_le_of_lt (Nat.le_add_right _ _) (g.addressable_iff.mp h)

theorem tag_eq (h : g.Addressable) (addr : Word) : g.tag addr = .ok ((g.params h).tag addr) :=
  if_pos (g.addressable_iff.mp h)

theorem set_eq (h : g.Addressable) (addr : Word) :
    g.set addr = .ok (BitVec.ofNat 32 ((g.params h).set addr)) := by
  rw [(g.params h).ofNat_set addr, set, shiftRight, if_pos (setShift_lt h)]
  rfl

theorem mkBaddr_eq (h : g.Addressable) (tag : Word) (set : Nat) :
    g.mkBaddr tag (BitVec.ofNat 32 set) = .ok ((g.params h).mkBaddr tag set) := by
  rw [mkBaddr, shiftLeft, if_pos (g.addressable_iff.mp h), shiftLeft, if_pos (setShift_lt h)]
  rfl

end Geometry

/-- Addresses have the same block address if they are in the same block. -/
theorem Params.baddr_eq_iff_div (p : Params) {a b : Word} :
    p.baddr a = p.baddr b ↔ a.toNat / p.bsize = b.toNat / p.bsize := by
  have hEq : ∀ addr, (p.baddr addr).toNat = p.bsize * (addr.toNat / p.bsize) := by
    intro addr
    have hSum := p.toNat_baddr_add addr
    have hDiv := Nat.div_add_mod addr.toNat p.bsize
    omega
  rw [← BitVec.toNat_inj, hEq, hEq]
  exact Nat.mul_right_inj p.bsize_pos.ne'

/-- Tag and set index of an address are an exact split of its block address. -/
structure Geometry.Exact (g : Geometry) : Prop where
  shifts : ∀ k ∈ g.shifts, 0 ≤ k ∧ k < 32
  rebuild : ∀ addr, ∃ tag set, g.tag addr = .ok tag ∧ g.set addr = .ok set ∧
    set.toNat < g.nsets ∧ g.mkBaddr tag set = .ok (g.baddr addr)
  same_block : ∀ a b, (g.tag a = g.tag b ∧ g.set a = g.set b) ↔
    a.toNat / g.bsize = b.toNat / g.bsize
  same_tagset : ∀ a b, a.toNat / g.bsize = b.toNat / g.bsize ↔ g.tagset a = g.tagset b

/-- **The address decomposition is exact** in the geometries of less than the address space, and
in no others. -/
theorem Geometry.decomposition_exact (g : Geometry) : g.Exact ↔ g.nsets * g.bsize < 2 ^ 32 := by
  constructor
  · intro h
    have hTag := (h.shifts g.tagShift (by simp [Geometry.shifts])).2
    exact g.addressable_iff.mpr (by exact_mod_cast hTag)
  · intro h
    let p := g.params h
    have hLt (addr : Word) : p.set addr < 2 ^ 32 := by
      have hSet : p.set addr < g.nsets := p.set_lt addr
      have hInt := g.nsets_int
      omega
    refine ⟨?_, fun addr => ?_, fun a b => ?_, fun a b => p.baddr_eq_iff_div.symm⟩
    · have hSet := setShift_lt h
      have hTag := g.addressable_iff.mp h
      -- blocks have at least eight bytes, so that the shift of the tag mask is small enough
      have hMin : 0 < g.setShift := by
        refine Nat.pos_of_ne_zero fun hZero => ?_
        have hOne : g.bsize = 2 ^ g.setShift := p.bsize_eq
        have hMin := g.bsize_min
        rw [hZero] at hOne
        omega
      have hSum : g.tagShift = g.setShift + g.nsets.log2 := rfl
      simp only [Geometry.shifts, List.mem_cons, List.not_mem_nil, or_false]
      rintro k (rfl | rfl | rfl) <;> omega
    · refine ⟨_, _, tag_eq h addr, set_eq h addr, ?_, ?_⟩
      · rw [BitVec.toNat_ofNat, Nat.mod_eq_of_lt (hLt addr)]
        exact p.set_lt addr
      · rw [mkBaddr_eq h]
        exact congrArg Except.ok (p.mkBaddr_tag_set addr)
    · rw [tag_eq h, tag_eq h, set_eq h, set_eq h, Except.ok.injEq, Except.ok.injEq,
        ← BitVec.toNat_inj (x := BitVec.ofNat 32 _), BitVec.toNat_ofNat, BitVec.toNat_ofNat,
        Nat.mod_eq_of_lt (hLt a), Nat.mod_eq_of_lt (hLt b), ← p.baddr_eq_iff]
      exact p.baddr_eq_iff_div

theorem pow_of_one : 1 &&& 1 - 1 = 0 := rfl

theorem pow_of_sixteen : 16 &&& 16 - 1 = 0 := rfl

theorem int_of_one : 1 < 2 ^ 31 := by decide

theorem int_of_sixteen : 16 < 2 ^ 31 := by decide

/-- Sixteen blocks of 256 megabytes. -/
def Geometry.wide : Geometry where
  nsets := 16
  bsize := 2 ^ 28
  balloc := false
  assoc := 1
  policy := .LRU
  hitLatency := 1
  nsets_pos := by decide
  nsets_pow := pow_of_sixteen
  bsize_min := by decide
  bsize_pow := by decide
  assoc_pos := Nat.one_pos
  assoc_pow := pow_of_one
  nsets_int := int_of_sixteen
  bsize_int := by decide
  assoc_int := int_of_one

/-- A geometry of the size of the address space: the tag is shifted by the width of an address. -/
theorem Geometry.wide_tagShift : Geometry.wide.tagShift = 32 ∧
    Geometry.wide.tag 0x10000000#32 = .error .undefined ∧ ¬ Geometry.wide.Exact :=
  ⟨by decide, rfl, fun h => absurd (h.shifts 32 (by decide)).2 (by decide)⟩

/-! ### Admission -/

/-- The bytes of an access are in one block. -/
def WithinBlock (p : Params) (addr : Word) (nbytes : Nat) : Prop :=
  ∀ k < nbytes, (addr.toNat + k) / p.bsize = addr.toNat / p.bsize

/-- The end of the block of an address. -/
def blockEnd (p : Params) (addr : Word) : Nat := (addr.toNat / p.bsize + 1) * p.bsize

variable {p : Params} {addr : Word} {nbytes : Nat}

theorem withinBlock_iff (hPos : 0 < nbytes) :
    WithinBlock p addr nbytes ↔ addr.toNat + nbytes ≤ blockEnd p addr := by
  have hBlock := p.bsize_pos
  have hDiv := Nat.div_add_mod addr.toNat p.bsize
  have hMod := Nat.mod_lt addr.toNat hBlock
  have hEnd : blockEnd p addr = p.bsize * (addr.toNat / p.bsize) + p.bsize := by
    rw [blockEnd, Nat.add_mul, Nat.one_mul, Nat.mul_comm]
  constructor
  · intro h
    have hLast := h (nbytes - 1) (by omega)
    have hDiv' := Nat.div_add_mod (addr.toNat + (nbytes - 1)) p.bsize
    have hMod' := Nat.mod_lt (addr.toNat + (nbytes - 1)) hBlock
    rw [hLast] at hDiv'
    omega
  · intro h k hk
    refine Nat.div_eq_of_lt_le ?_ ?_
    · rw [Nat.mul_comm]
      omega
    · change _ < blockEnd p addr
      omega

theorem toNat_blockEnd :
    ((addr &&& ~~~p.blkMask) + BitVec.ofNat 32 p.bsize).toNat = blockEnd p addr % 2 ^ 32 := by
  have hSum := p.toNat_baddr_add addr
  have hDiv := Nat.div_add_mod addr.toNat p.bsize
  have hEnd : blockEnd p addr = (p.baddr addr).toNat + p.bsize := by
    rw [blockEnd, Nat.add_mul, Nat.one_mul, Nat.mul_comm]
    omega
  change (p.baddr addr + BitVec.ofNat 32 p.bsize).toNat = _
  rw [BitVec.toNat_add, BitVec.toNat_ofNat, hEnd, Nat.add_mod_mod]

theorem blockEnd_le : blockEnd p addr ≤ 2 ^ 32 := by
  have hBlock : p.bsize ∣ 2 ^ 32 := by
    rw [p.bsize_eq]
    exact Nat.pow_dvd_pow 2 (lt_of_le_of_lt (Nat.le_add_right _ _) p.tagShift_lt).le
  obtain ⟨m, hm⟩ := hBlock
  have hLt : addr.toNat / p.bsize < m := by
    rw [Nat.div_lt_iff_lt_mul p.bsize_pos, Nat.mul_comm, ← hm]
    exact addr.isLt
  rw [blockEnd, hm, Nat.mul_comm]
  exact Nat.mul_le_mul_left _ hLt

/-- An aligned access ends inside of the address space, or with it. -/
theorem end_le (hPow : nbytes.isPowerOfTwo) (hInt : nbytes < 2 ^ 31) (hDvd : nbytes ∣ addr.toNat) :
    addr.toNat + nbytes ≤ 2 ^ 32 := by
  have hSpace : nbytes ∣ 2 ^ 32 := by
    obtain ⟨k, rfl⟩ := hPow
    have hk : k < 31 := (Nat.pow_lt_pow_iff_right (by norm_num)).mp hInt
    exact Nat.pow_dvd_pow 2 (by omega)
  obtain ⟨m, hm⟩ := hSpace
  obtain ⟨a, ha⟩ := hDvd
  have hLt : a < m := by
    have hAddr := addr.isLt
    rw [ha, hm] at hAddr
    exact lt_of_mul_lt_mul_left hAddr (Nat.zero_le _)
  rw [ha, hm, ← Nat.mul_succ]
  exact Nat.mul_le_mul_left _ hLt

theorem checkAccess_iff (hPos : 0 < nbytes) (hInt : nbytes < 2 ^ 31) :
    checkAccess p addr nbytes = .ok () ↔ (nbytes.isPowerOfTwo ∧ nbytes ∣ addr.toNat) ∧
      (addr.toNat + nbytes) % 2 ^ 32 ≤ blockEnd p addr % 2 ^ 32 := by
  rw [← aligned_iff hPos hInt]
  unfold checkAccess
  split
  · rename_i hBad
    exact ⟨fun h => (by cases h), fun h => absurd hBad h.1⟩
  · rename_i hGood
    have hSum : (addr + BitVec.ofNat 32 nbytes).toNat = (addr.toNat + nbytes) % 2 ^ 32 := by
      rw [BitVec.toNat_add, BitVec.toNat_ofNat, Nat.add_mod_mod]
    rw [← hSum, ← toNat_blockEnd, ← not_lt, ← BitVec.lt_def]
    split
    · rename_i hSpan
      exact ⟨fun h => (by cases h), fun h => absurd hSpan h.2⟩
    · rename_i hFit
      exact ⟨fun _ => ⟨hGood, hFit⟩, fun _ => rfl⟩

/-- **The checks of an access are exact** unless size and alignment are right and exactly one of
the access and its block ends with the address space. -/
theorem admission_exact (p : Params) (addr : Word) (nbytes : Nat) (hPos : 0 < nbytes)
    (hInt : nbytes < 2 ^ 31) :
    (checkAccess p addr nbytes = .ok () ↔
      nbytes.isPowerOfTwo ∧ nbytes ∣ addr.toNat ∧ WithinBlock p addr nbytes) ↔
    (nbytes.isPowerOfTwo → nbytes ∣ addr.toNat →
      (blockEnd p addr = 2 ^ 32 ↔ addr.toNat + nbytes = 2 ^ 32)) := by
  rw [checkAccess_iff hPos hInt, withinBlock_iff hPos, ← and_assoc]
  by_cases hGood : nbytes.isPowerOfTwo ∧ nbytes ∣ addr.toNat
  · have hEnd := end_le hGood.1 hInt hGood.2
    have hBlock : blockEnd p addr ≤ 2 ^ 32 := blockEnd_le
    have hBlockPos : 0 < blockEnd p addr := Nat.mul_pos (Nat.succ_pos _) p.bsize_pos
    simp only [hGood, true_and, forall_const]
    -- a sum that reaches the end of the address space becomes 0
    rcases hEnd.lt_or_eq with hLt | hEq <;> rcases hBlock.lt_or_eq with hLt' | hEq'
    · rw [Nat.mod_eq_of_lt hLt, Nat.mod_eq_of_lt hLt']
      omega
    · rw [Nat.mod_eq_of_lt hLt, hEq', Nat.mod_self]
      omega
    · rw [hEq, Nat.mod_self, Nat.mod_eq_of_lt hLt']
      omega
    · rw [hEq, hEq', Nat.mod_self]
      omega
  · constructor
    · exact fun _ hPow hDvd => absurd ⟨hPow, hDvd⟩ hGood
    · exact fun _ => ⟨fun h => absurd h.1 hGood, fun h => absurd h.1 hGood⟩

/-- Blocks of eight bytes. -/
def Params.narrow : Params := .of 16 8 1 false .LRU 1 (by decide)

theorem admission_exact_inside :
    checkAccess Params.narrow 0x1000#32 4 = .ok () ↔
      (4).isPowerOfTwo ∧ 4 ∣ (0x1000#32).toNat ∧ WithinBlock Params.narrow 0x1000#32 4 :=
  (admission_exact Params.narrow 0x1000#32 4 (by decide) (by decide)).mpr fun _ _ => by decide

/-- The last word of the address space is rejected in front of its end, and an access over the
last two blocks is admitted. -/
theorem admission_wraps :
    (checkAccess Params.narrow 0xfffffff8#32 4 ≠ .ok () ∧
      WithinBlock Params.narrow 0xfffffff8#32 4) ∧
    checkAccess Params.narrow 0xfffffff0#32 16 = .ok () ∧
      ¬ WithinBlock Params.narrow 0xfffffff0#32 16 :=
  ⟨⟨by decide, by unfold WithinBlock; decide⟩, rfl, by unfold WithinBlock; decide⟩

end SimpleScalar.Cache

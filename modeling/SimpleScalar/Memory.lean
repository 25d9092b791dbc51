import SimpleScalar.Isa.Basic
import Mathlib.Tactic.Ring

/-!
# Simulated memory

`memory.c` keeps the simulated address space in 64KB blocks that are allocated,
zero-filled, on first touch; the most significant address bit is ignored.  Here
memory is the resulting byte map `Mem`.  An access copies bytes between the map
and a host buffer; a multi-byte value is the buffer read in the byte order of the
host (`join`, `split`).

`memAccess` is the checked access every simulator uses, `memValid` the check
behind the `MEM_READ_*` and `MEM_WRITE_*` macros of `sim-safe`.

* `memAccess_read_ok`, `memAccess_write_ok`: what an accepted access does.
* `text_store`: an accepted write changes no byte below the data segment.
-/

namespace SimpleScalar

/-- Byte contents of the simulated memory. -/
abbrev Mem := BitVec 31 → Byte

inductive MemCmd where
  | read
  | write
  deriving DecidableEq, Repr

namespace Mem

/-- The byte an address selects; the block table ignores the top bit. -/
def index (addr : Word) : BitVec 31 := addr.setWidth 31

def bytes (m : Mem) (addr : Word) (nbytes : Nat) : List Byte :=
  (List.range nbytes).map fun i => m (index (addr + BitVec.ofNat 32 i))

def store (m : Mem) (addr : Word) : List Byte → Mem
  | [] => m
  | b :: bs => store (Function.update m (index addr) b) (addr + 1) bs

end Mem

/-! ### Host values -/

/-- The unsigned value of a host buffer. -/
def join (bigEndian : Bool) (bs : List Byte) : Nat :=
  (if bigEndian then bs.reverse else bs).foldr (fun b n => b.toNat + 256 * n) 0

/-- The low `nbytes` bytes of a value, as the host lays them out. -/
def split (bigEndian : Bool) (nbytes : Nat) (v : Nat) : List Byte :=
  let bs := (List.range nbytes).map fun i => BitVec.ofNat 8 (v / 256 ^ i)
  if bigEndian then bs.reverse else bs

/-- `SS_INST_TYPE` read from a host buffer. -/
def Inst.ofBytes (bigEndian : Bool) (bs : List Byte) : Inst where
  a := BitVec.ofNat 32 (join bigEndian (bs.take 4))
  b := BitVec.ofNat 32 (join bigEndian (bs.drop 4))

/-! ### Checked access -/

variable {addr : Word} {nbytes : Nat}

/-- Size and alignment are tested by masks. -/
theorem aligned_iff (hPos : 0 < nbytes) (hInt : nbytes < 2 ^ 31) :
    ¬ (nbytes &&& (nbytes - 1) ≠ 0 ∨ addr &&& (BitVec.ofNat 32 nbytes - 1) ≠ 0) ↔
      nbytes.isPowerOfTwo ∧ nbytes ∣ addr.toNat := by
  rw [not_or, not_not, not_not, Nat.and_sub_one_eq_zero_iff_isPowerOfTwo hPos.ne']
  refine and_congr_right fun ⟨k, hk⟩ => ?_
  have hOne : (BitVec.ofNat 32 nbytes - 1).toNat = nbytes - 1 := by
    have hNat : (BitVec.ofNat 32 nbytes).toNat = nbytes := by
      rw [BitVec.toNat_ofNat, Nat.mod_eq_of_lt (by omega)]
    rw [BitVec.toNat_sub, hNat]
    change (2 ^ 32 - 1 + nbytes) % 2 ^ 32 = nbytes - 1
    omega
  rw [← BitVec.toNat_inj, BitVec.toNat_and, hOne, Nat.dvd_iff_mod_eq_zero]
  conv_lhs => rw [hk, Nat.and_two_pow_sub_one_eq_mod]
  rw [hk]
  rfl

/-- The size and alignment test. -/
def memAligned (addr : Word) (nbytes : Nat) : Bool :=
  nbytes &&& (nbytes - 1) == 0 && addr.toNat &&& (nbytes - 1) == 0

/-- The permission test: text may be read, data and stack read and written. -/
def memPermitted (ld : Segments) (cmd : MemCmd) (addr : Word) : Bool :=
  (ld.inText addr && cmd == .read) || Segments.inData addr

/-- `mem_valid` with `declare` set. -/
def memValid (ld : Segments) (cmd : MemCmd) (addr : Word) (nbytes : Nat) : Except Stop Unit :=
  if !memAligned addr nbytes then
    .error (.fatal "bad size or alignment")
  else if !memPermitted ld cmd addr then
    .error (.fatal "segmentation violation")
  else
    .ok ()

/-- `mem_access`: the buffer `p` is filled by a read and copied out by a write. -/
def memAccess (ld : Segments) (cmd : MemCmd) (addr : Word) (p : List Byte) (nbytes : Nat)
    (m : Mem) : Except Stop (List Byte × Mem) :=
  if !memAligned addr nbytes then
    .error (.fatal ("access error: bad size or alignment, addr 0x" ++ addr.toHex))
  else if !memPermitted ld cmd addr then
    .error (.fatal ("access error: segmentation violation, addr 0x" ++ addr.toHex))
  else
    match cmd with
    | .read => .ok (m.bytes addr nbytes, m)
    | .write => .ok (p, m.store addr p)

variable {ld : Segments} {p : List Byte} {m : Mem}

variable {r : List Byte × Mem}

theorem memAccess_read_ok (h : memAccess ld .read addr p nbytes m = .ok r) :
    r = (m.bytes addr nbytes, m) := by
  unfold memAccess at h
  split at h
  · cases h
  · split at h
    · cases h
    · cases h
      rfl

theorem memAccess_write_ok (h : memAccess ld .write addr p nbytes m = .ok r) :
    memAligned addr nbytes ∧ Segments.inData addr ∧ r = (p, m.store addr p) := by
  unfold memAccess at h
  split at h
  · cases h
  · split at h
    · cases h
    · rename_i hAlign hPerm
      cases h
      refine ⟨by simpa using hAlign, ?_, rfl⟩
      simpa [memPermitted] using hPerm

/-- The two checked interfaces accept the same accesses. -/
theorem memValid_ok_iff {cmd : MemCmd} :
    memValid ld cmd addr nbytes = .ok () ↔
      memAligned addr nbytes = true ∧ memPermitted ld cmd addr = true := by
  unfold memValid
  cases memAligned addr nbytes <;> cases memPermitted ld cmd addr <;> simp

theorem memAccess_valid {cmd : MemCmd} (h : memAccess ld cmd addr p nbytes m = .ok r) :
    memValid ld cmd addr nbytes = .ok () := by
  unfold memAccess at h
  rw [memValid_ok_iff]
  split at h
  · cases h
  · split at h
    · cases h
    · rename_i hAlign hPerm
      exact ⟨by simpa using hAlign, by simpa using hPerm⟩

/-! ### The text segment is never written -/

/-- A store changes only bytes of its own range. -/
theorem Mem.store_apply_of_ne (p : List Byte) : ∀ (m : Mem) (addr : Word) (j : BitVec 31),
    (∀ i < p.length, Mem.index (addr + BitVec.ofNat 32 i) ≠ j) → m.store addr p j = m j := by
  induction p with
  | nil => intro m addr j _; rfl
  | cons b bs ih =>
    intro m addr j h
    rw [Mem.store, ih]
    · have h0 := h 0 (by simp)
      rw [BitVec.add_zero] at h0
      rw [Function.update_of_ne h0.symm]
    · intro i hi
      have hs := h (i + 1) (by simpa using hi)
      rwa [Nat.add_comm, BitVec.ofNat_add, ← BitVec.add_assoc] at hs

/-- An aligned access inside the data and stack segments ends before the address
bit that memory ignores. -/
theorem end_le_of_aligned {n : Nat} (hAlign : memAligned addr n)
    (hData : Segments.inData addr) : addr.toNat + n ≤ 2 ^ 31 := by
  simp only [memAligned, Bool.and_eq_true, beq_iff_eq] at hAlign
  obtain ⟨hPow, hMod⟩ := hAlign
  simp only [Segments.inData, Segments.dataBase, Segments.stackBase, Bool.and_eq_true,
    decide_eq_true_eq, BitVec.le_def, BitVec.lt_def, BitVec.toNat_ofNat] at hData
  by_cases hn : n = 0
  · omega
  · obtain ⟨k, rfl⟩ := (Nat.and_sub_one_eq_zero_iff_isPowerOfTwo hn).mp hPow
    rw [Nat.and_two_pow_sub_one_eq_mod] at hMod
    by_cases hk : k ≤ 31
    · -- both ends are multiples of the access size
      obtain ⟨q, hq⟩ := Nat.dvd_of_mod_eq_zero hMod
      obtain ⟨r, hr⟩ := pow_dvd_pow 2 hk
      have hlt : q < r := by
        refine Nat.lt_of_mul_lt_mul_left (a := 2 ^ k) ?_
        rw [← hq, ← hr]
        omega
      calc addr.toNat + 2 ^ k = 2 ^ k * (q + 1) := by rw [hq]; ring
        _ ≤ 2 ^ k * r := Nat.mul_le_mul_left _ hlt
        _ = 2 ^ 31 := hr.symm
    · have hbig : 2 ^ 32 ≤ 2 ^ k := Nat.pow_le_pow_right (by norm_num) (by omega)
      rw [Nat.mod_eq_of_lt (lt_of_lt_of_le addr.isLt hbig)] at hMod
      omega

/-- An accepted write changes no byte below the data segment. -/
theorem text_store {addr a : Word} (hAlign : memAligned addr p.length)
    (hData : Segments.inData addr) (ha : a < Segments.dataBase) :
    m.store addr p (Mem.index a) = m (Mem.index a) := by
  refine Mem.store_apply_of_ne p m addr _ fun i hi heq => ?_
  have hEnd := end_le_of_aligned hAlign hData
  simp only [Segments.inData, Segments.dataBase, Segments.stackBase, Bool.and_eq_true,
    decide_eq_true_eq, BitVec.le_def, BitVec.lt_def, BitVec.toNat_ofNat] at hData ha
  have hNat := congrArg BitVec.toNat heq
  simp only [Mem.index, BitVec.toNat_setWidth, BitVec.toNat_add, BitVec.toNat_ofNat] at hNat
  omega

/-! ### Words in memory -/

namespace Mem

/-- A store fills its own range. -/
theorem store_apply : ∀ (p : List Byte) (m : Mem) (addr : Word) (i : Nat) (_ : p.length ≤ 2 ^ 31)
    (hi : i < p.length), m.store addr p (index (addr + BitVec.ofNat 32 i)) = p[i] := by
  intro p
  induction p with
  | nil => intro m addr i _ hi; cases hi
  | cons b bs ih =>
    intro m addr i hLen hi
    rw [List.length_cons] at hLen
    cases i with
    | zero =>
      have hNe : ∀ j < bs.length,
          index (addr + 1 + BitVec.ofNat 32 j) ≠ index (addr + BitVec.ofNat 32 0) := by
        intro j hj hEq
        have hEq := congrArg BitVec.toNat hEq
        simp only [index, BitVec.toNat_setWidth, BitVec.toNat_add, BitVec.toNat_ofNat] at hEq
        have hlt := addr.isLt
        change ((addr.toNat + 1) % 2 ^ 32 + j % 2 ^ 32) % 2 ^ 32 % 2 ^ 31 = _ at hEq
        omega
      rw [store, store_apply_of_ne bs _ _ _ hNe, BitVec.add_zero]
      exact Function.update_self ..
    | succ i =>
      have hi : i < bs.length := Nat.lt_of_succ_lt_succ hi
      have hNext := ih (Function.update m (index addr) b) (addr + 1) i (by omega) hi
      rw [BitVec.add_assoc, show (1 : Word) = BitVec.ofNat 32 1 from rfl, ← BitVec.ofNat_add,
        Nat.add_comm] at hNext
      exact hNext

theorem bytes_store (hLen : p.length ≤ 2 ^ 31) (m : Mem) (addr : Word) :
    (m.store addr p).bytes addr p.length = p := by
  refine List.ext_getElem (by simp [bytes]) fun i hi hi' => ?_
  simp only [bytes, List.getElem_map, List.getElem_range]
  exact store_apply p m addr i hLen hi'

/-- The second of two stores to one place counts. -/
theorem store_store {p q : List Byte} (hLen : p.length ≤ 2 ^ 31) (hSame : q.length = p.length)
    (m : Mem) (addr : Word) : (m.store addr q).store addr p = m.store addr p := by
  funext j
  by_cases hIn : ∃ i < p.length, index (addr + BitVec.ofNat 32 i) = j
  · obtain ⟨i, hi, rfl⟩ := hIn
    rw [store_apply p _ addr i hLen hi, store_apply p _ addr i hLen hi]
  · have hOut : ∀ i < p.length, index (addr + BitVec.ofNat 32 i) ≠ j := fun i hi h => hIn ⟨i, hi, h⟩
    rw [store_apply_of_ne p _ _ _ hOut, store_apply_of_ne p _ _ _ hOut,
      store_apply_of_ne q _ _ _ (hSame ▸ hOut)]

theorem bytes_four (m : Mem) (addr : Word) : m.bytes addr 4 =
    [m (index (addr + BitVec.ofNat 32 0)), m (index (addr + BitVec.ofNat 32 1)),
      m (index (addr + BitVec.ofNat 32 2)), m (index (addr + BitVec.ofNat 32 3))] := rfl

/-- The word of the four bytes from `addr` on. -/
def word (bigEndian : Bool) (m : Mem) (addr : Word) : Word :=
  BitVec.ofNat 32 (join bigEndian (m.bytes addr 4))

/-- The four bytes from `addr` on, replaced by those of `v`. -/
def putWord (bigEndian : Bool) (m : Mem) (addr v : Word) : Mem :=
  m.store addr (split bigEndian 4 v.toNat)

theorem length_split_four (bigEndian : Bool) (v : Nat) : (split bigEndian 4 v).length = 4 := by
  cases bigEndian <;> rfl

theorem join_split_four (bigEndian : Bool) (v : Word) :
    BitVec.ofNat 32 (join bigEndian (split bigEndian 4 v.toNat)) = v := by
  have hlt := v.isLt
  apply BitVec.eq_of_toNat_eq
  rw [BitVec.toNat_ofNat]
  cases bigEndian <;> simp [join, split, List.range, List.range.loop] <;> omega

theorem word_putWord (bigEndian : Bool) (m : Mem) (addr v : Word) :
    word bigEndian (putWord bigEndian m addr v) addr = v := by
  have hBytes := @bytes_store (split bigEndian 4 v.toNat) (by rw [length_split_four]; decide) m addr
  rw [length_split_four] at hBytes
  rw [word, putWord, hBytes, join_split_four]

theorem putWord_putWord (bigEndian : Bool) (m : Mem) (addr v w : Word) :
    putWord bigEndian (putWord bigEndian m addr w) addr v = putWord bigEndian m addr v :=
  store_store (by rw [length_split_four]; decide) (by rw [length_split_four, length_split_four])
    m addr

end Mem

end SimpleScalar

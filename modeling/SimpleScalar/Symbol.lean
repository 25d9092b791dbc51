import SimpleScalar.Lib.BinarySearch
import SimpleScalar.Isa.Basic

/-!
# The symbol table

`sym_loadsyms` sorts the symbols of a program by address and by name, once for all of them
and once for each segment, and gives every symbol a size.  `sym_bind_addr` and
`sym_bind_name` look a symbol up by binary search.

A sorted array is here any permutation of its symbols in which the comparison function puts
no later symbol before an earlier one.

* `nameComplete`: a name that is present is found.
* `exactComplete_iff`, `rangeComplete_iff`: an address is found if the search comes by a
  symbol that matches.  It does in exact mode if all addresses lie within half of the address
  space (`exactComplete_of_near`), because `acmp` is then the order of the addresses.
* `rangeComplete_of_segment`: it does in the text and in the data database if, besides, no
  range ends beyond the address space.  The sizes come from these arrays, so the last symbol
  at or below an address covers it if any does.  The array of all symbols breaks its ties on
  its own and mixes the segments, and a symbol that covers an address may be hidden there.
-/

namespace SimpleScalar.Symbol

open BinarySearch

/-- `enum sym_seg_t`. -/
inductive SymSeg where
  | data
  | text
  deriving DecidableEq, Repr

/-- `struct sym_sym_t` as it is read from the executable. -/
structure Sym where
  name : List Byte
  seg : SymSeg
  addr : Word
  deriving DecidableEq, Repr

/-- `enum sym_db_t`. -/
inductive SymDb where
  | any
  | text
  | data
  deriving DecidableEq, Repr

def SymDb.holds : SymDb → Sym → Bool
  | .any, _ => true
  | .text, sym => sym.seg = .text
  | .data, sym => sym.seg = .data

/-- `strcmp`, on the bytes before the null. -/
abbrev strcmp (s t : List Byte) : Ordering := List.compareLex compare s t

instance : Std.TransCmp strcmp :=
  inferInstanceAs (Std.TransCmp (List.compareLex (compare : Byte → Byte → Ordering)))

instance : Std.LawfulEqCmp strcmp :=
  inferInstanceAs (Std.LawfulEqCmp (List.compareLex (compare : Byte → Byte → Ordering)))

def acmp (sym1 sym2 : Sym) : ℤ := (sym1.addr - sym2.addr).toInt

def ncmp (sym1 sym2 : Sym) : Ordering := strcmp sym1.name sym2.name

/-- The symbols with their sorted arrays: `byAddr` is `sym_syms`, `sym_textsyms` or
`sym_datasyms`, and `byName` the same by name. -/
structure SymTab where
  symDb : List Sym
  ldTextSize : Word
  ldDataSize : Word
  byAddr : SymDb → List (Fin symDb.length)
  byAddr_perm : ∀ db, (byAddr db).Perm
    ((List.finRange symDb.length).filter fun i => db.holds (symDb.get i))
  byAddr_sorted : ∀ db, (byAddr db).Pairwise fun i j => acmp (symDb.get i) (symDb.get j) ≤ 0
  byName : SymDb → List (Fin symDb.length)
  byName_perm : ∀ db, (byName db).Perm
    ((List.finRange symDb.length).filter fun i => db.holds (symDb.get i))
  byName_sorted : ∀ db, (byName db).Pairwise fun i j => ncmp (symDb.get i) (symDb.get j) ≠ .gt

/-- The bytes from each symbol to the next, and from the last one to the end of the
segment. -/
def sizes {α : Type*} (addr : α → Word) (limit : Word) : List α → List (α × Word)
  | [] => []
  | [x] => [(x, limit - addr x)]
  | x :: y :: rest => (x, addr y - addr x) :: sizes addr limit (y :: rest)

namespace SymTab

variable (t : SymTab)

def name (x : Fin t.symDb.length) : List Byte := (t.symDb.get x).name

def addr (x : Fin t.symDb.length) : Word := (t.symDb.get x).addr

def textSizes : List (Fin t.symDb.length × Word) :=
  sizes t.addr (Segments.textBase + t.ldTextSize) (t.byAddr .text)

def dataSizes : List (Fin t.symDb.length × Word) :=
  sizes t.addr (Segments.dataBase + t.ldDataSize) (t.byAddr .data)

def size (x : Fin t.symDb.length) : Word :=
  ((t.textSizes ++ t.dataSizes).lookup x).getD 0

/-- `MAX(1, sym->size)`. -/
def extent (x : Fin t.symDb.length) : Word := if (t.size x).toInt < 1 then 1 else t.size x

/-- The match of `sym_bind_addr`. -/
def matchAddr (addr : Word) (exact : Bool) (x : Fin t.symDb.length) : Bool :=
  exact && t.addr x == addr ||
    !exact && decide (t.addr x ≤ addr) && decide (addr < t.addr x + t.extent x)

def symBindAddr (addr : Word) (exact : Bool) (db : SymDb) : Option (ℕ × Fin t.symDb.length) :=
  find (t.matchAddr addr exact) (fun x => decide (addr < t.addr x)) (t.byAddr db)

def symBindName (name : List Byte) (db : SymDb) : Option (ℕ × Fin t.symDb.length) :=
  find (fun x => strcmp (t.name x) name == .eq) (fun x => strcmp (t.name x) name == .gt)
    (t.byName db)

/-! ## What a lookup should find -/

def Has (db : SymDb) (x : Fin t.symDb.length) : Prop := db.holds (t.symDb.get x) = true

/-- The address is one of `addr..addr+max(1,size)-1`. -/
def Covers (x : Fin t.symDb.length) (addr : Word) : Prop :=
  (t.addr x).toNat ≤ addr.toNat ∧
    (addr.toNat : ℤ) < (t.addr x).toNat + max 1 (t.size x).toInt

def NameComplete (db : SymDb) (name : List Byte) : Prop :=
  (∃ r, t.symBindName name db = some r ∧ t.name r.2 = name) ↔ ∃ x, t.Has db x ∧ t.name x = name

def ExactComplete (db : SymDb) (addr : Word) : Prop :=
  (∃ r, t.symBindAddr addr true db = some r ∧ t.addr r.2 = addr) ↔
    ∃ x, t.Has db x ∧ t.addr x = addr

def RangeComplete (db : SymDb) (addr : Word) : Prop :=
  (∃ r, t.symBindAddr addr false db = some r ∧ t.Covers r.2 addr) ↔
    ∃ x, t.Has db x ∧ t.Covers x addr

def Complete (db : SymDb) : Prop :=
  (∀ name, t.NameComplete db name) ∧ (∀ addr, t.ExactComplete db addr) ∧
    ∀ addr, t.RangeComplete db addr

/-- The symbols the binary search for an address compares with, as long as none matches. -/
def probedAt (db : SymDb) (addr : Word) : List (Fin t.symDb.length) :=
  probed (fun x => decide (addr < t.addr x)) (t.byAddr db)

variable {t} {db : SymDb}

variable {x : Fin t.symDb.length}

theorem mem_byAddr : x ∈ t.byAddr db ↔ t.Has db x := by
  rw [(t.byAddr_perm db).mem_iff]
  simp [Has]

theorem mem_byName : x ∈ t.byName db ↔ t.Has db x := by
  rw [(t.byName_perm db).mem_iff]
  simp [Has]

theorem nodup_byAddr : (t.byAddr db).Nodup :=
  (t.byAddr_perm db).nodup_iff.mpr ((List.nodup_finRange _).filter _)

/-! ## Names -/

theorem byName_ordered (t : SymTab) (db : SymDb) (name : List Byte) :
    (t.byName db).Pairwise fun x y =>
      (strcmp (t.name x) name == .gt) = true → (strcmp (t.name y) name == .gt) = true := by
  refine (t.byName_sorted db).imp fun {x y} hxy hx => ?_
  have hLE : (strcmp (t.name x) (t.name y)).isLE := Ordering.isLE_iff_ne_gt.mpr hxy
  have hLt : strcmp name (t.name x) = .lt := Std.OrientedCmp.lt_of_gt (eq_of_beq hx)
  exact beq_iff_eq.mpr (Std.OrientedCmp.gt_of_lt (Std.TransCmp.lt_of_lt_of_isLE hLt hLE))

theorem nameComplete (t : SymTab) (db : SymDb) (name : List Byte) : t.NameComplete db name := by
  unfold NameComplete symBindName
  rw [exists_find_iff fun x hx => Std.LawfulEqCmp.eq_of_compare (eq_of_beq hx)]
  constructor
  · rintro ⟨x, hx, hHit⟩
    exact ⟨x, mem_byName.mp (mem_of_mem_probed hx),
      Std.LawfulEqCmp.eq_of_compare (eq_of_beq hHit)⟩
  · rintro ⟨y, hy, rfl⟩
    have hSelf : strcmp (t.name y) (t.name y) = .eq := Std.ReflCmp.compare_self
    have hLeft : (strcmp (t.name y) (t.name y) == .gt) = false := by
      rw [hSelf]
      rfl
    obtain ⟨pre, x, post, hxs, hpre, hx, hpost⟩ :=
      exists_last (byName_ordered t db (t.name y)) ⟨y, mem_byName.mpr hy, hLeft⟩
    refine ⟨x, mem_probed_of_last hxs hpre hx hpost, beq_iff_eq.mpr ?_⟩
    rcases eq_or_before_last hxs (t.byName_sorted db) hpost (mem_byName.mpr hy) hLeft with
      rfl | hyx
    · exact hSelf
    · -- neither name is after the other
      have hLE : (strcmp (t.name x) (t.name y)).isLE :=
        Ordering.isLE_iff_ne_gt.mpr (ne_of_beq_false hx)
      exact Std.OrientedCmp.isLE_antisymm hLE (Ordering.isLE_iff_ne_gt.mpr hyx)

/-! ## Addresses -/

theorem toInt_sub_le_zero {a b : Word} (hab : a.toNat < b.toNat + 2 ^ 31)
    (hba : b.toNat < a.toNat + 2 ^ 31) (h : (a - b).toInt ≤ 0) : a.toNat ≤ b.toNat := by
  have ha := a.isLt
  have hb := b.isLt
  simp only [BitVec.toInt, BitVec.toNat_sub] at h
  split at h <;> omega

theorem toNat_extent (x : Fin t.symDb.length) :
    ((t.extent x).toNat : ℤ) = max 1 (t.size x).toInt ∧ (t.extent x).toNat < 2 ^ 31 := by
  have hLt := (t.size x).isLt
  unfold extent
  split
  · simp
    omega
  · rename_i h
    simp only [BitVec.toInt] at h ⊢
    split at h
    · rw [if_pos ‹_›]
      omega
    · omega

variable {addr : Word}

/-- The comparison of `sym_bind_addr` finds a range that does not leave the address space. -/
theorem matchAddr_range :
    t.matchAddr addr false x = true ↔
      t.Covers x addr ∧ ((t.addr x).toNat : ℤ) + max 1 (t.size x).toInt < 2 ^ 32 := by
  obtain ⟨hExtent, hSmall⟩ := toNat_extent x
  have hx := (t.addr x).isLt
  have ha := addr.isLt
  rw [Covers, ← hExtent]
  simp only [matchAddr, Bool.false_and, Bool.not_false, Bool.true_and, Bool.false_or,
    Bool.and_eq_true, decide_eq_true_eq, BitVec.le_def, BitVec.lt_def, BitVec.toNat_add]
  omega

theorem matchAddr_exact :
    t.matchAddr addr true x = true ↔ t.addr x = addr := by
  simp [matchAddr]

theorem exactComplete_iff : t.ExactComplete db addr ↔
    ((∃ x, t.Has db x ∧ t.addr x = addr) → ∃ x ∈ t.probedAt db addr, t.addr x = addr) := by
  unfold ExactComplete symBindAddr
  rw [exists_find_iff fun x hx => matchAddr_exact.mp hx]
  simp only [matchAddr_exact]
  exact ⟨Iff.mpr, fun h => ⟨fun ⟨x, hx, hAddr⟩ =>
    ⟨x, mem_byAddr.mp (mem_of_mem_probed hx), hAddr⟩, h⟩⟩

theorem rangeComplete_iff : t.RangeComplete db addr ↔
    ((∃ x, t.Has db x ∧ t.Covers x addr) →
      ∃ x ∈ t.probedAt db addr, t.matchAddr addr false x = true) := by
  unfold RangeComplete symBindAddr
  rw [exists_find_iff fun x hx => (matchAddr_range.mp hx).1]
  exact ⟨Iff.mpr, fun h => ⟨fun ⟨x, hx, hHit⟩ =>
    ⟨x, mem_byAddr.mp (mem_of_mem_probed hx), (matchAddr_range.mp hHit).1⟩, h⟩⟩

/-- All symbols of a database lie within half of the address space, so that the difference
of two addresses has its sign. -/
def Near (t : SymTab) (db : SymDb) : Prop :=
  ∀ x y, t.Has db x → t.Has db y → (t.addr x).toNat < (t.addr y).toNat + 2 ^ 31

theorem byAddr_le (h : t.Near db) :
    (t.byAddr db).Pairwise fun x y => (t.addr x).toNat ≤ (t.addr y).toNat := by
  refine (t.byAddr_sorted db).imp_of_mem fun {x y} hx hy hxy => ?_
  exact toInt_sub_le_zero (h x y (mem_byAddr.mp hx) (mem_byAddr.mp hy))
    (h y x (mem_byAddr.mp hy) (mem_byAddr.mp hx)) hxy

/-- The last symbol at or below an address. -/
theorem exists_last_le (h : t.Near db) {y : Fin t.symDb.length} (hy : t.Has db y)
    (hle : (t.addr y).toNat ≤ addr.toNat) :
    ∃ pre x post, t.byAddr db = pre ++ x :: post ∧ x ∈ t.probedAt db addr ∧
      (t.addr x).toNat ≤ addr.toNat ∧ (t.addr y).toNat ≤ (t.addr x).toNat ∧
      ∀ z ∈ post, addr.toNat < (t.addr z).toNat := by
  have hOrdered : (t.byAddr db).Pairwise fun x y =>
      decide (addr < t.addr x) = true → decide (addr < t.addr y) = true := by
    refine (byAddr_le h).imp fun {x y} hxy hx => ?_
    simp only [decide_eq_true_eq, BitVec.lt_def] at hx ⊢
    omega
  have hLeft : decide (addr < t.addr y) = false := by
    simp only [decide_eq_false_iff_not, BitVec.lt_def]
    omega
  obtain ⟨pre, x, post, hxs, hpre, hx, hpost⟩ :=
    exists_last hOrdered ⟨y, mem_byAddr.mpr hy, hLeft⟩
  refine ⟨pre, x, post, hxs, mem_probed_of_last hxs hpre hx hpost, ?_, ?_, ?_⟩
  · simp only [decide_eq_false_iff_not, BitVec.lt_def] at hx
    omega
  · rcases eq_or_before_last hxs (byAddr_le h) hpost (mem_byAddr.mpr hy) hLeft with rfl | hyx
    · exact Nat.le_refl _
    · exact hyx
  · intro z hz
    simpa [BitVec.lt_def] using hpost z hz

theorem exactComplete_of_near (h : t.Near db) (addr : Word) : t.ExactComplete db addr := by
  rw [exactComplete_iff]
  rintro ⟨y, hy, rfl⟩
  obtain ⟨-, x, -, -, hx, hle, hge, -⟩ := exists_last_le h hy (Nat.le_refl _)
  exact ⟨x, hx, BitVec.eq_of_toNat_eq (by omega)⟩

/-! ## Sizes -/

section Sizes

variable {α : Type*} [DecidableEq α] (ad : α → Word) (limit : Word)

theorem lookup_sizes_append {pre : List α} {x : α} (hx : x ∉ pre) (xs : List α) :
    (sizes ad limit (pre ++ xs)).lookup x = (sizes ad limit xs).lookup x := by
  induction pre with
  | nil => rfl
  | cons a pre ih =>
    have hne : (x == a) = false := beq_false_of_ne fun h => hx (h ▸ List.mem_cons_self)
    rw [← ih fun h => hx (List.mem_cons_of_mem a h)]
    rw [List.cons_append]
    cases pre ++ xs with
    | nil => simp [sizes, List.lookup_cons, hne]
    | cons b rest => simp [sizes, List.lookup_cons, hne]

theorem lookup_sizes_of_notMem {xs : List α} {x : α} (hx : x ∉ xs) :
    (sizes ad limit xs).lookup x = none := by
  have h := lookup_sizes_append ad limit hx []
  rw [List.append_nil] at h
  exact h

end Sizes

/-- The end of the segment the symbols of a database lie in. -/
def limit (t : SymTab) : SymDb → Word
  | .data => Segments.dataBase + t.ldDataSize
  | _ => Segments.textBase + t.ldTextSize

theorem size_of_segment (hdb : db ≠ .any) (hx : t.Has db x) :
    t.size x = ((sizes t.addr (t.limit db) (t.byAddr db)).lookup x).getD 0 := by
  unfold size textSizes dataSizes
  rw [List.lookup_append]
  cases db with
  | any => exact absurd rfl hdb
  | text =>
    have hNot : x ∉ t.byAddr .data := by
      rw [mem_byAddr]
      simp_all [Has, SymDb.holds]
    rw [lookup_sizes_of_notMem _ _ hNot, Option.or_none]
    rfl
  | data =>
    have hNot : x ∉ t.byAddr .text := by
      rw [mem_byAddr]
      simp_all [Has, SymDb.holds]
    rw [lookup_sizes_of_notMem _ _ hNot, Option.none_or]
    rfl

/-- A symbol of a segment reaches to the next one. -/
theorem toInt_size (hdb : db ≠ .any) (h : t.Near db) {x y : Fin t.symDb.length}
    {pre post : List (Fin t.symDb.length)} (hxs : t.byAddr db = pre ++ x :: y :: post) :
    (t.size x).toInt = (t.addr y).toNat - (t.addr x).toNat := by
  have hx : x ∈ t.byAddr db := by simp [hxs]
  have hy : y ∈ t.byAddr db := by simp [hxs]
  have hNot : x ∉ pre := by
    have hNodup : (t.byAddr db).Nodup := nodup_byAddr
    rw [hxs] at hNodup
    exact fun hMem => (List.nodup_append.mp hNodup).2.2 x hMem x List.mem_cons_self rfl
  have hSize : t.size x = t.addr y - t.addr x := by
    rw [size_of_segment hdb (mem_byAddr.mp hx), hxs, lookup_sizes_append _ _ hNot]
    simp [sizes]
  have hle : (t.addr x).toNat ≤ (t.addr y).toNat := by
    have hSorted := byAddr_le h
    rw [hxs] at hSorted
    exact (List.pairwise_cons.mp (List.pairwise_append.mp hSorted).2.1).1 y List.mem_cons_self
  have hNear := h y x (mem_byAddr.mp hy) (mem_byAddr.mp hx)
  have hLt := (t.addr y).isLt
  rw [hSize]
  simp only [BitVec.toInt, BitVec.toNat_sub]
  split <;> omega

/-- No range of the database ends beyond the address space. -/
def Fits (t : SymTab) (db : SymDb) : Prop :=
  ∀ x, t.Has db x → ((t.addr x).toNat : ℤ) + max 1 (t.size x).toInt < 2 ^ 32

theorem rangeComplete_of_segment (hdb : db ≠ .any) (h : t.Near db) (hFits : t.Fits db)
    (addr : Word) : t.RangeComplete db addr := by
  rw [rangeComplete_iff]
  rintro ⟨y, hy, hyLe, hyLt⟩
  obtain ⟨pre, x, post, hxs, hProbed, hle, hge, hpost⟩ := exists_last_le h hy hyLe
  have hx : x ∈ t.byAddr db := by simp [hxs]
  refine ⟨x, hProbed, matchAddr_range.mpr ⟨⟨hle, ?_⟩, hFits x (mem_byAddr.mp hx)⟩⟩
  cases post with
  | cons z post =>
    have hSize := toInt_size hdb h hxs
    have hz := hpost z List.mem_cons_self
    omega
  | nil =>
    have hyMem := mem_byAddr.mpr hy
    rw [hxs] at hyMem
    rcases List.mem_append.mp hyMem with hyPre | hyLast
    · -- the next symbol after y is not beyond the address, so y is at the address
      obtain ⟨pre', post', rfl⟩ := List.append_of_mem hyPre
      obtain ⟨z, rest, hz⟩ : ∃ z rest, post' ++ [x] = z :: rest :=
        List.exists_cons_of_ne_nil (by simp)
      have hxs' : t.byAddr db = pre' ++ y :: z :: rest := by
        rw [hxs, ← hz]
        simp
      have hSize := toInt_size hdb h hxs'
      have hzx : (t.addr z).toNat ≤ (t.addr x).toNat := by
        have hSorted := byAddr_le h
        rw [hxs] at hSorted
        have hzMem : z ∈ pre' ++ y :: post' ++ [x] := by
          rw [← hxs, hxs']
          simp
        rcases List.mem_append.mp hzMem with hzPre | hzLast
        · exact (List.pairwise_append.mp hSorted).2.2 z hzPre x (List.mem_singleton_self x)
        · rw [List.mem_singleton.mp hzLast]
      omega
    · obtain rfl := List.mem_singleton.mp hyLast
      exact hyLt

/-! ## Completeness -/

abbrev tiedSyms : List Sym :=
  [⟨[0x78], .text, 0x400000⟩, ⟨[0x79], .text, 0x400000⟩, ⟨[0x7a], .text, 0x400100⟩]

def tiedByAddr : SymDb → List (Fin tiedSyms.length)
  | .any => [1, 0, 2]
  | .text => [0, 1, 2]
  | .data => []

def tiedByName : SymDb → List (Fin tiedSyms.length)
  | .data => []
  | _ => [0, 1, 2]

theorem tiedByAddr_perm (db : SymDb) : (tiedByAddr db).Perm
    ((List.finRange tiedSyms.length).filter fun i => db.holds (tiedSyms.get i)) := by
  cases db <;> decide

theorem tiedByAddr_sorted (db : SymDb) :
    (tiedByAddr db).Pairwise fun i j => acmp (tiedSyms.get i) (tiedSyms.get j) ≤ 0 := by
  cases db <;> decide

theorem tiedByName_perm (db : SymDb) : (tiedByName db).Perm
    ((List.finRange tiedSyms.length).filter fun i => db.holds (tiedSyms.get i)) := by
  cases db <;> decide

theorem tiedByName_sorted (db : SymDb) :
    (tiedByName db).Pairwise fun i j => ncmp (tiedSyms.get i) (tiedSyms.get j) ≠ .gt := by
  cases db <;> decide

def tied : SymTab :=
  ⟨tiedSyms, 0x1000, 0, tiedByAddr, tiedByAddr_perm, tiedByAddr_sorted, tiedByName,
    tiedByName_perm, tiedByName_sorted⟩

end SymTab

end SimpleScalar.Symbol

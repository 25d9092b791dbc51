import SimpleScalar.Memory
import SimpleScalar.Lib.Outcome

/-!
# Paged memory

`memory.c` with its page table: 64KB pages that are allocated, filled with zeros, when
they are touched for the first time.  The checked interfaces are `mem_access` and the
macros `MEM_READ_*` and `MEM_WRITE_*`; `__UNCHK_MEM_ACCESS` does not touch the page, so
that a missing page is a null pointer.

The segment bounds are variables of the loader.  They are arguments here, since the
loader itself writes through the checks.

`view` is the memory as a byte map.  Allocation does not change it, and an access is one
of the byte map (`access_view`).  `paged_refines_flat`: a read returns what has last
been written to each of its bytes.
-/

namespace SimpleScalar

open List
open Function (comp_apply update_eq_self update_of_ne update_self)

/-- The variables the checks depend on. -/
structure Bounds where
  textBase : Word
  textSize : Word
  dataBase : Word
  stackBase : Word
  brkPoint : Word

/-- The permission test. -/
def Bounds.permits (b : Bounds) (cmd : MemCmd) (addr : Word) : Bool :=
  (decide (b.textBase ≤ addr) && decide (addr < b.textBase + b.textSize) && cmd == .read) ||
    (decide (b.dataBase ≤ addr) && decide (addr < b.stackBase))

variable {p : List Byte} {nbytes : Nat}

namespace Paged

/-- `MEM_BLOCK_SIZE` bytes. -/
abbrev Page := BitVec 16 → Byte

structure Memory where
  /-- `mem_table` -/
  table : BitVec 15 → Option Page
  /-- `mem_stack_min` -/
  stackMin : Word

/-- `mem_init` -/
def init : Memory := ⟨fun _ => none, 0x7fffffff#32⟩

/-- `MEM_BLOCK` -/
def memBlock (addr : Word) : BitVec 15 := (addr >>> 16).setWidth 15

/-- `MEM_OFFSET` -/
def memOffset (addr : Word) : BitVec 16 := addr.setWidth 16

/-- `mem_newblock` -/
def newblock : Page := fun _ => 0

/-- `__MEM_TICKLE` -/
def tickle (addr : Word) (m : Memory) : Memory :=
  match m.table (memBlock addr) with
  | none => { m with table := Function.update m.table (memBlock addr) (some newblock) }
  | some _ => m

def Page.load (page : Page) (offset : BitVec 16) (size : Nat) : List Byte :=
  (List.range size).map fun i => page (offset + BitVec.ofNat 16 i)

def Page.store (page : Page) (offset : BitVec 16) : List Byte → Page
  | [] => page
  | b :: bs => store (Function.update page offset b) (offset + 1) bs

/-- `__UNCHK_MEM_ACCESS` as a value: a missing page and bytes behind the page are undefined. -/
def unchkRead (addr : Word) (size : Nat) (m : Memory) : Except Stop (List Byte) :=
  match m.table (memBlock addr) with
  | none => .error .undefined
  | some page =>
    if (memOffset addr).toNat + size ≤ 2 ^ 16 then .ok (page.load (memOffset addr) size)
    else .error .undefined

/-- `__UNCHK_MEM_ACCESS` as an assignment. -/
def unchkWrite (addr : Word) (bs : List Byte) (m : Memory) : Except Stop Memory :=
  match m.table (memBlock addr) with
  | none => .error .undefined
  | some page =>
    if (memOffset addr).toNat + bs.length ≤ 2 ^ 16 then
      .ok { m with
        table := Function.update m.table (memBlock addr) (some (page.store (memOffset addr) bs)) }
    else .error .undefined

/-- `__MEM_READ_BYTE`, `__MEM_READ_HALF` and `__MEM_READ_WORD`. -/
def rawRead (addr : Word) (size : Nat) (m : Memory) : Except Stop (List Byte × Memory) := do
  let m := tickle addr m
  let bs ← unchkRead addr size m
  return (bs, m)

/-- `__MEM_WRITE_BYTE`, `__MEM_WRITE_HALF` and `__MEM_WRITE_WORD`. -/
def rawWrite (addr : Word) (bs : List Byte) (m : Memory) : Except Stop Memory :=
  unchkWrite addr bs (tickle addr m)

/-! ### Checked access -/

/-- The size and alignment test. -/
def aligned (addr : Word) (nbytes : Nat) : Bool :=
  !(nbytes &&& (nbytes - 1) != 0 || addr &&& (BitVec.ofNat 32 nbytes - 1) != 0)

/-- The minimum of the stack pointer. -/
def track (b : Bounds) (addr : Word) (m : Memory) : Memory :=
  if b.brkPoint < addr ∧ addr < m.stackMin then { m with stackMin := addr } else m

/-- The loop of `mem_access` that reads words. -/
def readWords : Nat → Word → Memory → Except Stop (List Byte × Memory)
  | 0, _, m => .ok ([], m)
  | words + 1, addr, m => do
    let (bs, m) ← rawRead addr 4 m
    let (rest, m) ← readWords words (addr + 4) m
    return (bs ++ rest, m)

/-- The loop of `mem_access` that writes words. -/
def writeWords : Nat → Word → List Byte → Memory → Except Stop Memory
  | 0, _, _, m => .ok m
  | words + 1, addr, p, m => do
    let m ← rawWrite addr (p.take 4) m
    writeWords words (addr + 4) (p.drop 4) m

/-- `mem_access`: the buffer `p` is filled by a read and copied out by a write. -/
def access (b : Bounds) (cmd : MemCmd) (addr : Word) (p : List Byte) (nbytes : Nat) (m : Memory) :
    Except Stop (List Byte × Memory) :=
  if !aligned addr nbytes then
    .error (.fatal ("access error: bad size or alignment, addr 0x" ++ addr.toHex))
  else if !b.permits cmd addr then
    .error (.fatal ("access error: segmentation violation, addr 0x" ++ addr.toHex))
  else
    let m := track b addr m
    match cmd with
    | .read =>
      if nbytes = 1 ∨ nbytes = 2 ∨ nbytes = 4 then rawRead addr nbytes m
      else readWords (nbytes >>> 2) addr m
    | .write => do
      let m ←
        if nbytes = 1 ∨ nbytes = 2 ∨ nbytes = 4 then rawWrite addr p m
        else writeWords (nbytes >>> 2) addr p m
      return (p, m)

/-- `mem_valid` with `declare` set. -/
def valid (b : Bounds) (cmd : MemCmd) (addr : Word) (nbytes : Nat) (m : Memory) :
    Except Stop Memory :=
  if !aligned addr nbytes then .error (.fatal "bad size or alignment")
  else if !b.permits cmd addr then .error (.fatal "segmentation violation")
  else .ok (track b addr m)

/-- The operand sizes of the macros. -/
inductive Width where
  | byte | half | word
  deriving DecidableEq, Repr

def Width.size : Width → Nat
  | .byte => 1
  | .half => 2
  | .word => 4

/-- `MEM_READ_BYTE`, `MEM_READ_HALF` and `MEM_READ_WORD`. -/
def memRead (b : Bounds) (bigEndian : Bool) (w : Width) (addr : Word) (m : Memory) :
    Except Stop (Word × Memory) := do
  let m ← valid b .read addr w.size m
  let (bs, m) ← rawRead addr w.size m
  return (BitVec.ofNat 32 (join bigEndian bs), m)

/-- `MEM_WRITE_BYTE`, `MEM_WRITE_HALF` and `MEM_WRITE_WORD`. -/
def memWrite (b : Bounds) (bigEndian : Bool) (w : Width) (addr v : Word) (m : Memory) :
    Except Stop Memory := do
  let m ← valid b .write addr w.size m
  rawWrite addr (split bigEndian w.size v.toNat) m

/-! ### The byte map -/

def blockOf (j : BitVec 31) : BitVec 15 := (j >>> 16).setWidth 15

def offsetOf (j : BitVec 31) : BitVec 16 := j.setWidth 16

/-- The memory as a byte map. -/
def view (m : Memory) : Mem := fun j =>
  match m.table (blockOf j) with
  | none => 0
  | some page => page (offsetOf j)

variable {m : Memory} {addr : Word} {b : Bounds}

theorem memBlock_eq (addr : Word) : memBlock addr = blockOf (Mem.index addr) := by
  apply BitVec.eq_of_toNat_eq
  simp only [memBlock, blockOf, Mem.index, BitVec.toNat_setWidth, BitVec.toNat_ushiftRight,
    Nat.shiftRight_eq_div_pow]
  omega

theorem memOffset_eq (addr : Word) : memOffset addr = offsetOf (Mem.index addr) := by
  apply BitVec.eq_of_toNat_eq
  simp only [memOffset, offsetOf, Mem.index, BitVec.toNat_setWidth]
  omega

/-- A byte address is a page and an offset. -/
theorem eq_of_block_offset {j k : BitVec 31} (hBlock : blockOf j = blockOf k)
    (hOffset : offsetOf j = offsetOf k) : j = k := by
  apply BitVec.eq_of_toNat_eq
  have hb := congrArg BitVec.toNat hBlock
  have ho := congrArg BitVec.toNat hOffset
  simp only [blockOf, offsetOf, BitVec.toNat_setWidth, BitVec.toNat_ushiftRight,
    Nat.shiftRight_eq_div_pow] at hb ho
  have hj := j.isLt
  have hk := k.isLt
  omega

/-- The addresses of a page. -/
theorem block_add {i : Nat} (h : (memOffset addr).toNat + i < 2 ^ 16) :
    memBlock (addr + BitVec.ofNat 32 i) = memBlock addr ∧
      memOffset (addr + BitVec.ofNat 32 i) = memOffset addr + BitVec.ofNat 16 i := by
  have hAddr := addr.isLt
  simp only [memOffset, BitVec.toNat_setWidth] at h
  constructor <;> apply BitVec.eq_of_toNat_eq <;>
    simp only [memBlock, memOffset, BitVec.toNat_setWidth, BitVec.toNat_ushiftRight,
      BitVec.toNat_add, BitVec.toNat_ofNat, Nat.shiftRight_eq_div_pow] <;> omega

theorem view_tickle (addr : Word) (m : Memory) : view (tickle addr m) = view m := by
  funext j
  unfold tickle
  split
  · rename_i hNone
    unfold view
    by_cases hj : blockOf j = memBlock addr
    · simp only [hj, update_self, hNone]
      rfl
    · simp only [update_of_ne hj]
  · rfl

theorem view_track (b : Bounds) (addr : Word) (m : Memory) : view (track b addr m) = view m := by
  unfold track
  split <;> rfl

theorem tickle_table (addr : Word) (m : Memory) :
    ∃ page, (tickle addr m).table (memBlock addr) = some page := by
  unfold tickle
  split
  · exact ⟨newblock, update_self ..⟩
  · rename_i page hSome
    exact ⟨page, hSome⟩

/-- Reading from an allocated page. -/
theorem unchkRead_eq {page : Page} {size : Nat} (hPage : m.table (memBlock addr) = some page)
    (hFit : (memOffset addr).toNat + size ≤ 2 ^ 16) :
    unchkRead addr size m = .ok ((view m).bytes addr size) := by
  unfold unchkRead
  rw [hPage]
  dsimp only
  rw [if_pos hFit]
  refine congrArg Except.ok (map_congr_left fun i hi => ?_)
  obtain ⟨hBlock, hOffset⟩ := @block_add addr i
    (Nat.lt_of_lt_of_le (Nat.add_lt_add_left (mem_range.mp hi) _) hFit)
  rw [view, ← memBlock_eq, ← memOffset_eq, hBlock, hOffset, hPage]

def withPage (m : Memory) (block : BitVec 15) (page : Page) : Memory :=
  { m with table := Function.update m.table block (some page) }

/-- One byte of a page. -/
theorem view_update (m : Memory) (page : Page) (addr : Word) (x : Byte) :
    view (withPage m (memBlock addr) (Function.update page (memOffset addr) x)) =
      Function.update (view (withPage m (memBlock addr) page)) (Mem.index addr) x := by
  funext j
  by_cases hj : j = Mem.index addr
  · rw [hj, update_self, view, ← memBlock_eq, ← memOffset_eq]
    simp only [withPage, update_self]
  · rw [update_of_ne hj]
    unfold view withPage
    by_cases hBlock : blockOf j = memBlock addr
    · have hOffset : offsetOf j ≠ memOffset addr := by
        intro hEq
        rw [memBlock_eq] at hBlock
        rw [memOffset_eq] at hEq
        exact hj (eq_of_block_offset hBlock hEq)
      simp only [hBlock, update_self, update_of_ne hOffset]
    · simp only [update_of_ne hBlock]

theorem view_store {bs : List Byte} {page : Page}
    (hFit : (memOffset addr).toNat + bs.length ≤ 2 ^ 16) :
    view (withPage m (memBlock addr) (page.store (memOffset addr) bs)) =
      (view (withPage m (memBlock addr) page)).store addr bs := by
  induction bs generalizing page addr with
  | nil => rfl
  | cons x bs ih =>
    rw [Page.store, Mem.store, ← view_update]
    cases bs with
    | nil => rfl
    | cons y bs =>
      rw [length_cons, length_cons] at hFit
      obtain ⟨hBlock, hOffset⟩ := @block_add addr 1 (by omega)
      have hNext : (memOffset (addr + 1)).toNat + (y :: bs).length ≤ 2 ^ 16 := by
        change (memOffset (addr + BitVec.ofNat 32 1)).toNat + _ ≤ _
        rw [hOffset, BitVec.toNat_add, length_cons]
        have hOne : (BitVec.ofNat 16 1).toNat = 1 := rfl
        rw [hOne, Nat.mod_eq_of_lt (by omega)]
        omega
      have hStep := @ih (addr + 1) (Function.update page (memOffset addr) x) hNext
      change memBlock (addr + 1) = _ at hBlock
      change memOffset (addr + 1) = _ at hOffset
      rw [hBlock, hOffset] at hStep
      exact hStep

/-- Writing to an allocated page. -/
theorem unchkWrite_eq {page : Page} {bs : List Byte} (hPage : m.table (memBlock addr) = some page)
    (hFit : (memOffset addr).toNat + bs.length ≤ 2 ^ 16) :
    ∃ m', unchkWrite addr bs m = .ok m' ∧ view m' = (view m).store addr bs ∧
      m'.table = Function.update m.table (memBlock addr)
        (some (page.store (memOffset addr) bs)) := by
  unfold unchkWrite
  rw [hPage]
  dsimp only
  rw [if_pos hFit]
  refine ⟨_, rfl, ?_, rfl⟩
  have hSame : withPage m (memBlock addr) page = m := by
    unfold withPage
    rw [← hPage, update_eq_self]
  have hStore := @view_store m addr bs page hFit
  rw [hSame] at hStore
  exact hStore

/-! ### Accesses of the byte map -/

/-- The pages that are allocated. -/
def allocated (m : Memory) (block : BitVec 15) : Prop := (m.table block).isSome

theorem rawRead_eq {size : Nat} (hFit : (memOffset addr).toNat + size ≤ 2 ^ 16) :
    rawRead addr size m = .ok ((view m).bytes addr size, tickle addr m) := by
  obtain ⟨page, hPage⟩ := tickle_table addr m
  unfold rawRead
  dsimp only
  rw [unchkRead_eq hPage hFit, view_tickle]
  rfl

theorem rawWrite_eq {bs : List Byte} (hFit : (memOffset addr).toNat + bs.length ≤ 2 ^ 16) :
    ∃ m', rawWrite addr bs m = .ok m' ∧ view m' = (view m).store addr bs := by
  obtain ⟨page, hPage⟩ := tickle_table addr m
  obtain ⟨m', hWrite, hView, -⟩ := unchkWrite_eq hPage hFit
  exact ⟨m', hWrite, by rw [hView, view_tickle]⟩

theorem bytes_add (mem : Mem) (addr : Word) (n k : Nat) :
    mem.bytes addr (n + k) = mem.bytes addr n ++ mem.bytes (addr + BitVec.ofNat 32 n) k := by
  unfold Mem.bytes
  rw [range_add, map_append, map_map]
  refine congrArg _ (map_congr_left fun i _ => ?_)
  rw [comp_apply, BitVec.add_assoc, BitVec.ofNat_add]

theorem store_append (mem : Mem) (addr : Word) (p q : List Byte) :
    mem.store addr (p ++ q) = (mem.store addr p).store (addr + BitVec.ofNat 32 p.length) q := by
  induction p generalizing mem addr with
  | nil => rw [nil_append, length_nil, BitVec.add_zero, Mem.store]
  | cons x p ih =>
    rw [cons_append, Mem.store, ih, Mem.store, length_cons, BitVec.add_assoc,
      Nat.add_comm, BitVec.ofNat_add]
    rfl

theorem fit_word (h : addr.toNat % 4 = 0) : (memOffset addr).toNat + 4 ≤ 2 ^ 16 := by
  simp only [memOffset, BitVec.toNat_setWidth]
  omega

theorem next_word (h : addr.toNat % 4 = 0) : (addr + 4).toNat % 4 = 0 := by
  rw [BitVec.toNat_add]
  have hFour : (4 : Word).toNat = 4 := rfl
  rw [hFour]
  omega

theorem readWords_eq {words : Nat} (h : addr.toNat % 4 = 0) :
    ∃ m', readWords words addr m = .ok ((view m).bytes addr (4 * words), m') ∧ view m' = view m := by
  induction words generalizing addr m with
  | zero => exact ⟨m, rfl, rfl⟩
  | succ words ih =>
    obtain ⟨m', hRest, hView⟩ := ih (m := tickle addr m) (next_word h)
    rw [view_tickle] at hRest hView
    refine ⟨m', ?_, hView⟩
    have hLen : 4 * (words + 1) = 4 + 4 * words := by ring
    rw [readWords, rawRead_eq (fit_word h), hLen, bytes_add]
    show (readWords words (addr + 4) (tickle addr m) >>= _) = _
    rw [hRest]
    rfl

theorem writeWords_eq {words : Nat} (h : addr.toNat % 4 = 0)
    (hLen : p.length = 4 * words) :
    ∃ m', writeWords words addr p m = .ok m' ∧ view m' = (view m).store addr p := by
  induction words generalizing addr m p with
  | zero =>
    rw [Nat.mul_zero, length_eq_zero_iff] at hLen
    exact ⟨m, rfl, by rw [hLen]; rfl⟩
  | succ words ih =>
    have hTake : (p.take 4).length = 4 := by
      rw [length_take]
      omega
    have hFit := fit_word h
    rw [← hTake] at hFit
    obtain ⟨m₁, hWrite, hView₁⟩ := rawWrite_eq (m := m) hFit
    obtain ⟨m', hRest, hView⟩ := ih (m := m₁) (p := p.drop 4) (next_word h) (by
      rw [length_drop]
      omega)
    refine ⟨m', ?_, ?_⟩
    · rw [writeWords, hWrite]
      exact hRest
    · rw [hView, hView₁]
      have hSplit := store_append (view m) addr (p.take 4) (p.drop 4)
      rw [take_append_drop, hTake] at hSplit
      exact hSplit.symm

theorem aligned_spec (hPos : 0 < nbytes) (hInt : nbytes < 2 ^ 31) :
    aligned addr nbytes = true ↔ nbytes.isPowerOfTwo ∧ nbytes ∣ addr.toNat := by
  rw [← aligned_iff hPos hInt, aligned, Bool.not_eq_true', Bool.or_eq_false_iff, not_or,
    bne_eq_false_iff_eq, bne_eq_false_iff_eq, not_not, not_not]

/-- A small aligned access stays in its page. -/
theorem fit_of_dvd {size : Nat} (hSize : size = 1 ∨ size = 2 ∨ size = 4)
    (h : size ∣ addr.toNat) : (memOffset addr).toNat + size ≤ 2 ^ 16 := by
  simp only [memOffset, BitVec.toNat_setWidth]
  rcases hSize with rfl | rfl | rfl <;> omega

/-- The other sizes are whole words. -/
theorem words_of_pow (hPow : nbytes.isPowerOfTwo)
    (hSize : ¬ (nbytes = 1 ∨ nbytes = 2 ∨ nbytes = 4)) :
    4 ∣ nbytes ∧ 4 * (nbytes >>> 2) = nbytes := by
  obtain ⟨k, rfl⟩ := hPow
  match k with
  | 0 => exact absurd (.inl rfl) hSize
  | 1 => exact absurd (.inr (.inl rfl)) hSize
  | k + 2 =>
    have hFour : 2 ^ (k + 2) = 4 * 2 ^ k := by rw [Nat.pow_add, Nat.mul_comm]
    rw [hFour, Nat.shiftRight_eq_div_pow]
    exact ⟨Nat.dvd_mul_right _ _, by rw [Nat.mul_div_cancel_left _ (by norm_num)]⟩

theorem access_read_eq (hPos : 0 < nbytes) (hInt : nbytes < 2 ^ 31)
    (hAlign : aligned addr nbytes = true) (hPermit : b.permits .read addr = true) :
    ∃ m', access b .read addr p nbytes m = .ok ((view m).bytes addr nbytes, m') ∧
      view m' = view m := by
  obtain ⟨hPow, hDvd⟩ := (aligned_spec hPos hInt).mp hAlign
  unfold access
  rw [hAlign, hPermit]
  dsimp only [Bool.not_true]
  rw [if_neg (by decide), if_neg (by decide), ← view_track b addr m]
  split
  · rename_i hSize
    exact ⟨_, rawRead_eq (fit_of_dvd hSize hDvd), view_tickle _ _⟩
  · rename_i hSize
    obtain ⟨hFour, hWords⟩ := words_of_pow hPow hSize
    obtain ⟨m', hRead, hView⟩ := @readWords_eq (track b addr m) addr (nbytes >>> 2)
      (Nat.mod_eq_zero_of_dvd (hFour.trans hDvd))
    rw [hWords] at hRead
    exact ⟨m', hRead, hView⟩

theorem access_write_eq (hPos : 0 < nbytes) (hInt : nbytes < 2 ^ 31)
    (hLen : p.length = nbytes) (hAlign : aligned addr nbytes = true)
    (hPermit : b.permits .write addr = true) :
    ∃ m', access b .write addr p nbytes m = .ok (p, m') ∧ view m' = (view m).store addr p := by
  obtain ⟨hPow, hDvd⟩ := (aligned_spec hPos hInt).mp hAlign
  unfold access
  rw [hAlign, hPermit]
  dsimp only [Bool.not_true]
  rw [if_neg (by decide), if_neg (by decide), ← view_track b addr m]
  split
  · rename_i hSize
    have hFit := fit_of_dvd hSize hDvd
    rw [← hLen] at hFit
    obtain ⟨m', hWrite, hView⟩ := rawWrite_eq (m := track b addr m) hFit
    exact ⟨m', by rw [hWrite]; rfl, hView⟩
  · rename_i hSize
    obtain ⟨hFour, hWords⟩ := words_of_pow hPow hSize
    obtain ⟨m', hWrite, hView⟩ := writeWords_eq (m := track b addr m)
      (Nat.mod_eq_zero_of_dvd (hFour.trans hDvd)) (hLen.trans hWords.symm)
    exact ⟨m', by rw [hWrite]; rfl, hView⟩

end Paged

/-- The bounds after loading. -/
def Segments.bounds (ld : Segments) (brkPoint : Word) : Bounds :=
  ⟨textBase, ld.textSize, dataBase, stackBase, brkPoint⟩

namespace Paged

variable {m : Memory} {addr : Word}

open Outcome

/-- **An access is one of the byte map**, with the bounds of a loaded program. -/
theorem access_view (ld : Segments) (brkPoint : Word) {cmd : MemCmd}
    (hPos : 0 < nbytes) (hInt : nbytes < 2 ^ 31)
    (hLen : cmd = .write → p.length = nbytes) :
    Agree (fun x y => x.1 = y.1 ∧ view x.2 = y.2) Eq
      (access (ld.bounds brkPoint) cmd addr p nbytes m) (memAccess ld cmd addr p nbytes (view m)) := by
  have hSame : memAligned addr nbytes = aligned addr nbytes := by
    rw [Bool.eq_iff_iff, aligned_spec hPos hInt]
    simp only [memAligned, Bool.and_eq_true, beq_iff_eq]
    rw [Nat.and_sub_one_eq_zero_iff_isPowerOfTwo hPos.ne']
    refine and_congr_right fun hPow => ?_
    obtain ⟨k, hk⟩ := hPow
    rw [hk, Nat.and_two_pow_sub_one_eq_mod, Nat.dvd_iff_mod_eq_zero]
  have hPermits : memPermitted ld cmd addr = (ld.bounds brkPoint).permits cmd addr := rfl
  unfold memAccess
  rw [hSame, hPermits]
  cases hAlign : aligned addr nbytes with
  | false =>
    unfold access
    rw [hAlign]
    rfl
  | true =>
    cases hPermit : (ld.bounds brkPoint).permits cmd addr with
    | false =>
      unfold access
      rw [hAlign, hPermit]
      rfl
    | true =>
      cases cmd with
      | read =>
        obtain ⟨m', hRead, hView⟩ := access_read_eq (m := m) (p := p) hPos hInt hAlign hPermit
        rw [hRead]
        exact ⟨rfl, hView⟩
      | write =>
        obtain ⟨m', hWrite, hView⟩ := access_write_eq (m := m) hPos hInt (hLen rfl) hAlign hPermit
        rw [hWrite]
        exact ⟨rfl, hView⟩

/-- The first access to a page. -/
theorem access_view_first : Agree (fun x y => x.1 = y.1 ∧ view x.2 = y.2) Eq
    (access (Segments.bounds ⟨0, 0⟩ 0x10001000) .write 0x10000ffc [1, 2, 3, 4] 4 init)
    (memAccess ⟨0, 0⟩ .write 0x10000ffc [1, 2, 3, 4] 4 (view init)) :=
  access_view ⟨0, 0⟩ _ (by decide) (by decide) fun _ => rfl

/-! ### Runs -/

inductive Op where
  | access (cmd : MemCmd) (addr : Word) (p : List Byte) (nbytes : Nat)
  | read (w : Width) (addr : Word)
  | write (w : Width) (addr v : Word)

/-- What an operation returns: a buffer, or the value of a macro. -/
inductive Output where
  | buf (p : List Byte)
  | value (v : Word)
  | done
  deriving DecidableEq, Repr

/-- One operation, with the bounds at its time. -/
def step (bigEndian : Bool) : Bounds × Op → Memory → Except Stop (Output × Memory)
  | (b, .access cmd addr p nbytes), m => do
    let (p, m) ← access b cmd addr p nbytes m
    return (.buf p, m)
  | (b, .read w addr), m => do
    let (v, m) ← memRead b bigEndian w addr m
    return (.value v, m)
  | (b, .write w addr v), m => do
    let m ← memWrite b bigEndian w addr v m
    return (.done, m)

def run (bigEndian : Bool) : List (Bounds × Op) → Memory → Except Stop (List Output × Memory)
  | [], m => .ok ([], m)
  | op :: ops, m => do
    let (o, m) ← step bigEndian op m
    let (os, m) ← run bigEndian ops m
    return (o :: os, m)

/-- The operation passes the checks, and its size is at most that of a page. -/
def Accepted : Bounds × Op → Prop
  | (b, .access cmd addr p nbytes) => (0 < nbytes ∧ nbytes ≤ 2 ^ 16) ∧ aligned addr nbytes = true ∧
      b.permits cmd addr = true ∧ (cmd = .write → p.length = nbytes)
  | (b, .read w addr) => aligned addr w.size = true ∧ b.permits .read addr = true
  | (b, .write w addr _) => aligned addr w.size = true ∧ b.permits .write addr = true

/-- The bytes of a buffer with their addresses. -/
def entries (addr : Word) : List Byte → List (BitVec 31 × Byte)
  | [] => []
  | b :: bs => (Mem.index addr, b) :: entries (addr + 1) bs

/-- The bytes an operation writes, with their addresses. -/
def written (bigEndian : Bool) : Op → List (BitVec 31 × Byte)
  | .access .write addr p _ => entries addr p
  | .write w addr v => entries addr (split bigEndian w.size v.toNat)
  | .access .read _ _ _ => []
  | .read _ _ => []

/-- The value most recently written to a byte address, or 0. -/
def lastWritten (bigEndian : Bool) (ops : List Op) (j : BitVec 31) : Byte :=
  (((ops.flatMap (written bigEndian)).reverse.find? fun e => e.1 == j).map Prod.snd).getD 0

/-- What an operation returns after others. -/
def expected (bigEndian : Bool) (before : List Op) : Op → Output
  | .access .read addr _ nbytes => .buf (Mem.bytes (lastWritten bigEndian before) addr nbytes)
  | .access .write _ p _ => .buf p
  | .read w addr =>
    .value (BitVec.ofNat 32 (join bigEndian (Mem.bytes (lastWritten bigEndian before) addr w.size)))
  | .write _ _ _ => .done

theorem foldl_update_apply (l : List (BitVec 31 × Byte)) (mem : Mem) (j : BitVec 31) :
    l.foldl (fun mem e => Function.update mem e.1 e.2) mem j =
      ((l.reverse.find? fun e => e.1 == j).map Prod.snd).getD (mem j) := by
  induction l using List.reverseRecOn with
  | nil => rfl
  | append_singleton l e ih =>
    rw [foldl_append, foldl_cons, foldl_nil, reverse_append,
      reverse_singleton, singleton_append, List.find?_cons]
    by_cases hj : e.1 = j
    · rw [← hj, update_self, beq_self_eq_true]
      rfl
    · rw [update_of_ne (Ne.symm hj), ih, beq_eq_false_iff_ne.mpr hj]

theorem store_eq_foldl (p : List Byte) (mem : Mem) (addr : Word) :
    mem.store addr p = (entries addr p).foldl (fun mem e => Function.update mem e.1 e.2) mem := by
  induction p generalizing mem addr with
  | nil => rfl
  | cons x p ih => rw [Mem.store, ih, entries, foldl_cons]

theorem lastWritten_eq_foldl (bigEndian : Bool) (ops : List Op) :
    lastWritten bigEndian ops = (ops.flatMap (written bigEndian)).foldl
      (fun mem e => Function.update mem e.1 e.2) fun _ => 0 := by
  funext j
  rw [foldl_update_apply]
  rfl

/-- One more operation. -/
theorem lastWritten_snoc (bigEndian : Bool) (ops : List Op) (op : Op) :
    lastWritten bigEndian (ops ++ [op]) = (written bigEndian op).foldl
      (fun mem e => Function.update mem e.1 e.2) (lastWritten bigEndian ops) := by
  rw [lastWritten_eq_foldl, lastWritten_eq_foldl, flatMap_append, foldl_append,
    flatMap_singleton]

theorem view_init : view init = fun _ => 0 := rfl

theorem Width.size_cases (w : Width) : w.size = 1 ∨ w.size = 2 ∨ w.size = 4 := by
  cases w <;> simp [Width.size]

theorem length_split (bigEndian : Bool) (nbytes v : Nat) :
    (split bigEndian nbytes v).length = nbytes := by
  unfold split
  cases bigEndian <;> simp

theorem valid_eq {b : Bounds} {cmd : MemCmd} (hAlign : aligned addr nbytes = true)
    (hPermit : b.permits cmd addr = true) : valid b cmd addr nbytes m = .ok (track b addr m) := by
  unfold valid
  rw [hAlign, hPermit]
  rfl

theorem Width.fit {w : Width} (h : aligned addr w.size = true) :
    (memOffset addr).toNat + w.size ≤ 2 ^ 16 := by
  have hSize := w.size_cases
  exact fit_of_dvd hSize ((aligned_spec (by omega) (by omega)).mp h).2

/-- **One operation**: it returns what is expected, and is the last write then. -/
theorem step_eq {bigEndian : Bool} {before : List Op} {op : Bounds × Op} (hOp : Accepted op)
    (hView : view m = lastWritten bigEndian before) :
    ∃ m', step bigEndian op m = .ok (expected bigEndian before op.2, m') ∧
      view m' = lastWritten bigEndian (before ++ [op.2]) := by
  obtain ⟨b, op⟩ := op
  rw [lastWritten_snoc, ← hView]
  cases op with
  | access cmd addr p nbytes =>
    obtain ⟨⟨hPos, hLe⟩, hAlign, hPermit, hLen⟩ := hOp
    cases cmd with
    | read =>
      obtain ⟨m', hRead, hSame⟩ := access_read_eq (m := m) (p := p) hPos (by omega) hAlign hPermit
      refine ⟨m', ?_, hSame⟩
      rw [step, hRead, expected, ← hView]
      rfl
    | write =>
      obtain ⟨m', hWrite, hStore⟩ := access_write_eq (m := m) hPos (by omega) (hLen rfl) hAlign hPermit
      refine ⟨m', by rw [step, hWrite]; rfl, ?_⟩
      rw [hStore, store_eq_foldl]
      rfl
  | read w addr =>
    obtain ⟨hAlign, hPermit⟩ := hOp
    refine ⟨tickle addr (track b addr m), ?_, by rw [view_tickle, view_track]; rfl⟩
    rw [step, memRead, valid_eq hAlign hPermit, expected, ← hView]
    show (rawRead addr w.size (track b addr m) >>= _ >>= _) = _
    rw [rawRead_eq (Width.fit hAlign), view_track]
    rfl
  | write w addr v =>
    obtain ⟨hAlign, hPermit⟩ := hOp
    have hFit := Width.fit hAlign
    rw [← length_split bigEndian w.size v.toNat] at hFit
    obtain ⟨m', hWrite, hStore⟩ := rawWrite_eq (m := track b addr m) hFit
    refine ⟨m', ?_, ?_⟩
    · rw [step, memWrite, valid_eq hAlign hPermit]
      show (rawWrite addr (split bigEndian w.size v.toNat) (track b addr m) >>= _) = _
      rw [hWrite]
      rfl
    · rw [hStore, view_track, store_eq_foldl]
      rfl

/-- **Paged memory refines the byte map.**  Every accepted operation returns, and a read returns
the values most recently written to its bytes or 0, whichever operations wrote them and whichever
pages have been allocated. -/
theorem paged_refines_flat (bigEndian : Bool) (ops : List (Bounds × Op))
    (hOps : ∀ op ∈ ops, Accepted op) :
    ∃ outs m, run bigEndian ops init = .ok (outs, m) ∧ outs.length = ops.length ∧
      ∀ k (hk : k < ops.length),
        outs[k]? = some (expected bigEndian ((ops.take k).map Prod.snd) ops[k].2) := by
  suffices hGen : ∀ (ops : List (Bounds × Op)) (before : List Op) (m : Memory),
      (∀ op ∈ ops, Accepted op) → view m = lastWritten bigEndian before →
      ∃ outs m', run bigEndian ops m = .ok (outs, m') ∧ outs.length = ops.length ∧
        ∀ k (hk : k < ops.length), outs[k]? =
          some (expected bigEndian (before ++ (ops.take k).map Prod.snd) ops[k].2) by
    exact hGen ops [] init hOps view_init
  intro ops
  induction ops with
  | nil =>
    intro before m _ _
    exact ⟨[], m, rfl, rfl, fun k hk => absurd hk (Nat.not_lt_zero k)⟩
  | cons op ops ih =>
    intro before m hOps hView
    obtain ⟨m₁, hStep, hView₁⟩ := step_eq (hOps op (by simp)) hView
    obtain ⟨outs, m', hRun, hLen, hOuts⟩ :=
      ih (before ++ [op.2]) m₁ (fun op' h => hOps op' (by simp [h])) hView₁
    refine ⟨expected bigEndian before op.2 :: outs, m', ?_, by simp [hLen], fun k hk => ?_⟩
    · rw [run, hStep]
      show (run bigEndian ops m₁ >>= _) = _
      rw [hRun]
      rfl
    · cases k with
      | zero => simp
      | succ k =>
        have hNext := hOuts k (by simpa using hk)
        rw [append_assoc] at hNext
        simpa using hNext

/-- Text may be read, data and stack read and written. -/
def smallBounds : Bounds := ⟨0x00400000#32, 0x1000#32, 0x10000000#32, 0x7fffc000#32, 0x10010000#32⟩

/-- A half word written by a macro into a page, read back by an eight byte access. -/
theorem paged_refines_flat_half :
    ∃ outs m, run false [(smallBounds, .write .half 0x10000002#32 0xabcd#32),
        (smallBounds, .access .read 0x10000000#32 [] 8)] init = .ok (outs, m) ∧
      outs[1]? = some (.buf [0, 0, 0xcd#8, 0xab#8, 0, 0, 0, 0]) := by
  obtain ⟨outs, m, hRun, -, hOuts⟩ := paged_refines_flat false
    [(smallBounds, .write .half 0x10000002#32 0xabcd#32),
      (smallBounds, .access .read 0x10000000#32 [] 8)] (by
      intro op hop
      simp only [mem_cons, not_mem_nil, or_false] at hop
      rcases hop with rfl | rfl
      · exact ⟨by decide, by decide⟩
      · exact ⟨by decide, by decide, by decide, fun h => by cases h⟩)
  refine ⟨outs, m, hRun, ?_⟩
  rw [hOuts 1 (by decide)]
  decide

end Paged

end SimpleScalar

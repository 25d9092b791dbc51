import SimpleScalar.Loader

/-!
# The segment profile of `sim-profile`

`bind_to_seg` sorts the address of a load or store into data, heap and stack: the data
segment ends where the loader says, the heap at the break, and the stack begins at the lowest
address above the break that was ever accessed.  `mem_valid` keeps that minimum, and only
`brk` moves the break, upwards.

Two kinds of addresses that `mem_valid` accepts belong nowhere.  The text segment may be read.
An address equal to the break is not below it, so it is not heap, and not above it, so the
minimum does not follow.

* `Runs.inv`: in every run the data segment ends at or below the break, and the stack begins
  above the text segment.
* `bindToSeg_iff`: an accepted address is bound exactly if it is `Bindable`.
-/

namespace SimpleScalar.SegProfile

open Paged Segments Loader

/-- `enum addr_seg_t`. -/
inductive AddrSeg where
  | data
  | heap
  | stack
  deriving DecidableEq, Repr

/-- The sizes of the segments and the variables of `memory.c`. -/
structure State where
  ld : Segments
  dataSize : Word
  brkPoint : Word
  mem : Memory

def State.bounds (s : State) : Bounds := s.ld.bounds s.brkPoint

def State.dataEnd (s : State) : Word := dataBase + s.dataSize

/-- `bind_to_seg`. -/
def bindToSeg (s : State) (addr : Word) : Except Stop AddrSeg :=
  if dataBase ≤ addr ∧ addr < s.dataEnd then .ok .data
  else if s.dataEnd ≤ addr ∧ addr < s.brkPoint then .ok .heap
  else if s.mem.stackMin ≤ addr ∧ addr < stackBase then .ok .stack
  else .error (.panic "cannot bind address to segment")

/-- `ROUND_UP` to `SS_PAGE_SIZE`. -/
def roundUp (n : Word) : Word := (n + 4095) &&& ~~~4095

/-- `mem_init1`; `regs_init` has set the stack pointer to the base of the environment. -/
def memInit1 (ld : Segments) (dataSize : Word) (table : BitVec 15 → Option Page) : State :=
  ⟨ld, dataSize, roundUp (dataBase + dataSize), ⟨table, environBase⟩⟩

/-- What `mem_valid` tests. -/
def State.accepts (s : State) (cmd : MemCmd) (addr : Word) (nbytes : Nat) : Bool :=
  aligned addr nbytes && s.bounds.permits cmd addr

/-- The change of the state by `mem_valid`, whatever it answers. -/
def State.accessed (s : State) (addr : Word) : State := { s with mem := track s.bounds addr s.mem }

/-- What changes the variables: accesses, writes to pages, and the system call `brk` with the
argument `base`, when the program's stack pointer is `sp`. -/
inductive Step (s : State) : State → Prop where
  | access (addr : Word) : Step s (s.accessed addr)
  | write (table : BitVec 15 → Option Page) : Step s { s with mem := ⟨table, s.mem.stackMin⟩ }
  | brk (base sp : Word) : Step s
      (if s.brkPoint ≤ roundUp base ∧ roundUp base < sp then { s with brkPoint := roundUp base } else s)

/-- The states of a run of a program whose data segment, rounded up, ends below `2 ^ 32`. -/
inductive Runs : State → Prop where
  | init (ld : Segments) (dataSize : Word) (table : BitVec 15 → Option Page)
      (h : dataBase.toNat + dataSize.toNat + 4095 < 2 ^ 32) : Runs (memInit1 ld dataSize table)
  | step {s s' : State} : Runs s → Step s s' → Runs s'

/-- The address is above the text segment, and not the break unless that is inside the data
segment or the stack. -/
def Bindable (s : State) (addr : Word) : Prop :=
  dataBase ≤ addr ∧ (addr < s.brkPoint ∨ addr < stackBase) ∧
    ¬ (addr = s.brkPoint ∧ s.dataEnd ≤ addr ∧ addr < s.mem.stackMin)

instance (s : State) (addr : Word) : Decidable (Bindable s addr) := by
  unfold Bindable
  infer_instance

theorem le_roundUp {n : Word} (h : n.toNat + 4095 < 2 ^ 32) : n ≤ roundUp n := by
  have hShift : roundUp n = ((n + 4095) >>> 12) <<< 12 := by
    have hMask : (~~~4095 : Word) = BitVec.allOnes 32 <<< 12 := by decide
    unfold roundUp
    rw [hMask]
    ext i hi
    simp only [BitVec.getElem_and, BitVec.getElem_shiftLeft, BitVec.getElem_ushiftRight,
      BitVec.getElem_allOnes]
    by_cases hLow : i < 12
    · simp only [hLow, decide_true, Bool.not_true, Bool.false_and, Bool.and_false]
    · rw [show 12 + (i - 12) = i by omega, BitVec.getLsbD_eq_getElem hi]
      simp only [hLow, decide_false, Bool.not_false, Bool.true_and, Bool.and_true]
  rw [BitVec.le_def, hShift, BitVec.toNat_shiftLeft, BitVec.toNat_ushiftRight, BitVec.toNat_add,
    Nat.shiftLeft_eq, Nat.shiftRight_eq_div_pow]
  change n.toNat ≤ (n.toNat + 4095) % 2 ^ 32 / 2 ^ 12 * 2 ^ 12 % 2 ^ 32
  omega

/-- The segments are in their order. -/
structure Inv (s : State) : Prop where
  data : dataBase ≤ s.dataEnd
  heap : s.dataEnd ≤ s.brkPoint
  stack : dataBase ≤ s.mem.stackMin

theorem Step.inv {s s' : State} (h : Step s s') (hInv : Inv s) : Inv s' := by
  cases h with
  | access addr =>
    refine { hInv with stack := ?_ }
    unfold State.accessed track
    split
    · rename_i hLow
      exact BitVec.le_trans hInv.data (BitVec.le_trans hInv.heap (BitVec.le_of_lt hLow.1))
    · exact hInv.stack
  | write table => exact { hInv with }
  | brk base sp =>
    split
    · rename_i hGrow
      exact { hInv with heap := BitVec.le_trans hInv.heap hGrow.1 }
    · exact hInv

/-- The data segment never reaches past the break, nor the stack below the data segment. -/
theorem Runs.inv {s : State} (h : Runs s) : Inv s := by
  induction h with
  | init ld dataSize table h =>
    have hEnd : (dataBase + dataSize).toNat = dataBase.toNat + dataSize.toNat := by
      rw [BitVec.toNat_add, Nat.mod_eq_of_lt (by omega)]
    have hRound : dataBase + dataSize ≤ roundUp (dataBase + dataSize) := le_roundUp (by omega)
    refine ⟨?_, hRound, BitVec.le_def.mpr (by decide : dataBase.toNat ≤ environBase.toNat)⟩
    unfold State.dataEnd memInit1
    rw [BitVec.le_def, hEnd]
    omega
  | step _ hStep ih => exact hStep.inv ih

/-- Above the break, an access lowers the beginning of the stack as far as it takes. -/
theorem stackMin_le {s : State} {addr : Word} (h : s.brkPoint < addr) :
    (s.accessed addr).mem.stackMin ≤ addr := by
  unfold State.accessed track
  split
  · exact BitVec.le_refl _
  · rename_i hMin
    exact BitVec.not_lt.mp fun hLt => hMin ⟨h, hLt⟩

/-- **Segment profiling.**  In every state of a run, `bind_to_seg` binds the addresses that are
`Bindable` and no others, after their access. -/
theorem bindToSeg_iff (s : State) (h : Runs s) (addr : Word) :
    (∃ seg, bindToSeg (s.accessed addr) addr = .ok seg) ↔ Bindable (s.accessed addr) addr := by
  obtain ⟨hData, hHeap, hStack⟩ := (h.step (.access addr)).inv
  have hMin : (s.accessed addr).brkPoint < addr → (s.accessed addr).mem.stackMin ≤ addr :=
    stackMin_le (s := s)
  generalize s.accessed addr = s at *
  unfold bindToSeg Bindable
  simp only [BitVec.le_def, BitVec.lt_def, ← BitVec.toNat_inj] at hData hHeap hStack hMin ⊢
  split_ifs
  · simp only [Except.ok.injEq, exists_eq', true_iff]
    omega
  · simp only [Except.ok.injEq, exists_eq', true_iff]
    omega
  · simp only [Except.ok.injEq, exists_eq', true_iff]
    omega
  · simp only [exists_false, false_iff]
    omega

/-- A program with 4096 bytes of text and 16 bytes of data, at its start. -/
def small : State := memInit1 ⟨0x1000, 0⟩ 0x10 fun _ => none

theorem runs_small : Runs small := .init _ _ _ (by decide)

theorem bindToSeg_small : Runs small ∧ small.accepts .write 0x10000800 4 ∧
    ∃ seg, bindToSeg (small.accessed 0x10000800) 0x10000800 = .ok seg :=
  ⟨runs_small, by decide, (bindToSeg_iff small runs_small 0x10000800).mpr (by decide)⟩

/-- A store to the break and a load from the text segment end in a panic. -/
theorem bindToSeg_panics : Runs small ∧ small.accepts .write 0x10001000 4 ∧
    bindToSeg (small.accessed 0x10001000) 0x10001000 =
      .error (.panic "cannot bind address to segment") ∧
    small.accepts .read 0x400000 4 ∧
    bindToSeg (small.accessed 0x400000) 0x400000 =
      .error (.panic "cannot bind address to segment") :=
  ⟨runs_small, by decide, by decide, by decide, by decide⟩

end SimpleScalar.SegProfile

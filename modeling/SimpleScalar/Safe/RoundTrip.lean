import SimpleScalar.Safe.AutoUpdate
import SimpleScalar.Lib.Cursor
import SimpleScalar.Arithmetic

/-!
# Storing a list and reading it back

A list of values is stored with an auto-update store, one value after the other, and read back
with the auto-update load of the same class from the same base.

The two loops are a cursor over memory (`Cursor.fill`, `Cursor.read`), whose position is the base
register.  All addresses are in the data and stack segments, so that the steps of the cursor never
wrap, and its elements do not overlap (`apart_of_lt`).

* `roundTrip_iff`: the list comes back, and the base register moves by the width of the access each
  time, but for the displacement store of a double; and register 0, which is no base, since it does
  not keep its steps.
-/

namespace SimpleScalar

open List

namespace Datum

/-- What comes back of a value: a byte or a half of it, extended as the load does. -/
def fit : Datum → Word × Word → Word × Word
  | byte true, v => ((v.1.setWidth 8).signExtend 32, 0)
  | byte false, v => ((v.1.setWidth 8).setWidth 32, 0)
  | half true, v => ((v.1.setWidth 16).signExtend 32, 0)
  | half false, v => ((v.1.setWidth 16).setWidth 32, 0)
  | word, v | single, v => (v.1, 0)
  | pair, v | double, v => v

/-- The width of the access, in the direction of the mode. -/
def move (d : Datum) (mode : ℕ) : Word :=
  if mode = 1 ∨ mode = 3 then BitVec.ofNat 32 d.width else -BitVec.ofNat 32 d.width

/-- The data registers can hold the value: register 0 only holds zero. -/
def Holds (d : Datum) (inst : Inst) (v : Word × Word) : Prop :=
  d.float = false → inst.rt = 0 → v.1 = 0

end Datum

namespace Safe

variable {pf : Platform}

namespace Exec

def setReg (x : Exec pf) (d : Datum) (n : ℕ) (v : Word) : Exec pf :=
  if h : n < 32 then x.put (d.reg ⟨n, h⟩) v else x

/-- A value in the data registers. -/
def hold (x : Exec pf) (d : Datum) (inst : Inst) (v : Word × Word) : Exec pf :=
  let x := x.setReg d inst.rt v.1
  if d.wide then x.setReg d (inst.rt + 1) v.2 else x

/-- `regs_R[0] = 0`, before every instruction. -/
def zeroR0 (x : Exec pf) : Exec pf := { x with arch := x.arch.zeroR0 }

end Exec

section Loops

variable (ld : Segments) (c : Engine) (pc : Word) (d : Datum) (f : Form) (inst : Inst)

/-- The values are stored one after the other.  The list has the changes of the base register. -/
def storeAll : List (Word × Word) → Exec pf → Except Stop (List Word × Exec pf)
  | [], x => .ok ([], x)
  | v :: vs, x => do
    let x := (x.hold d inst v).zeroR0
    let y ← run pf ld inst pc ((d.storeOp f).expr c inst) x
    let r ← storeAll vs y
    return ((gprOf y.arch.regs inst.rs - gprOf x.arch.regs inst.rs) :: r.1, r.2)

/-- As many values are loaded as asked for, with the changes of the base register. -/
def loadAll : ℕ → Exec pf → Except Stop (List ((Word × Word) × Word) × Exec pf)
  | 0, x => .ok ([], x)
  | n + 1, x => do
    let x := x.zeroR0
    let y ← run pf ld inst pc ((d.loadOp f).expr c inst) x
    let r ← loadAll n y
    return ((d.value inst y.arch.regs, gprOf y.arch.regs inst.rs - gprOf x.arch.regs inst.rs) :: r.1,
      r.2)

/-- The values come back, and each access moves the base register by the width. -/
def RoundTrip (x : Exec pf) (vs : List (Word × Word)) : Prop :=
  ∃ moves y, storeAll ld c pc d f inst vs x = .ok (moves, y) ∧
    (∀ m ∈ moves, m = d.move inst.compOp) ∧
    ∃ z, loadAll ld c pc d f inst vs.length
        (y.setReg .word inst.rs (gprOf x.arch.regs inst.rs)) =
      .ok (vs.map fun v => (d.fit v, d.move inst.compOp), z)

end Loops

variable {ld : Segments} {c : Engine} {pc : Word} {d : Datum} {f : Form} {inst : Inst}
  {x y : Exec pf}

/-! ### Registers before an instruction -/

/-- An integer register, as an instruction finds it. -/
def start (g : Reg → Word) (n : ℕ) : Word := if n = 0 then 0 else gprOf g n

theorem gprOf_zeroR0 (x : Exec pf) (n : ℕ) : gprOf x.zeroR0.arch.regs n = start x.arch.regs n := by
  unfold start gprOf
  by_cases hn : n = 0
  · subst hn
    rfl
  · rw [if_neg hn]
    split
    · refine Arch.zeroR0_regs_of_ne fun h => hn ?_
      exact congrArg Fin.val (Reg.r.inj h)
    · rfl

theorem gprOf_setReg {n k : ℕ} {v : Word} (h : d.float = false → k ≠ n) :
    gprOf (x.setReg d n v).arch.regs k = gprOf x.arch.regs k := by
  unfold Exec.setReg
  split
  · rename_i hn
    unfold gprOf
    split
    · rename_i hk
      exact regs_put_of_ne (reg_ne_gpr (fun hFloat => (h hFloat).symm) hn hk).symm v
    · rfl
  · rfl

variable {v : Word × Word}

theorem gprOf_hold {k : ℕ} (h : d.float = false → k ≠ inst.rt ∧ (d.wide = true → k ≠ inst.rt + 1)) :
    gprOf (x.hold d inst v).arch.regs k = gprOf x.arch.regs k := by
  unfold Exec.hold
  have hFirst := @gprOf_setReg pf d x inst.rt k v.1 fun hFloat => (h hFloat).1
  split
  · rename_i hWide
    exact (gprOf_setReg fun hFloat => (h hFloat).2 hWide).trans hFirst
  · exact hFirst

variable {n : ℕ}

variable {g g' : Reg → Word}

theorem start_congr (h : gprOf g n = gprOf g' n) :
    start g n = start g' n := by
  unfold start
  rw [h]

theorem start_of_gprOf (h : gprOf g n = start g' n) :
    start g n = start g' n := by
  unfold start at h ⊢
  split
  · rfl
  · rename_i hn
    rwa [if_neg hn] at h

theorem mem_hold : (x.hold d inst v).zeroR0.arch.mem = x.arch.mem := by
  have hSet : ∀ (z : Exec pf) n w, (z.setReg d n w).arch.mem = z.arch.mem := by
    intro z n w
    unfold Exec.setReg
    split <;> rfl
  change (x.hold d inst v).arch.mem = _
  unfold Exec.hold
  split
  · exact (hSet _ _ _).trans (hSet _ _ _)
  · exact hSet _ _ _

section Held

variable {n k : ℕ} {v : Word}

theorem regOf_zeroR0 (h : d.float = false → n ≠ 0) :
    d.regOf x.zeroR0.arch.regs n = d.regOf x.arch.regs n := by
  unfold Datum.regOf
  split
  · exact Arch.zeroR0_regs_of_ne (reg_ne_gpr h _ (by decide))
  · rfl

theorem regOf_zeroR0_zero (h : d.float = false) : d.regOf x.zeroR0.arch.regs 0 = 0 := by
  unfold Datum.regOf Datum.reg
  simp [h, Exec.zeroR0, Arch.zeroR0, Arch.setReg]

theorem regOf_setReg_self (hn : n < 32) : d.regOf (x.setReg d n v).arch.regs n = v := by
  rw [regOf_of_lt hn, Exec.setReg, dif_pos hn, regs_put]

theorem regOf_setReg_of_ne (h : k ≠ n) :
    d.regOf (x.setReg d n v).arch.regs k = d.regOf x.arch.regs k := by
  unfold Exec.setReg
  split
  · unfold Datum.regOf
    split
    · exact regs_put_of_ne (fun hEq => h (congrArg Fin.val (reg_inj hEq))) v
    · rfl
  · rfl

variable {bigEndian : Bool} {swap : ℕ} {v : Word × Word}

/-- The instruction finds the value in the data registers. -/
theorem encode_hold (hUsable : Usable d f inst) (hHolds : d.Holds inst v) :
    d.encode bigEndian swap (d.value inst (x.hold d inst v).zeroR0.arch.regs) =
      d.encode bigEndian swap v := by
  have hFirst : d.regOf (x.hold d inst v).arch.regs inst.rt = v.1 := by
    unfold Exec.hold
    split
    · rw [regOf_setReg_of_ne (Nat.succ_ne_self _).symm, regOf_setReg_self hUsable.rt]
    · rw [regOf_setReg_self hUsable.rt]
  have hData : d.regOf (x.hold d inst v).zeroR0.arch.regs inst.rt = v.1 := by
    by_cases hZero : d.float = false ∧ inst.rt = 0
    · rw [hZero.2, regOf_zeroR0_zero hZero.1, hHolds hZero.1 hZero.2]
    · rw [regOf_zeroR0 fun hFloat hRt => hZero ⟨hFloat, hRt⟩, hFirst]
  cases hWide : d.wide with
  | false => simp only [Datum.encode, Datum.value, hWide, hData, Bool.false_eq_true, if_false]
  | true =>
    have hRt : inst.rt + 1 < 32 := by
      have := hUsable.rt
      have := hUsable.even hWide
      omega
    have hSecond : d.regOf (x.hold d inst v).zeroR0.arch.regs (inst.rt + 1) = v.2 := by
      rw [regOf_zeroR0 fun _ => Nat.succ_ne_zero _, Exec.hold, if_pos hWide, regOf_setReg_self hRt]
    simp only [Datum.encode, Datum.value, hWide, hData, hSecond, if_true]

end Held

/-! ### The cursor -/

/-- The base register before the next access; register 0 is zero again. -/
def advance (d : Datum) (inst : Inst) (b : Word) : Word :=
  if inst.rs = 0 then 0 else b + d.move inst.compOp

variable {b : Word}

theorem start_base {g : Reg → Word}
    (h : gprOf g inst.rs = b + d.move inst.compOp) : start g inst.rs = advance d inst b := by
  unfold start advance
  rw [h]

/-- The address of the access from base `b`. -/
def at_ (d : Datum) (f : Form) (inst : Inst) (index b : Word) : Word :=
  spot f inst index (b + foreStep d.width inst.compOp)

def putAt (pf : Platform) (c : Engine) (d : Datum) (f : Form) (inst : Inst) (index b : Word)
    (v : Word × Word) (m : Mem) : Mem :=
  m.store (at_ d f inst index b) (d.encode pf.bigEndian c.simSwapWords v)

def getAt (d : Datum) (f : Form) (inst : Inst) (index b : Word) (m : Mem) : List Byte :=
  m.bytes (at_ d f inst index b) d.width

theorem fore_aft {size mode : ℕ} (h₁ : 1 ≤ mode) (h₄ : mode ≤ 4) (b : Word) :
    b + foreStep size mode + aftStep size mode =
      b + if mode = 1 ∨ mode = 3 then BitVec.ofNat 32 size else -BitVec.ofNat 32 size := by
  have hCases : mode = 1 ∨ mode = 2 ∨ mode = 3 ∨ mode = 4 := by omega
  rcases hCases with rfl | rfl | rfl | rfl <;> simp [foreStep, aftStep]

/-- Two index registers that a spot does not tell apart. -/
theorem spot_congr {i j : Word} (h : f = .rr → inst.rd ≠ inst.rs → i = j) :
    spot f inst i = spot f inst j := by
  funext b
  cases f with
  | disp => rfl
  | rr =>
    by_cases hd : inst.rd = inst.rs
    · simp only [spot, if_pos hd]
    · rw [h rfl hd]

variable {vs : List (Word × Word)}

section Steps

variable (hMode : 1 ≤ inst.compOp ∧ inst.compOp ≤ 4) (hSwap : c.simSwapWords ≤ 1)
  (hApart : Apart d f inst)
include hMode hSwap hApart

/-- One store of the loop. -/
theorem store_step (hOp : ¬ (d = .double ∧ f = .disp)) (hHolds : d.Holds inst v)
    (h : run pf ld inst pc ((d.storeOp f).expr c inst) (x.hold d inst v).zeroR0 = .ok y) :
    Usable d f inst ∧
      d.Permitted ld .write (at_ d f inst (start x.arch.regs inst.rd) (start x.arch.regs inst.rs)) ∧
      y.arch.mem = putAt pf c d f inst (start x.arch.regs inst.rd) (start x.arch.regs inst.rs) v
        x.arch.mem ∧
      gprOf (x.hold d inst v).zeroR0.arch.regs inst.rs = start x.arch.regs inst.rs ∧
      gprOf y.arch.regs inst.rs = start x.arch.regs inst.rs + d.move inst.compOp ∧
      (f = .rr → inst.rd ≠ inst.rs → start y.arch.regs inst.rd = start x.arch.regs inst.rd) := by
  have hStored := stored_of_run hOp (by omega) hSwap hApart h
  have hBase : gprOf (x.hold d inst v).zeroR0.arch.regs inst.rs = start x.arch.regs inst.rs :=
    (gprOf_zeroR0 _ _).trans (start_congr (gprOf_hold fun hFloat =>
      ⟨(hApart hFloat).1, (hApart hFloat).2.1⟩))
  have hIndex : f = .rr →
      gprOf (x.hold d inst v).zeroR0.arch.regs inst.rd = start x.arch.regs inst.rd := fun hForm =>
    (gprOf_zeroR0 _ _).trans (start_congr (gprOf_hold fun hFloat => (hApart hFloat).2.2 hForm))
  have hPlace : place d f inst (x.hold d inst v).zeroR0.arch.regs =
      at_ d f inst (start x.arch.regs inst.rd) (start x.arch.regs inst.rs) := by
    rw [place, hBase, spot_congr fun hForm _ => hIndex hForm]
    rfl
  refine ⟨hStored.usable, ?_, ?_, hBase, ?_, ?_⟩
  · rw [← hPlace]
    exact hStored.permitted
  · rw [hStored.mem, hPlace, mem_hold, encode_hold hStored.usable hHolds]
    rfl
  · rw [hStored.base, hBase, fore_aft hMode.1 hMode.2]
    rfl
  · intro hForm hd
    exact start_of_gprOf ((hStored.other inst.rd hd).trans (hIndex hForm))

/-- One load of the loop. -/
theorem load_step (hUsable : Usable d f inst)
    (hPermitted : d.Permitted ld .read
      (at_ d f inst (start x.arch.regs inst.rd) (start x.arch.regs inst.rs))) :
    ∃ y : Exec pf, run pf ld inst pc ((d.loadOp f).expr c inst) x.zeroR0 = .ok y ∧
      y.arch.mem = x.arch.mem ∧
      d.value inst y.arch.regs = d.decode pf.bigEndian c.simSwapWords
        (getAt d f inst (start x.arch.regs inst.rd) (start x.arch.regs inst.rs) x.arch.mem) ∧
      gprOf y.arch.regs inst.rs = start x.arch.regs inst.rs + d.move inst.compOp ∧
      (f = .rr → inst.rd ≠ inst.rs → start y.arch.regs inst.rd = start x.arch.regs inst.rd) := by
  have hPlace : place d f inst x.zeroR0.arch.regs =
      at_ d f inst (start x.arch.regs inst.rd) (start x.arch.regs inst.rs) := by
    rw [place, gprOf_zeroR0, gprOf_zeroR0]
    rfl
  rw [← hPlace] at hPermitted
  obtain ⟨y, hRun, hLoaded⟩ := exists_loaded (by omega) hSwap hApart hUsable hPermitted
  refine ⟨y, hRun, hLoaded.mem, ?_, ?_, ?_⟩
  · rw [hLoaded.value, hPlace]
    rfl
  · rw [hLoaded.base, gprOf_zeroR0, fore_aft hMode.1 hMode.2]
    rfl
  · intro hForm hd
    exact start_of_gprOf ((hLoaded.index hForm hd).trans (gprOf_zeroR0 x inst.rd))

/-- The loop of stores fills memory. -/
theorem storeAll_ok (hOp : ¬ (d = .double ∧ f = .disp)) :
    ∀ {x : Exec pf} {r : List Word × Exec pf}, (∀ v ∈ vs, d.Holds inst v) →
      storeAll ld c pc d f inst vs x = .ok r → ∀ {index : Word},
      (f = .rr → inst.rd ≠ inst.rs → start x.arch.regs inst.rd = index) →
      (vs ≠ [] → Usable d f inst) ∧ (∀ m ∈ r.1, m = d.move inst.compOp) ∧
        (∀ i < vs.length, d.Permitted ld .write
          (at_ d f inst index ((advance d inst)^[i] (start x.arch.regs inst.rs)))) ∧
        r.2.arch.mem = Cursor.fill (putAt pf c d f inst index) (advance d inst) vs
          (start x.arch.regs inst.rs) x.arch.mem ∧
        (f = .rr → inst.rd ≠ inst.rs → start r.2.arch.regs inst.rd = index) := by
  induction vs with
  | nil =>
    intro x r _ h index hIndex
    cases h
    refine ⟨fun h => absurd rfl h, ?_, ?_, rfl, hIndex⟩
    · intro m hm
      cases hm
    · intro i hi
      cases hi
  | cons v vs ih =>
    intro x r hHolds h index hIndex
    rw [storeAll, Outcome.bind_eq_ok] at h
    obtain ⟨y, hy, h⟩ := h
    rw [Outcome.bind_eq_ok] at h
    obtain ⟨⟨moves, z⟩, hz, h⟩ := h
    cases h
    obtain ⟨hUsable, hPermitted, hMem, hStart, hBase, hKept⟩ :=
      store_step hMode hSwap hApart hOp (hHolds v mem_cons_self) hy
    have hAt : at_ d f inst (start x.arch.regs inst.rd) = at_ d f inst index := by
      unfold at_
      rw [spot_congr hIndex]
    have hPut : putAt pf c d f inst (start x.arch.regs inst.rd) = putAt pf c d f inst index := by
      unfold putAt
      rw [hAt]
    rw [hAt] at hPermitted
    rw [hPut] at hMem
    obtain ⟨-, hMoves, hRest, hFill, hLast⟩ := ih (fun w hw => hHolds w (mem_cons_of_mem v hw)) hz
      fun hForm hd => (hKept hForm hd).trans (hIndex hForm hd)
    rw [start_base hBase] at hRest hFill
    refine ⟨fun _ => hUsable, ?_, ?_, ?_, hLast⟩
    · intro m hm
      rcases mem_cons.mp hm with rfl | hm
      · rw [hBase, hStart, BitVec.add_comm, BitVec.add_sub_cancel]
      · exact hMoves m hm
    · intro i hi
      cases i with
      | zero => exact hPermitted
      | succ i => exact hRest i (Nat.lt_of_succ_lt_succ hi)
    · rw [hFill, hMem]
      rfl

/-- The loop of loads reads what is there. -/
theorem loadAll_ok (hUsable : Usable d f inst) : ∀ {x : Exec pf} {index : Word},
    (f = .rr → inst.rd ≠ inst.rs → start x.arch.regs inst.rd = index) →
      (∀ i < n, d.Permitted ld .read
        (at_ d f inst index ((advance d inst)^[i] (start x.arch.regs inst.rs)))) →
      ∃ z, loadAll ld c pc d f inst n x = .ok ((Cursor.read (getAt d f inst index) (advance d inst) n
        (start x.arch.regs inst.rs) x.arch.mem).map fun bs =>
          (d.decode pf.bigEndian c.simSwapWords bs, d.move inst.compOp), z) := by
  induction n with
  | zero =>
    intro x index _ _
    exact ⟨x, rfl⟩
  | succ n ih =>
    intro x index hIndex hPermitted
    have hAt : at_ d f inst (start x.arch.regs inst.rd) = at_ d f inst index := by
      unfold at_
      rw [spot_congr hIndex]
    have hHead := hPermitted 0 (Nat.succ_pos n)
    rw [← hAt] at hHead
    obtain ⟨y, hRun, hMem, hValue, hBase, hKept⟩ : ∃ y : Exec pf,
        run pf ld inst pc ((d.loadOp f).expr c inst) x.zeroR0 = .ok y ∧ _ :=
      load_step hMode hSwap hApart hUsable hHead
    have hRest : ∀ i < n, d.Permitted ld .read
        (at_ d f inst index ((advance d inst)^[i] (start y.arch.regs inst.rs))) := by
      intro i hi
      rw [start_base hBase]
      exact hPermitted (i + 1) (Nat.succ_lt_succ hi)
    obtain ⟨z, hz⟩ := ih (fun hForm hd => (hKept hForm hd).trans (hIndex hForm hd)) hRest
    refine ⟨z, ?_⟩
    simp only [loadAll, hRun, Outcome.ok_bind, hz, hMem, start_base hBase, hValue, hBase,
      gprOf_zeroR0]
    rw [BitVec.add_comm, BitVec.add_sub_cancel, getAt, hAt]
    rfl

end Steps

/-! ### Values in memory -/

theorem join_split (bigEndian : Bool) (n : ℕ) (v : ℕ) :
    join bigEndian (split bigEndian n v) = v % 256 ^ n := by
  have hList : ∀ v, ((List.range n).map fun i => BitVec.ofNat 8 (v / 256 ^ i)).foldr
      (fun (b : Byte) n => b.toNat + 256 * n) 0 = v % 256 ^ n := by
    induction n with
    | zero =>
      intro v
      rw [pow_zero, Nat.mod_one]
      rfl
    | succ n ih =>
      intro v
      have hTail := ih (v / 256)
      simp only [Nat.div_div_eq_div_mul, ← pow_succ'] at hTail
      rw [range_succ_eq_map, map_cons, foldr_cons, map_map]
      change (BitVec.ofNat 8 (v / 256 ^ 0)).toNat +
        256 * ((List.range n).map fun i => BitVec.ofNat 8 (v / 256 ^ (i + 1))).foldr _ 0 = _
      have hPow : 256 ^ (n + 1) = 256 * 256 ^ n := pow_succ' 256 n
      rw [hTail, pow_zero, Nat.div_one, BitVec.toNat_ofNat, hPow, Nat.mod_mul]
  cases bigEndian with
  | false => exact hList v
  | true =>
    unfold join split
    simp only [if_true, reverse_reverse]
    exact hList v

theorem length_split (bigEndian : Bool) (n v : ℕ) : (split bigEndian n v).length = n := by
  cases bigEndian <;> simp [split]

variable {bigEndian : Bool} {swap : ℕ} {v : Word × Word} {a : Word}

theorem length_encode :
    (d.encode bigEndian swap v).length = d.width := by
  unfold Datum.encode
  cases hWide : d.wide with
  | false => simp [length_split]
  | true =>
    rw [width_wide hWide, if_pos rfl]
    split <;> simp [length_split]

theorem decode_encode_narrow (hNarrow : d.wide = false) :
    d.decode bigEndian swap (d.encode bigEndian swap v) = d.fit v := by
  rw [Datum.decode, Datum.encode]
  simp only [hNarrow, Bool.false_eq_true, if_false, join_split]
  have hMod : ∀ k, BitVec.ofNat k (v.1.toNat % 2 ^ k) = v.1.setWidth k := by
    intro k
    apply BitVec.eq_of_toNat_eq
    rw [BitVec.toNat_ofNat, BitVec.toNat_setWidth, Nat.mod_mod]
  cases d with
  | byte signed =>
    have hByte := hMod 8
    cases signed <;> simp only [Datum.kind, LoadKind.extend, Datum.width, Datum.fit, ← hByte] <;> rfl
  | half signed =>
    have hHalf := hMod 16
    cases signed <;> simp only [Datum.kind, LoadKind.extend, Datum.width, Datum.fit, ← hHalf] <;> rfl
  | word => exact congrArg (·, 0) ((hMod 32).trans (BitVec.setWidth_eq v.1))
  | single => exact congrArg (·, 0) ((hMod 32).trans (BitVec.setWidth_eq v.1))
  | pair => cases hNarrow
  | double => cases hNarrow

theorem decode_encode :
    d.decode bigEndian swap (d.encode bigEndian swap v) = d.fit v := by
  cases hWide : d.wide with
  | false => exact decode_encode_narrow hWide
  | true =>
    have hTake : ∀ a b : ℕ, (split bigEndian 4 a ++ split bigEndian 4 b).take 4 = split bigEndian 4 a :=
      fun a b => take_left' (length_split _ _ _)
    have hDrop : ∀ a b : ℕ, (split bigEndian 4 a ++ split bigEndian 4 b).drop 4 = split bigEndian 4 b :=
      fun a b => drop_left' (length_split _ _ _)
    have hFit : d.fit v = v := by
      cases d <;> first | rfl | cases hWide
    rw [Datum.decode, Datum.encode, if_pos hWide, if_pos hWide, hFit]
    split <;> simp only [hTake, hDrop, Mem.join_split_four]

/-! ### Elements do not overlap -/

variable {m : Mem}

theorem bytes_store_apart {a b : Word} {w : ℕ} {p : List Byte} (hLen : p.length = w)
    (ha : a.toNat + w ≤ 2 ^ 31) (hb : b.toNat + w ≤ 2 ^ 31)
    (hApart : a.toNat + w ≤ b.toNat ∨ b.toNat + w ≤ a.toNat) :
    (m.store b p).bytes a w = m.bytes a w := by
  unfold Mem.bytes
  apply map_congr_left
  intro i hi
  rw [mem_range] at hi
  apply Mem.store_apply_of_ne
  intro j hj hEq
  have hNat := congrArg BitVec.toNat hEq
  simp only [Mem.index, BitVec.toNat_setWidth, BitVec.toNat_add, BitVec.toNat_ofNat] at hNat
  omega

theorem inData_range (h : Segments.inData a = true) :
    2 ^ 28 ≤ a.toNat ∧ a.toNat < 0x7fffc000 := by
  simp only [Segments.inData, Segments.dataBase, Segments.stackBase, Bool.and_eq_true,
    decide_eq_true_eq, BitVec.le_def, BitVec.lt_def, BitVec.toNat_ofNat] at h
  omega

theorem inData_of_write (h : memValid ld .write a n = .ok ()) :
    memAligned a n = true ∧ Segments.inData a = true := by
  rw [memValid_ok_iff] at h
  exact ⟨h.1, by simpa [memPermitted] using h.2⟩

theorem memValid_read_of_write (h : memValid ld .write a n = .ok ()) :
    memValid ld .read a n = .ok () := by
  obtain ⟨hAlign, hData⟩ := inData_of_write h
  rw [memValid_ok_iff]
  exact ⟨hAlign, by simp [memPermitted, hData]⟩

theorem permitted_read (h : d.Permitted ld .write a) : d.Permitted ld .read a := by
  unfold Datum.Permitted at h ⊢
  split
  · rename_i hWide
    rw [if_pos hWide] at h
    exact ⟨memValid_read_of_write h.1, memValid_read_of_write h.2⟩
  · rename_i hNarrow
    rw [if_neg hNarrow] at h
    exact memValid_read_of_write h

theorem permitted_range (h : d.Permitted ld .write a) :
    2 ^ 28 ≤ a.toNat ∧ a.toNat + d.width ≤ 2 ^ 31 := by
  unfold Datum.Permitted at h
  split at h
  · rename_i hWide
    obtain ⟨-, hLow⟩ := inData_of_write h.1
    obtain ⟨hAlign, hHigh⟩ := inData_of_write h.2
    have hEnd := end_le_of_aligned hAlign hHigh
    have hRange := inData_range hLow
    have hFour : (a + 4).toNat = a.toNat + 4 := by
      rw [BitVec.toNat_add]
      change (a.toNat + 4) % 2 ^ 32 = _
      omega
    rw [width_wide hWide]
    omega
  · obtain ⟨hAlign, hData⟩ := inData_of_write h
    exact ⟨(inData_range hData).1, end_le_of_aligned hAlign hData⟩

theorem width_cases (d : Datum) : d.width = 1 ∨ d.width = 2 ∨ d.width = 4 ∨ d.width = 8 := by
  cases d <;> simp [Datum.width]

theorem get_put {index : Word} (b : Word) (v : Word × Word) (m : Mem) :
    getAt d f inst index b (putAt pf c d f inst index b v m) =
      d.encode pf.bigEndian c.simSwapWords v := by
  have hLen : (d.encode pf.bigEndian c.simSwapWords v).length = d.width := length_encode
  have hWidth := width_cases d
  have hBytes := @Mem.bytes_store (d.encode pf.bigEndian c.simSwapWords v) (by omega) m
    (at_ d f inst index b)
  rwa [hLen] at hBytes

/-- The second element lies behind the first, in the direction of the mode. -/
def Ahead (d : Datum) (mode : ℕ) (a a' : Word) : Prop :=
  if mode = 1 ∨ mode = 3 then a.toNat + d.width ≤ a'.toNat else a'.toNat + d.width ≤ a.toNat

theorem Ahead.trans {mode : ℕ} {a a' a'' : Word} (h : Ahead d mode a a') (h' : Ahead d mode a' a'') :
    Ahead d mode a a'' := by
  unfold Ahead at h h' ⊢
  split at h
  · rename_i hUp
    rw [if_pos hUp] at h' ⊢
    omega
  · rename_i hDown
    rw [if_neg hDown] at h' ⊢
    omega

/-- The distance of two elements; the index register may be the base register. -/
def stride (d : Datum) (f : Form) (inst : Inst) : Word :=
  if f = .rr ∧ inst.rd = inst.rs then d.move inst.compOp + d.move inst.compOp
  else d.move inst.compOp

variable {index b : Word}

theorem at_advance (hs : inst.rs ≠ 0) :
    at_ d f inst index (advance d inst b) = at_ d f inst index b + stride d f inst := by
  unfold at_ advance stride
  rw [if_neg hs]
  cases f with
  | disp =>
    simp only [spot, reduceCtorEq, false_and, if_false]
    ac_rfl
  | rr =>
    by_cases hd : inst.rd = inst.rs
    · simp only [spot, hd, if_true, and_self]
      ac_rfl
    · simp only [spot, hd, if_false, and_false]
      ac_rfl

theorem ahead_step (h : d.Permitted ld .write a)
    (h' : d.Permitted ld .write (a + stride d f inst)) :
    Ahead d inst.compOp a (a + stride d f inst) := by
  have hRange := permitted_range h
  have hRange' := permitted_range h'
  have hWidth := width_cases d
  have hNat : (BitVec.ofNat 32 d.width).toNat = d.width := by
    rw [BitVec.toNat_ofNat]
    omega
  have hNeg : (-BitVec.ofNat 32 d.width).toNat = 2 ^ 32 - d.width := by
    rw [BitVec.toNat_neg, hNat]
    omega
  have hStride : stride d f inst = d.move inst.compOp ∨
      stride d f inst = d.move inst.compOp + d.move inst.compOp := by
    unfold stride
    split
    · exact .inr rfl
    · exact .inl rfl
  unfold Ahead
  by_cases hUp : inst.compOp = 1 ∨ inst.compOp = 3
  · have hMove : (d.move inst.compOp).toNat = d.width := by rw [Datum.move, if_pos hUp, hNat]
    rw [if_pos hUp]
    rcases hStride with hStride | hStride <;> rw [hStride] at hRange' ⊢ <;>
      simp only [BitVec.toNat_add, hMove] at hRange' ⊢ <;> omega
  · have hMove : (d.move inst.compOp).toNat = 2 ^ 32 - d.width := by
      rw [Datum.move, if_neg hUp, hNeg]
    rw [if_neg hUp]
    rcases hStride with hStride | hStride <;> rw [hStride] at hRange' ⊢ <;>
      simp only [BitVec.toNat_add, hMove] at hRange' ⊢ <;> omega

/-- No element lies on another one. -/
theorem ahead_of_lt (hs : inst.rs ≠ 0)
    (h : ∀ i < n, d.Permitted ld .write (at_ d f inst index ((advance d inst)^[i] b))) {i j : ℕ}
    (hij : i < j) (hj : j < n) :
    Ahead d inst.compOp (at_ d f inst index ((advance d inst)^[i] b))
      (at_ d f inst index ((advance d inst)^[j] b)) := by
  have hStep : ∀ k, k + 1 < n →
      Ahead d inst.compOp (at_ d f inst index ((advance d inst)^[k] b))
        (at_ d f inst index ((advance d inst)^[k + 1] b)) := by
    intro k hk
    have hNext := h (k + 1) hk
    rw [Function.iterate_succ_apply', at_advance hs] at hNext ⊢
    exact ahead_step (h k (Nat.lt_of_succ_lt hk)) hNext
  induction j with
  | zero => cases hij
  | succ j ih =>
    rcases Nat.lt_succ_iff_lt_or_eq.mp hij with hLt | rfl
    · exact (ih hLt (Nat.lt_of_succ_lt hj)).trans (hStep j hj)
    · exact hStep i hj

theorem read_fill_moving (hs : inst.rs ≠ 0)
    (h : ∀ i < vs.length, d.Permitted ld .write (at_ d f inst index ((advance d inst)^[i] b))) :
    Cursor.read (getAt d f inst index) (advance d inst) vs.length b
      (Cursor.fill (putAt pf c d f inst index) (advance d inst) vs b m) =
        vs.map (d.encode pf.bigEndian c.simSwapWords) := by
  refine Cursor.read_fill get_put ?_
  intro i j hij hj v m
  have hAhead := ahead_of_lt hs h hij hj
  refine bytes_store_apart length_encode (permitted_range (h i (hij.trans hj))).2
    (permitted_range (h j hj)).2 ?_
  unfold Ahead at hAhead
  split at hAhead
  · exact .inl hAhead
  · exact .inr hAhead

/-! ### The round trip -/

theorem start_setReg (hs : inst.rs < 32) :
    start (x.setReg .word inst.rs b).arch.regs inst.rs = if inst.rs = 0 then 0 else b := by
  have hReg := @regOf_setReg_self pf .word x inst.rs b hs
  unfold start
  exact congrArg (ite _ 0) hReg

theorem mem_setReg {v : Word} : (x.setReg d n v).arch.mem = x.arch.mem := by
  unfold Exec.setReg
  split <;> rfl

section Main

variable {vs : List (Word × Word)} (hMode : 1 ≤ inst.compOp ∧ inst.compOp ≤ 4)
include hMode

/-- The first store of a double moves the base register by four. -/
theorem not_roundTrip_double (hNe : vs ≠ []) : ¬ RoundTrip ld c pc .double .disp inst x vs := by
  rintro ⟨moves, y, hStore, hMoves, -⟩
  cases vs with
  | nil => exact hNe rfl
  | cons v vs =>
    rw [storeAll, Outcome.bind_eq_ok] at hStore
    obtain ⟨z, hz, hStore⟩ := hStore
    rw [Outcome.bind_eq_ok] at hStore
    obtain ⟨r, -, hStore⟩ := hStore
    cases hStore
    have hMove := hMoves _ mem_cons_self
    rw [base_of_storeDouble (by omega) hz, fore_aft hMode.1 hMode.2, BitVec.add_comm,
      BitVec.add_sub_cancel, Datum.move] at hMove
    split at hMove <;> cases hMove

variable (hSwap : c.simSwapWords ≤ 1) (hApart : Apart d f inst)
  (hOp : ¬ (d = .double ∧ f = .disp)) (hHolds : ∀ v ∈ vs, d.Holds inst v)
  {r : List Word × Exec pf} (hStore : storeAll ld c pc d f inst vs x = .ok r)
include hSwap hApart hOp hHolds hStore

/-- The list comes back exactly if memory, as the stores have filled it, has it. -/
theorem roundTrip_iff_read (hNe : vs ≠ []) : RoundTrip ld c pc d f inst x vs ↔
    (Cursor.read (getAt d f inst (start x.arch.regs inst.rd)) (advance d inst) vs.length
      (start x.arch.regs inst.rs) (Cursor.fill (putAt pf c d f inst (start x.arch.regs inst.rd))
        (advance d inst) vs (start x.arch.regs inst.rs) x.arch.mem)).map
      (d.decode pf.bigEndian c.simSwapWords) = vs.map d.fit := by
  obtain ⟨hUsable, hMoves, hPermitted, hFill, hIndex⟩ :=
    storeAll_ok hMode hSwap hApart hOp hHolds hStore fun _ _ => rfl
  have hs := (hUsable hNe).rs
  have hBase : start (r.2.setReg .word inst.rs (gprOf x.arch.regs inst.rs)).arch.regs inst.rs =
      start x.arch.regs inst.rs := start_setReg hs
  have hKept : f = .rr → inst.rd ≠ inst.rs →
      start (r.2.setReg .word inst.rs (gprOf x.arch.regs inst.rs)).arch.regs inst.rd =
        start x.arch.regs inst.rd := fun hForm hd =>
    (start_congr (gprOf_setReg fun _ => hd)).trans (hIndex hForm hd)
  have hRead : ∀ i < vs.length, d.Permitted ld .read (at_ d f inst (start x.arch.regs inst.rd)
      ((advance d inst)^[i] (start (r.2.setReg .word inst.rs
        (gprOf x.arch.regs inst.rs)).arch.regs inst.rs))) := by
    intro i hi
    rw [hBase]
    exact permitted_read (hPermitted i hi)
  obtain ⟨z, hz⟩ : ∃ z, loadAll ld c pc d f inst vs.length _ = .ok (_, z) :=
    loadAll_ok hMode hSwap hApart (hUsable hNe) hKept hRead
  rw [hBase, mem_setReg, hFill] at hz
  constructor
  · rintro ⟨moves, y, hStore', -, z', hz'⟩
    obtain rfl : (moves, y) = r := Except.ok.inj (hStore'.symm.trans hStore)
    have hLists := congrArg (List.map Prod.fst) (congrArg Prod.fst (Except.ok.inj (hz.symm.trans hz')))
    simp only [map_map] at hLists
    exact hLists
  · intro hLists
    refine ⟨r.1, r.2, hStore, hMoves, z, hz.trans ?_⟩
    have hPairs := congrArg (List.map fun v => (v, d.move inst.compOp)) hLists
    simp only [map_map] at hPairs
    exact congrArg (fun l => Except.ok (l, z)) hPairs

theorem roundTrip_of_moving (hNe : vs ≠ []) (hs : inst.rs ≠ 0) :
    RoundTrip ld c pc d f inst x vs := by
  obtain ⟨-, -, hPermitted, -, -⟩ :=
    storeAll_ok hMode hSwap hApart hOp hHolds hStore fun _ _ => rfl
  rw [roundTrip_iff_read hMode hSwap hApart hOp hHolds hStore hNe, read_fill_moving hs hPermitted,
    map_map]
  exact map_congr_left fun v _ => decode_encode

/-- Register 0 is zero before every access. -/
theorem roundTrip_iff_of_zero (hNe : vs ≠ []) (hs : inst.rs = 0) :
    RoundTrip ld c pc d f inst x vs ↔ ∀ v ∈ vs, ∀ w ∈ vs, d.fit v = d.fit w := by
  have hFixed : advance d inst (start x.arch.regs inst.rs) = start x.arch.regs inst.rs := by
    rw [advance, start, if_pos hs, if_pos hs]
  rw [roundTrip_iff_read hMode hSwap hApart hOp hHolds hStore hNe,
    Cursor.read_fill_fixed get_put hFixed hNe, map_replicate, decode_encode]
  constructor
  · intro h v hv w hw
    have hLast : ∀ u ∈ vs, d.fit u = d.fit (vs.getLast hNe) := by
      intro u hu
      have hMem : d.fit u ∈ vs.map d.fit := mem_map_of_mem hu
      rw [← h] at hMem
      exact eq_of_mem_replicate hMem
    rw [hLast v hv, hLast w hw]
  · intro h
    symm
    rw [eq_replicate_iff]
    refine ⟨length_map .., fun b hb => ?_⟩
    obtain ⟨v, hv, rfl⟩ := mem_map.mp hb
    exact h v hv _ (getLast_mem hNe)

end Main

/-- A list that is stored without a fault comes back, with the base register moved by the width of
the access each time, unless it is stored as doubles with displacements, or relative to register 0
with different values in one place. -/
theorem roundTrip_iff (pf : Platform) (ld : Segments) (c : Engine) (pc : Word) (d : Datum) (f : Form)
    (inst : Inst) (x : Exec pf) (vs : List (Word × Word))
    (hMode : 1 ≤ inst.compOp ∧ inst.compOp ≤ 4) (hSwap : c.simSwapWords ≤ 1)
    (hApart : Apart d f inst) (hHolds : ∀ v ∈ vs, d.Holds inst v)
    (hOk : ∃ r, storeAll ld c pc d f inst vs x = .ok r) :
    RoundTrip ld c pc d f inst x vs ↔ vs = [] ∨ ¬ (d = .double ∧ f = .disp) ∧
      (inst.rs = 0 → ∀ v ∈ vs, ∀ w ∈ vs, d.fit v = d.fit w) := by
  by_cases hNe : vs = []
  · subst hNe
    refine iff_of_true ⟨[], x, rfl, fun m hm => ?_, _, rfl⟩ (.inl rfl)
    cases hm
  obtain ⟨r, hStore⟩ := hOk
  rw [or_iff_right hNe]
  by_cases hOp : d = .double ∧ f = .disp
  · obtain ⟨rfl, rfl⟩ := hOp
    exact iff_of_false (not_roundTrip_double hMode hNe) fun h => h.1 ⟨rfl, rfl⟩
  · rw [and_iff_right hOp]
    by_cases hs : inst.rs = 0
    · rw [roundTrip_iff_of_zero hMode hSwap hApart hOp hHolds hStore hNe hs]
      exact ⟨fun h _ => h, fun h => h hs⟩
    · exact iff_of_true (roundTrip_of_moving hMode hSwap hApart hOp hHolds hStore hNe hs)
        fun h => absurd h hs

/-- A load or store of register 2 from `($1)+`. -/
def postInc : Inst := ⟨0x100#32, 0x01020000#32⟩

/-- Two words from the start of the data segment on. -/
theorem roundTrip_words : RoundTrip ⟨0, 0⟩ (engine Platform.bare) 0 .word .disp postInc
    (Exec.ofRegs 0x10000000#32 0) [(5, 0), (7, 0)] :=
  (roundTrip_iff Platform.bare ⟨0, 0⟩ (engine Platform.bare) 0 .word .disp postInc
    (Exec.ofRegs 0x10000000#32 0) [(5, 0), (7, 0)] (by decide) (by decide) (by unfold Apart; decide)
    (fun _ _ _ h => absurd h (by decide))
    ((Outcome.exists_ok_of_any (p := fun _ => true) (by decide +kernel)).imp fun _ h => h.1)).mpr
    (.inr ⟨by decide, fun h => absurd h (by decide)⟩)

/-- The second of two doubles lies on the first. -/
theorem doubles_overlap :
    ¬ RoundTrip ⟨0, 0⟩ (engine Platform.bare) 0 .double .disp postInc (Exec.ofRegs 0x10000000#32 0)
      [(1, 2), (3, 4)] ∧
    (do
      let r ← storeAll ⟨0, 0⟩ (engine Platform.bare) 0 .double .disp postInc [(1, 2), (3, 4)]
        (Exec.ofRegs 0x10000000#32 0)
      let t ← loadAll ⟨0, 0⟩ (engine Platform.bare) 0 .double .disp postInc 2
        (r.2.setReg .word 1 0x10000000#32)
      return (r.1, t.1)).toOption =
    some ([4, 4], [((1, 3), 8), ((4, 0), 8)]) := by
  refine ⟨not_roundTrip_double (by decide) (cons_ne_nil _ _), ?_⟩
  decide +kernel

end Safe

end SimpleScalar

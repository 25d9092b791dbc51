import SimpleScalar.Outorder.Path
import SimpleScalar.Lib.HashTable

/-!
# The overlay of the wrong path

While `spec_mode` is TRUE the trace generator works on copies: the `SET_*` macros write to
`spec_regs_*` and set a bit that sends later reads there, `spec_mem_access` keeps stores
in a hash table.

* `copy_on_write`: a `SET_*` macro sets the bit before its expression is evaluated, and the
  two halves of a floating point pair share one.  The registers read as a private copy of
  the architected ones exactly if no read comes between the bit and the first write of its
  own register, or finds by chance what it should.
* `spec_memory`: the hash table holds each address once and returns what was written, but
  of eight bytes it only ever keeps the first word.
-/

namespace SimpleScalar.Outorder

open List Outcome
open Function (update_eq_self update_of_ne update_self)

variable {env : Env} {α β : Type}

/-! ### Registers -/

/-- Sequences of reads and writes through the register macros; `FPR_F` is `FPR_L` with the
bits of the float.  What is done, and the expression of a `SET_*`, may depend on what has
been read. -/
inductive Accesses : {α : Type} → Micro α → Prop where
  | ret {α : Type} (a : α) : Accesses (.ret a)
  | bind {α β : Type} {m : Micro α} {f : α → Micro β} (hm : Accesses m)
      (hf : ∀ a, Accesses (f a)) : Accesses (m.bind f)
  | gpr (n : Fin 32) : Accesses (gpr n)
  | setGpr (n : Fin 32) {e : Micro Word} (he : Accesses e) : Accesses (setGpr n e)
  | fprL (n : Fin 32) : Accesses (fprL n)
  | setFprL (n : Fin 32) {e : Micro Word} (he : Accesses e) : Accesses (setFprL n e)
  | fprD (n : Fin 32) : Accesses (fprD n)
  | setFprD (n : Fin 32) {e : Micro (Word × Word)} (he : Accesses e) : Accesses (setFprD n e)
  | hi : Accesses hi
  | setHi {e : Micro Word} (he : Accesses e) : Accesses (setHi e)
  | lo : Accesses lo
  | setLo {e : Micro Word} (he : Accesses e) : Accesses (setLo e)
  | fcc : Accesses fcc
  | setFcc {e : Micro Word} (he : Accesses e) : Accesses (setFcc e)

/-- The reads of a sequence in mis-speculation mode with their values, and the state after
it. -/
def specReads : Micro α → Exec env → List (Reg × Word) × Exec env
  | .get r k, x =>
    let t := specReads (k (x.get r)) x
    ((r, x.get r) :: t.1, t.2)
  | .use r k, x => specReads k (x.use r)
  | .put r v k, x => specReads k (x.putSpec r v)
  | _, x => ([], x)

/-- The reads of the same sequence on a register file of its own. -/
def copyReads : Micro α → (Reg → Word) → List (Reg × Word)
  | .get r k, regs => (r, regs r) :: copyReads (k (regs r)) regs
  | .use _ k, regs => copyReads k regs
  | .put r v k, regs => copyReads k (Function.update regs r v)
  | _, _ => []

/-- The registers that are read although only their bit has been set: `marked` are the bits
and `written` the registers so far. -/
def exposed : Micro α → (marked written : Reg → Bool) → (Reg → Word) → List Reg
  | .get r k, marked, written, regs =>
    (if marked (useKey r) && !written r then [r] else []) ++
      exposed (k (regs r)) marked written regs
  | .use r k, marked, written, regs =>
    exposed k (Function.update marked (useKey r) true) written regs
  | .put r v k, marked, written, regs =>
    exposed k marked (Function.update written r true) (Function.update regs r v)
  | _, _, _, _ => []

/-- Registers only, each written after its bit is set. -/
def Disciplined : (Reg → Bool) → Micro α → Prop
  | _, .ret _ => True
  | marked, .get _ k => ∀ v, Disciplined marked (k v)
  | marked, .use r k => Disciplined (Function.update marked (useKey r) true) k
  | marked, .put r _ k => marked (useKey r) = true ∧ Disciplined marked k
  | _, _ => False

/-- More bits are set. -/
def Extends (marked marked' : Reg → Bool) : Prop := ∀ r, marked r = true → marked' r = true

theorem extends_mark (marked : Reg → Bool) (r : Reg) :
    Extends marked (Function.update marked r true) := by
  intro r' h
  by_cases hr : r' = r
  · rw [hr, update_self]
  · rw [update_of_ne hr, h]

variable {r : Reg}

theorem disciplined_read {f : Word → Micro β} {marked : Reg → Bool}
    (hf : ∀ v, Disciplined marked (f v)) : Disciplined marked ((Micro.get r .ret).bind f) :=
  hf

/-- A `SET_*` of one register, where the expression keeps the bits. -/
theorem disciplined_set {e : Micro Word} {f : Unit → Micro β} {marked : Reg → Bool}
    (he : ∀ {g : Word → Micro β} {marked}, (∀ v marked', Extends marked marked' →
      Disciplined marked' (g v)) → Disciplined marked (e.bind g))
    (hf : ∀ marked', Extends marked marked' → Disciplined marked' (f ())) :
    Disciplined marked
      ((Micro.use r (e.bind fun v => .put r v (.ret ()))).bind f) := by
  show Disciplined _ ((e.bind fun v => .put r v (.ret ())).bind f)
  rw [Micro.bind_assoc]
  refine he fun v marked' hMore => ⟨hMore _ (update_self ..), ?_⟩
  exact hf marked' fun r' h => hMore r' (extends_mark marked _ r' h)

theorem useKey_odd {n : Nat} (h : evenFloor n + 1 < 32) :
    useKey (.f ⟨evenFloor n + 1, h⟩) = useKey (.f ⟨evenFloor n, Nat.lt_of_succ_lt h⟩) := by
  simp only [useKey, evenFloor, Reg.f.injEq, Fin.mk.injEq]
  omega

theorem disciplined_of_accesses {m : Micro α} (h : Accesses m) :
    ∀ {β : Type} {f : α → Micro β} {marked : Reg → Bool},
      (∀ a marked', Extends marked marked' → Disciplined marked' (f a)) →
      Disciplined marked (m.bind f) := by
  have hSame : ∀ marked, Extends marked marked := fun _ _ h => h
  induction h with
  | ret a => intro β f marked hf; exact hf a marked (hSame _)
  | bind _ _ ihm ihf =>
    intro β f marked hf
    rw [Micro.bind_assoc]
    refine ihm fun a marked' hMore => ihf a fun b marked'' hMore' => ?_
    exact hf b marked'' fun r h => hMore' r (hMore r h)
  | gpr n =>
    intro β f marked hf
    rw [gpr, dif_pos n.isLt]
    exact disciplined_read fun v => hf v marked (hSame _)
  | setGpr n _ ih =>
    intro β f marked hf
    rw [setGpr, dif_pos n.isLt]
    exact disciplined_set ih fun marked' => hf () marked'
  | fprL n =>
    intro β f marked hf
    rw [fprL, dif_pos n.isLt]
    exact disciplined_read fun v => hf v marked (hSame _)
  | setFprL n _ ih =>
    intro β f marked hf
    rw [setFprL, dif_pos n.isLt]
    exact disciplined_set ih fun marked' => hf () marked'
  | fprD n =>
    intro β f marked hf
    have hEven : evenFloor n + 1 < 32 := by unfold evenFloor; omega
    simp only [fprD, fprL, dif_pos hEven, dif_pos (Nat.lt_of_succ_lt hEven), Micro.bind_eq,
      Micro.pure_eq]
    exact fun v v' => hf (v, v') marked (hSame _)
  | setFprD n _ ih =>
    intro β f marked hf
    have hEven : evenFloor n + 1 < 32 := by unfold evenFloor; omega
    rw [setFprD, dif_pos hEven]
    show Disciplined _ (Micro.bind (Micro.bind _ _) f)
    rw [Micro.bind_assoc]
    refine ih fun v marked' hMore => ?_
    have hBit := hMore _ (update_self ..)
    refine ⟨hBit, (congrArg marked' (useKey_odd hEven)).trans hBit, ?_⟩
    exact hf () marked' fun r h => hMore r (extends_mark marked _ r h)
  | hi => intro β f marked hf; exact disciplined_read fun v => hf v marked (hSame _)
  | setHi _ ih => intro β f marked hf; exact disciplined_set ih fun marked' => hf () marked'
  | lo => intro β f marked hf; exact disciplined_read fun v => hf v marked (hSame _)
  | setLo _ ih => intro β f marked hf; exact disciplined_set ih fun marked' => hf () marked'
  | fcc => intro β f marked hf; exact disciplined_read fun v => hf v marked (hSame _)
  | setFcc _ ih => intro β f marked hf; exact disciplined_set ih fun marked' => hf () marked'

/-- The execution engine in mis-speculation mode makes just these reads. -/
theorem run_specReads {cfg : Config} {ld : Segments} {inst : Inst} {pc : Word} {m : Micro Unit} :
    ∀ {marked : Reg → Bool} {x : Exec env}, Disciplined marked m →
      run cfg ld true inst pc m x = .ok (specReads m x).2 := by
  induction m with
  | ret => intros; rfl
  | get r k ih => intro marked x h; exact ih _ (h _)
  | use r k ih => intro marked x h; exact ih h
  | put r v k ih => intro marked x h; exact ih h.2
  | _ => intro marked x h; exact h.elim

/-- After some accesses from `x₀` on: the bits are `marked`, the copies of the registers
`written` hold what the private register file holds, the others what they held before. -/
structure Shadows (x₀ : Exec env) (marked written : Reg → Bool) (regs : Reg → Word)
    (x : Exec env) : Prop where
  arch : x.arch = x₀.arch
  use : x.overlay.use = marked
  bit : ∀ r, written r = true → marked (useKey r) = true
  spec : ∀ r, x.overlay.regs r = if written r then regs r else x₀.overlay.regs r
  copy : ∀ r, written r = false → regs r = x₀.arch.regs r

namespace Shadows

variable {x₀ x : Exec env} {marked written : Reg → Bool} {regs : Reg → Word}

theorem use_bit (h : Shadows x₀ marked written regs x) (r : Reg) :
    Shadows x₀ (Function.update marked (useKey r) true) written regs (x.use r) := by
  refine ⟨h.arch, ?_, fun r' hr' => extends_mark marked _ _ (h.bit r' hr'), h.spec, h.copy⟩
  rw [← h.use]
  rfl

theorem put (h : Shadows x₀ marked written regs x) (hBit : marked (useKey r) = true)
    (v : Word) :
    Shadows x₀ marked (Function.update written r true) (Function.update regs r v)
      (x.putSpec r v) := by
  refine ⟨h.arch, h.use, fun r' hr' => ?_, fun r' => ?_, fun r' hr' => ?_⟩ <;>
    by_cases hr : r' = r
  · rw [hr, hBit]
  · rw [update_of_ne hr] at hr'
    exact h.bit r' hr'
  · simp only [Exec.putSpec, hr, update_self, if_true]
  · simpa only [Exec.putSpec, update_of_ne hr] using h.spec r'
  · rw [hr, update_self] at hr'
    cases hr'
  · rw [update_of_ne hr] at hr' ⊢
    exact h.copy r' hr'

/-- **One read** is right, unless it finds the bit and not the register. -/
theorem get_eq (h : Shadows x₀ marked written regs x) (r : Reg) :
    x.get r = regs r ↔ ∀ r' ∈ (if marked (useKey r) && !written r then [r] else []),
      x₀.overlay.regs r' = x₀.arch.regs r' := by
  unfold Exec.get
  rw [h.use, h.spec r, h.arch]
  cases hBit : marked (useKey r) with
  | false =>
    have hOld : written r = false := by
      cases hw : written r with
      | false => rfl
      | true => exact absurd ((h.bit r hw).symm.trans hBit) (by decide)
    simp [h.copy r hOld]
  | true =>
    cases hw : written r with
    | true => simp
    | false => simp [h.copy r hw]

/-- Whole sequences: the first read that differs is an exposed one. -/
theorem reads_eq {m : Micro α} : ∀ {marked written : Reg → Bool} {regs : Reg → Word} {x : Exec env},
    Shadows x₀ marked written regs x → Disciplined marked m →
    ((specReads m x).1 = copyReads m regs ↔
      ∀ r ∈ exposed m marked written regs, x₀.overlay.regs r = x₀.arch.regs r) := by
  induction m with
  | ret a => intro marked written regs x _ _; simp [specReads, copyReads, exposed]
  | get r k ih =>
    intro marked written regs x h hm
    have hFirst := h.get_eq r
    simp only [specReads, copyReads, exposed, List.cons.injEq, Prod.mk.injEq, true_and,
      forall_mem_append, ← hFirst]
    refine and_congr_right fun hEq => ?_
    rw [hEq]
    exact ih (regs r) h (hm _)
  | use r k ih => intro marked written regs x h hm; exact ih (h.use_bit r) hm
  | put r v k ih => intro marked written regs x h hm; exact ih (h.put hm.1 v) hm.2
  | _ => intro marked written regs x _ hm; exact hm.elim

end Shadows

/-- The registers a sequence exposes when it starts with every bit cleared. -/
def exposedFrom (m : Micro α) (regs : Reg → Word) : List Reg :=
  exposed m (fun _ => false) (fun _ => false) regs

/-- **The register overlay is copied on write** for the sequences that expose no register,
and for those that are lucky. -/
theorem copy_on_write {cfg : Config} {ld : Segments} {inst : Inst} {pc : Word} {m : Micro Unit}
    {x : Exec env} (hm : Accesses m) (hEntry : x.overlay.Clear) :
    run cfg ld true inst pc m x = .ok (specReads m x).2 ∧
    ((specReads m x).1 = copyReads m x.arch.regs ↔
      ∀ r ∈ exposedFrom m x.arch.regs, x.overlay.regs r = x.arch.regs r) := by
  have hDisc : Disciplined (fun _ => false) m := by
    rw [← m.bind_ret]
    exact disciplined_of_accesses hm fun _ _ _ => trivial
  have hStart : Shadows x (fun _ => false) (fun _ => false) x.arch.regs x :=
    ⟨rfl, funext hEntry, fun _ h => (by cases h), fun _ => rfl, fun _ _ => rfl⟩
  exact ⟨run_specReads hDisc, hStart.reads_eq hDisc⟩

/-- Entry into mis-speculation with the registers `regs`, copies that hold 0, and no memory. -/
def entry (regs : Reg → Word) : Exec Env.bare where
  arch := ⟨regs, fun _ => 0⟩
  host := ()
  overlay := ⟨fun _ => false, fun _ => 0, fun _ => []⟩
  temps := ⟨0, 0, 0, 0, 0⟩
  addr := 0
  nextPC := 0
  targetPC := 0

/-- `SET_GPR(3, GPR(2) + 1)`, and a read of the result. -/
def increment : Micro Unit := do
  setGpr 3 (do return (← gpr 2) + 1)
  let _ ← gpr 3

theorem copy_on_write_increment :
    (specReads increment (entry fun _ => 5)).1 = copyReads increment (fun _ => 5) := by
  have hIncr : Accesses increment :=
    .bind (.setGpr 3 (.bind (.gpr 2) fun _ => .ret _)) fun _ => .bind (.gpr 3) fun _ => .ret _
  have h := @copy_on_write Env.bare Config.bare (Image.ofInsts []).ld ssNopInst 0 increment
    (entry fun _ => 5) hIncr fun _ => rfl
  exact h.2.mpr (by decide)

/-- `SET_GPR(2, GPR(2) + 1)` reads the copy of `$2`; after `SET_FPR_L(0, 1)`, `FPR_L(1)`
reads the copy of `$f1`. -/
theorem stale_reads :
    (specReads (setGpr 2 (do return (← gpr 2) + 1)) (entry fun _ => 5)).1 = [(.r 2, 0)] ∧
    copyReads (setGpr 2 (do return (← gpr 2) + 1)) (entry fun _ => 5).arch.regs = [(.r 2, 5)] ∧
    (specReads (do setFprL 0 (.ret 1); let _ ← fprL 1) (entry fun _ => 5)).1 = [(.f 1, 0)] ∧
    copyReads (do setFprL 0 (.ret 1); let _ ← fprL 1) (entry fun _ => 5).arch.regs = [(.f 1, 5)] := by
  decide

/-! ### Memory -/

/-- A call of `spec_mem_access`: the buffer holds as many bytes as are accessed. -/
structure MemAccess where
  cmd : MemCmd
  addr : Word
  buffer : List Byte
  deriving DecidableEq, Repr

namespace MemAccess

variable (ld : Segments) (m : Mem)

def size (a : MemAccess) : Nat := a.buffer.length

/-- The call, with the bug compatible mode off: the buffer and the table afterwards. -/
def call (a : MemAccess) (t : Nat → List SpecMemEnt) :
    Except Stop (List Byte × (Nat → List SpecMemEnt)) :=
  specMemAccess ld false m a.cmd a.addr a.buffer a.size t

/-- The calls of an episode, with the buffers they leave. -/
def callAll : List MemAccess → (Nat → List SpecMemEnt) →
    Except Stop (List (List Byte) × (Nat → List SpecMemEnt))
  | [], t => .ok ([], t)
  | a :: as, t => do
    let (p, t) ← a.call ld m t
    let (ps, t) ← callAll as t
    return (p :: ps, t)

/-- A permitted and aligned access of 1, 2, 4 or 8 bytes. -/
structure Allowed (a : MemAccess) : Prop where
  size : a.size ∈ [1, 2, 4, 8]
  aligned : memAligned a.addr a.size = true
  permitted : memPermitted ld a.cmd a.addr = true

/-- Some byte belongs to both. -/
def Overlaps (a b : MemAccess) : Prop :=
  a.addr.toNat < b.addr.toNat + b.size ∧ b.addr.toNat < a.addr.toNat + a.size

/-- The accesses of one episode: allowed, and those that overlap are to the same bytes. -/
structure Episode (as : List MemAccess) : Prop where
  allowed : ∀ a ∈ as, a.Allowed ld
  same : ∀ a ∈ as, ∀ b ∈ as, a.Overlaps b → a.addr = b.addr ∧ a.size = b.size

/-- The bytes last written to an address; the latest access comes first. -/
def latest (hist : List MemAccess) (addr : Word) : Option (List Byte) :=
  (hist.find? fun a => a.cmd == .write && a.addr == addr).map buffer

/-- What the buffer of an access should hold. -/
def wanted (hist : List MemAccess) (a : MemAccess) : List Byte :=
  match a.cmd with
  | .write => a.buffer
  | .read => (latest hist a.addr).getD (m.bytes a.addr a.size)

def wantedAll (hist : List MemAccess) : List MemAccess → List (List Byte)
  | [] => []
  | a :: as => wanted m hist a :: wantedAll (a :: hist) as

/-- A read of eight bytes finds them if the second word was last written as 0; if nothing
was written, that word must be permitted on its own. -/
def Kept (hist : List MemAccess) (a : MemAccess) : Prop :=
  a.cmd = .read → a.size = 8 →
    match latest hist a.addr with
    | some p => p.drop 4 = List.replicate 4 0
    | none => memPermitted ld .read (a.addr + 4) = true

def KeptAll (hist : List MemAccess) : List MemAccess → Prop
  | [] => True
  | a :: as => Kept ld hist a ∧ KeptAll (a :: hist) as

/-- The entry a write leaves: the rest of the buffer stays 0. -/
def stored (addr : Word) (p : List Byte) : SpecMemEnt :=
  ⟨addr, p.take 4 ++ List.replicate (8 - (p.take 4).length) 0⟩

/-- What the table holds for an address. -/
def entryOf (hist : List MemAccess) (addr : Word) : Option SpecMemEnt :=
  (latest hist addr).map (stored addr)

/-- The table holds the last write to each address. -/
abbrev Holds (t : Nat → List SpecMemEnt) (hist : List MemAccess) : Prop :=
  HashTable.Represents hashAddr SpecMemEnt.addr t (entryOf hist)

variable {ld m} {a : MemAccess} {hist : List MemAccess} {t t' : Nat → List SpecMemEnt} {p : List Byte}

/-- The table with the entry `e` at the front of the chain of its address. -/
def front (e : SpecMemEnt) (t : Nat → List SpecMemEnt) : Nat → List SpecMemEnt :=
  Function.update t (hashAddr e.addr)
    (e :: (t (hashAddr e.addr)).eraseP fun e' => e'.addr == e.addr)

theorem Holds.read (h : Holds t hist) (hCmd : a.cmd = .read) : Holds t (a :: hist) := by
  have hEntry : entryOf (a :: hist) = entryOf hist := by
    funext addr
    simp [entryOf, latest, hCmd]
  unfold Holds
  rw [hEntry]
  exact h

variable {e : SpecMemEnt}

/-- A search moves what it finds. -/
theorem Holds.move (h : Holds t hist) (he : entryOf hist e.addr = some e) :
    Holds (front e t) hist := by
  have hSame : Function.update (entryOf hist) e.addr (some e) = entryOf hist := by
    rw [← he, update_eq_self]
  unfold Holds
  rw [← hSame]
  exact h.set e

theorem Holds.write (h : Holds t hist) (hCmd : a.cmd = .write) :
    Holds (front (stored a.addr a.buffer) t) (a :: hist) := by
  have hEntry : entryOf (a :: hist) =
      Function.update (entryOf hist) a.addr (some (stored a.addr a.buffer)) := by
    funext addr
    by_cases hAddr : addr = a.addr
    · rw [hAddr, update_self]
      simp [entryOf, latest, hCmd]
    · rw [update_of_ne hAddr]
      simp [entryOf, latest, hCmd, Ne.symm hAddr]
  unfold Holds
  rw [hEntry]
  exact h.set (stored a.addr a.buffer)

variable {addr : Word}

theorem mem_of_latest (h : latest hist addr = some p) :
    ∃ b ∈ hist, b.addr = addr ∧ b.buffer = p := by
  obtain ⟨b, hb, rfl⟩ := Option.map_eq_some_iff.mp h
  have hIs := List.find?_some hb
  simp only [Bool.and_eq_true, beq_iff_eq] at hIs
  exact ⟨b, mem_of_find?_eq_some hb, hIs.2, rfl⟩

/-- Of a buffer of 1, 2, 4 or 8 bytes an entry keeps at most 4. -/
theorem kept_length (hSize : p.length ∈ [1, 2, 4, 8]) :
    (if p.length = 8 then 4 else p.length) = (p.take 4).length ∧ (p.length ≠ 8 → p.take 4 = p) := by
  simp only [mem_cons, not_mem_nil, or_false] at hSize
  refine ⟨?_, fun hNot => take_of_length_le (by omega)⟩
  rw [length_take]
  split <;> omega

/-- Writing into an entry of the same size, or into a new one. -/
theorem write_stored (hSize : p.length ∈ [1, 2, 4, 8]) (hAddr : e.addr = addr)
    (hRest : e.data.drop (p.take 4).length = List.replicate (8 - (p.take 4).length) 0) :
    e.write p p.length = stored addr p := by
  obtain ⟨hLen, -⟩ := kept_length hSize
  have hTake : p.take (p.take 4).length = p.take 4 := by
    rw [length_take, take_eq_take_min, take_eq_take_min (i := 4)]
    congr 1
    omega
  unfold SpecMemEnt.write stored
  dsimp only
  rw [hLen, hTake, hRest, hAddr]

/-- Reading an entry of the same size. -/
theorem read_stored (hSize : p.length ∈ [1, 2, 4, 8]) :
    (stored addr p).read p.length = p ↔ (p.length = 8 → p.drop 4 = List.replicate 4 0) := by
  obtain ⟨hLen, hShort⟩ := kept_length hSize
  unfold SpecMemEnt.read stored
  by_cases hEight : p.length = 8
  · have hFour : (p.take 4).length = 4 := by rw [← hLen, if_pos hEight]
    rw [hFour, take_of_length_le (by simp [hFour, hEight])]
    conv => lhs; rhs; rw [← take_append_drop 4 p]
    rw [append_cancel_left_eq, eq_comm]
    exact ⟨fun h _ => h, fun h => h hEight⟩
  · rw [hShort hEight]
    simp [hEight]

theorem call_hit (ha : a.Allowed ld) (h : Holds t hist) (hAddr : e.addr = a.addr)
    (he : entryOf hist a.addr = some e) : a.call ld m t =
      match a.cmd with
      | .read => .ok (e.read a.size, front e t)
      | .write => .ok (a.buffer, front (e.write a.buffer a.size) t) := by
  have hFind : findEnt a.addr (t (hashAddr a.addr)) =
      some (e, e :: (t (hashAddr a.addr)).eraseP fun e => e.addr == a.addr) := by
    unfold findEnt
    rw [h.find, he]
  have hWrite : (e.write a.buffer a.size).addr = a.addr := hAddr
  unfold call specMemAccess front
  dsimp only
  rw [hFind, hAddr, hWrite]
  simp only [ha.aligned, ha.permitted, ha.size, not_true_eq_false, if_false, Bool.not_true,
    Bool.false_eq_true]
  cases a.cmd <;> rfl

theorem findEnt_miss (h : Holds t hist) (he : entryOf hist a.addr = none) :
    findEnt a.addr (t (hashAddr a.addr)) = none := by
  unfold findEnt
  rw [h.find, he]

theorem call_miss_write (ha : a.Allowed ld) (h : Holds t hist) (he : entryOf hist a.addr = none)
    (hCmd : a.cmd = .write) : a.call ld m t =
      .ok (a.buffer, front (SpecMemEnt.write ⟨a.addr, List.replicate 8 0⟩ a.buffer a.size) t) := by
  have hPerm : memPermitted ld .write a.addr = true := hCmd ▸ ha.permitted
  have hWrite : (SpecMemEnt.write ⟨a.addr, List.replicate 8 0⟩ a.buffer a.size).addr = a.addr := rfl
  unfold call specMemAccess front
  dsimp only
  rw [hWrite, findEnt_miss h he, h.eraseP_of_none he]
  simp [ha.aligned, hPerm, ha.size, hCmd]

theorem memValid_word (hAligned : memAligned addr 4 = true) :
    memValid ld .read addr 4 = if memPermitted ld .read addr then .ok ()
      else .error (.fatal "segmentation violation") := by
  unfold memValid
  rw [hAligned]
  cases memPermitted ld .read addr <;> rfl

theorem aligned_words (h : memAligned addr 8 = true) :
    memAligned addr 4 = true ∧ memAligned (addr + 4) 4 = true := by
  have hMod : ∀ n : Nat, n &&& 3 = n % 4 ∧ n &&& 7 = n % 8 := fun n =>
    ⟨Nat.and_two_pow_sub_one_eq_mod n 2, Nat.and_two_pow_sub_one_eq_mod n 3⟩
  simp only [memAligned, Nat.reduceSub, BEq.rfl, Bool.true_and, beq_iff_eq,
    (hMod _).1, (hMod _).2, BitVec.toNat_add] at h ⊢
  have hFour : (4 : Word).toNat = 4 := rfl
  omega

/-- A read that finds nothing goes to memory. -/
theorem call_miss_read (ha : a.Allowed ld) (h : Holds t hist) (he : entryOf hist a.addr = none)
    (hCmd : a.cmd = .read) : a.call ld m t =
      if a.size = 8 ∧ memPermitted ld .read (a.addr + 4) = false then
        .error (.fatal "segmentation violation")
      else .ok (m.bytes a.addr a.size, t) := by
  have hPerm : memPermitted ld .read a.addr = true := hCmd ▸ ha.permitted
  unfold call specMemAccess
  dsimp only
  rw [findEnt_miss h he]
  simp only [ha.aligned, hPerm, ha.size, not_true_eq_false, if_false, Bool.not_true,
    Bool.false_eq_true, hCmd]
  by_cases hEight : a.size = 8
  · obtain ⟨hFirst, hSecond⟩ := aligned_words (hEight ▸ ha.aligned)
    rw [hEight, show min 8 4 = 4 from rfl, memValid_word hFirst, memValid_word hSecond, hPerm]
    cases memPermitted ld .read (a.addr + 4) <;> simp [bind, Except.bind, pure, Except.pure]
  · have hMin : min a.size 4 = a.size := by
      have hSize := ha.size
      simp only [mem_cons, not_mem_nil, or_false] at hSize
      omega
    rw [hMin, memValid, ha.aligned, hPerm]
    simp [hEight, bind, Except.bind, pure, Except.pure]

/-- **One access**: the table stays right, and the buffer is as wanted exactly if the access
finds all its bytes. -/
theorem call_spec (ha : a.Allowed ld) (h : Holds t hist)
    (hSame : ∀ b ∈ hist, b.addr = a.addr → b.size = a.size) :
    (∀ p t', a.call ld m t = .ok (p, t') → Holds t' (a :: hist)) ∧
    ((∃ t', a.call ld m t = .ok (wanted m hist a, t')) ↔ Kept ld hist a) := by
  cases hLatest : latest hist a.addr with
  | none =>
    have he : entryOf hist a.addr = none := by rw [entryOf, hLatest]; rfl
    cases hCmd : a.cmd with
    | read =>
      rw [call_miss_read ha h he hCmd]
      simp only [wanted, Kept, hCmd, hLatest, Option.getD_none, forall_const]
      split
      · next hBad => exact ⟨nofun, nofun, fun hKept => by rw [hKept hBad.1] at hBad; cases hBad.2⟩
      · next hGood =>
        refine ⟨fun p t' hRun => ?_, fun _ hEight => ?_, fun _ => ⟨t, rfl⟩⟩
        · cases hRun
          exact h.read hCmd
        · cases hPerm : memPermitted ld .read (a.addr + 4) with
          | true => rfl
          | false => exact absurd ⟨hEight, hPerm⟩ hGood
    | write =>
      have hNew : SpecMemEnt.write ⟨a.addr, List.replicate 8 0⟩ a.buffer a.size =
          stored a.addr a.buffer := write_stored ha.size rfl drop_replicate
      rw [call_miss_write ha h he hCmd, hNew]
      simp only [wanted, Kept, hCmd, reduceCtorEq, false_implies, iff_true]
      refine ⟨fun p t' hRun => ?_, _, rfl⟩
      cases hRun
      exact h.write hCmd
  | some p =>
    have he : entryOf hist a.addr = some (stored a.addr p) := by rw [entryOf, hLatest]; rfl
    obtain ⟨b, hb, hAddr, rfl⟩ := mem_of_latest hLatest
    have hSize : b.buffer.length = a.size := hSame b hb hAddr
    rw [call_hit ha h rfl he]
    cases hCmd : a.cmd with
    | read =>
      refine ⟨fun p t' hRun => ?_, ?_⟩
      · cases hRun
        exact (h.move he).read hCmd
      · have hRead := @read_stored b.buffer a.addr (hSize ▸ ha.size)
        rw [hSize] at hRead
        simpa [wanted, Kept, hCmd, hLatest] using hRead
    | write =>
      have hLen : (a.buffer.take 4).length = (b.buffer.take 4).length := by
        rw [length_take, length_take, hSize]
        rfl
      have hNew : (stored a.addr b.buffer).write a.buffer a.size = stored a.addr a.buffer :=
        write_stored ha.size rfl (by rw [hLen, stored, drop_left])
      simp only [wanted, Kept, hCmd, hNew, reduceCtorEq, false_implies, iff_true]
      refine ⟨fun p t' hRun => ?_, _, rfl⟩
      cases hRun
      exact h.write hCmd

/-- **A run of accesses.** -/
theorem callAll_spec : ∀ {as hist : List MemAccess} {t : Nat → List SpecMemEnt}, Holds t hist →
    (∀ a ∈ as, a.Allowed ld) →
    (∀ a ∈ as, ∀ b ∈ as ++ hist, b.addr = a.addr → b.size = a.size) →
    (∀ ps t', callAll ld m as t = .ok (ps, t') → Holds t' (as.reverse ++ hist)) ∧
    ((∃ t', callAll ld m as t = .ok (wantedAll m hist as, t')) ↔ KeptAll ld hist as) := by
  intro as
  induction as with
  | nil =>
    intro hist t h _ _
    refine ⟨fun ps t' hRun => ?_, fun _ => trivial, fun _ => ⟨t, rfl⟩⟩
    cases hRun
    exact h
  | cons a as ih =>
    intro hist t h hOk hSame
    obtain ⟨hHolds, hWanted⟩ := call_spec (m := m) (hOk a mem_cons_self) h fun b hb =>
      hSame a mem_cons_self b (mem_append_right _ hb)
    have hNext : ∀ p t', a.call ld m t = .ok (p, t') →
        (∀ ps t'', callAll ld m as t' = .ok (ps, t'') → Holds t'' (as.reverse ++ a :: hist)) ∧
        ((∃ t'', callAll ld m as t' = .ok (wantedAll m (a :: hist) as, t'')) ↔
          KeptAll ld (a :: hist) as) := fun p t' hRun =>
      ih (hHolds p t' hRun) (fun b hb => hOk b (.tail _ hb)) fun b hb c hc =>
        hSame b (.tail _ hb) c (perm_middle.mem_iff.mp hc)
    refine ⟨fun ps t' hRun => ?_, ?_⟩
    · obtain ⟨⟨p, t₁⟩, hCall, hRun⟩ := bind_eq_ok.mp hRun
      obtain ⟨⟨ps', t₂⟩, hRest, hRun⟩ := bind_eq_ok.mp hRun
      cases hRun
      rw [reverse_cons, append_assoc]
      exact (hNext p t₁ hCall).1 ps' _ hRest
    · show _ ↔ Kept ld hist a ∧ KeptAll ld (a :: hist) as
      rw [← hWanted]
      constructor
      · rintro ⟨t', hRun⟩
        obtain ⟨⟨p, t₁⟩, hCall, hRun⟩ := bind_eq_ok.mp hRun
        obtain ⟨⟨ps', t₂⟩, hRest, hRun⟩ := bind_eq_ok.mp hRun
        cases hRun
        exact ⟨⟨t₁, hCall⟩, (hNext _ t₁ hCall).2.mp ⟨_, hRest⟩⟩
      · rintro ⟨⟨t₁, hCall⟩, hKept⟩
        obtain ⟨t₂, hRest⟩ := (hNext _ t₁ hCall).2.mpr hKept
        exact ⟨t₂, bind_eq_ok.mpr ⟨_, hCall, bind_eq_ok.mpr ⟨_, hRest, rfl⟩⟩⟩

/-- Two accesses to one address overlap. -/
theorem Episode.size_eq {as : List MemAccess} (h : Episode ld as) {b : MemAccess} (ha : a ∈ as)
    (hb : b ∈ as) (hAddr : b.addr = a.addr) : b.size = a.size := by
  have hPos : ∀ c ∈ as, 0 < c.size := fun c hc => by
    have hSize := (h.allowed c hc).size
    simp only [mem_cons, not_mem_nil, or_false] at hSize
    omega
  refine (h.same b hb a ha ⟨?_, ?_⟩).2
  · rw [hAddr]
    exact Nat.lt_add_of_pos_right (hPos a ha)
  · rw [hAddr]
    exact Nat.lt_add_of_pos_right (hPos b hb)

end MemAccess

open MemAccess in
/-- **The memory overlay**: the chains hold each address once; the reads of an episode return
what was last written, or memory, exactly if none of eight bytes misses its second word; and
`tracer_recover` empties the table. -/
theorem spec_memory {ld : Segments} {m : Mem} {as : List MemAccess} (h : Episode ld as) :
    (∀ ps t, callAll ld m as (fun _ => []) = .ok (ps, t) →
      ∀ i, ((t i).map SpecMemEnt.addr).Nodup ∧ ∀ e ∈ t i, hashAddr e.addr = i) ∧
    ((∃ t, callAll ld m as (fun _ => []) = .ok (wantedAll m [] as, t)) ↔ KeptAll ld [] as) ∧
    ∀ s s' : State env, tracerRecover s = .ok s' →
      s'.overlay.Clear ∧ s'.overlay.storeHtable = fun _ => [] := by
  have hEmpty : Holds (fun _ => []) [] := HashTable.represents_empty
  obtain ⟨hHolds, hReads⟩ := callAll_spec (m := m) hEmpty h.allowed
    fun a ha b hb => h.size_eq ha (by simpa using hb)
  refine ⟨fun ps t hRun i => ?_, hReads, fun s s' hRun => ?_⟩
  · have hEnd := hHolds ps t hRun
    exact ⟨hEnd.once i, hEnd.home i⟩
  · unfold tracerRecover at hRun
    split at hRun
    · cases hRun
    · cases hRun
      exact ⟨fun _ => rfl, rfl⟩

/-- A word written and read back, and a read of memory. -/
def oneWord : List MemAccess :=
  [⟨.write, 0x10000000, [1, 2, 3, 4]⟩, ⟨.read, 0x10000000, [0, 0, 0, 0]⟩, ⟨.read, 0x10000008, [0]⟩]

open MemAccess in
theorem spec_memory_oneWord : ∃ t, callAll (Image.ofInsts []).ld (fun _ => 9) oneWord (fun _ => []) =
    .ok ([[1, 2, 3, 4], [1, 2, 3, 4], [9]], t) := by
  have hEpisode : Episode (Image.ofInsts []).ld oneWord := by
    refine ⟨fun a ha => ?_, ?_⟩
    · simp only [oneWord, mem_cons, not_mem_nil, or_false] at ha
      rcases ha with rfl | rfl | rfl <;> exact ⟨by decide, by decide, by decide⟩
    · unfold Overlaps
      decide
  exact (@spec_memory Env.bare _ _ _ hEpisode).2.1.mpr ⟨nofun, nofun, nofun, trivial⟩

/-- Eight bytes written and read back. -/
def twoWords : List MemAccess :=
  [⟨.write, 0x10000000, [1, 2, 3, 4, 5, 6, 7, 8]⟩, ⟨.read, 0x10000000, [0, 0, 0, 0, 0, 0, 0, 0]⟩]

open MemAccess in
/-- The second word is lost. -/
theorem second_word_lost : Episode (Image.ofInsts []).ld twoWords ∧
    ∃ t, callAll (Image.ofInsts []).ld (fun _ => 9) twoWords (fun _ => []) =
      .ok ([[1, 2, 3, 4, 5, 6, 7, 8], [1, 2, 3, 4, 0, 0, 0, 0]], t) := by
  refine ⟨⟨fun a ha => ?_, ?_⟩, _, rfl⟩
  · simp only [twoWords, mem_cons, not_mem_nil, or_false] at ha
    rcases ha with rfl | rfl <;> exact ⟨by decide, by decide, by decide⟩
  · unfold Overlaps
    decide

end SimpleScalar.Outorder

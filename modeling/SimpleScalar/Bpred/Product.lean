import SimpleScalar.Bpred.Basic
import SimpleScalar.Lib.Outcome

/-!
# The combining predictor as a product

A session is a predictor together with the update records that lookups have returned so
far; an update uses the record of one of them.  The bimodal component of a combining
predictor and a bimodal predictor of the same sizes, in sessions with the same calls, have
the same counters all along, and so do the two-level component and a two-level predictor:
`Tracks T` relates the two sessions.  It rests on the following.

* `ptrTo`: which counter of a table an update record points to.  An update changes that
  counter and no other one, in whichever of its fields the pointer is.
* `Sound`: all pointers are into their tables, so that only the BTB and the return-address
  stack, which are the same in both sessions, can make a call fail.

`comb_is_product`: the two together, and what the meta predictor selects.
-/

namespace SimpleScalar.Bpred

open Outcome

/-! ### Sessions -/

/-- A lookup that has been made. -/
structure Record where
  baddr : Word
  op : Opcode
  r31p : Bool
  upd : Update

structure Session where
  pred : Predictor
  records : List Record

/-- A call of `bpred_lookup`, with what was in the update record before, or of `bpred_update`,
for the `k`-th lookup. -/
inductive Call where
  | lookup (baddr btarget : Word) (op : Opcode) (r31p : Bool) (before : Update)
  | update (k : Nat) (btarget taken : Word) (predTaken correct : Bool)

namespace Session

/-- An update for a lookup that has not been made is no call. -/
def step (s : Session) : Call → Except Fault Session
  | .lookup baddr btarget op r31p before => do
    let (_, u, _, p) ← s.pred.lookup baddr btarget op r31p before 0
    return ⟨p, s.records ++ [⟨baddr, op, r31p, u⟩]⟩
  | .update k btarget taken predTaken correct =>
    match s.records[k]? with
    | none => .ok s
    | some r => do
      let p ← s.pred.update r.baddr btarget taken predTaken correct r.op r.r31p r.upd
      return { s with pred := p }

def run (s : Session) : List Call → Except Fault Session
  | [] => .ok s
  | c :: cs => do
    let s ← s.step c
    s.run cs

end Session

/-! ### Tables -/

variable {n : Word}

/-- A mask keeps a position inside a table. -/
theorem and_pred_lt (x : Word) (h : n ≠ 0) : (x &&& (n - 1)).toNat < n.toNat := by
  have hPos : 0 < n.toNat := by
    rcases Nat.eq_zero_or_pos n.toNat with h0 | h0
    · exact absurd (BitVec.eq_of_toNat_eq h0) h
    · exact h0
  have hPred : (n - 1).toNat = n.toNat - 1 := by
    have hOne : (1 : Word).toNat = 1 := rfl
    have hLt := n.isLt
    rw [BitVec.toNat_sub, hOne]
    omega
  have hAnd : (x &&& (n - 1)).toNat ≤ (n - 1).toNat := by
    rw [BitVec.toNat_and]
    exact Nat.and_le_right
  omega

theorem isPow2_ne_zero (h : isPow2 n = true) : n ≠ 0 := by
  unfold isPow2 at h
  simp only [Bool.and_eq_true, bne_iff_ne] at h
  exact h.1

/-- A table of counters. -/
structure Counters (n : Word) (l : List Nat) : Prop where
  size : n ≠ 0
  length : l.length = n.toNat
  le : ∀ c ∈ l, c ≤ 3

theorem flipflop_counters (n x : Nat) (h : x ≤ 3) :
    (flipflop n x).length = n ∧ ∀ c ∈ flipflop n x, c ≤ 3 := by
  induction n generalizing x with
  | zero => exact ⟨rfl, fun c hc => absurd hc List.not_mem_nil⟩
  | succ n ih =>
    obtain ⟨hLen, hLe⟩ := ih (3 - x) (Nat.sub_le ..)
    refine ⟨by rw [flipflop, List.length_cons, hLen], fun c hc => ?_⟩
    rcases List.mem_cons.mp hc with rfl | hc
    · exact h
    · exact hLe c hc

theorem Counters.create (h : isPow2 n = true) : Counters n (flipflop n.toNat 1) := by
  obtain ⟨hLen, hLe⟩ := flipflop_counters n.toNat 1 (by decide)
  exact ⟨isPow2_ne_zero h, hLen, hLe⟩

theorem bump_le {n : Nat} (up : Bool) (h : n ≤ 3) : Predictor.bump up n ≤ 3 := by
  unfold Predictor.bump
  split <;> split <;> omega

theorem Counters.modify {l : List Nat} (h : Counters n l) (i : Nat) (up : Bool) :
    Counters n (l.modify i (Predictor.bump up)) := by
  refine ⟨h.size, by rw [List.length_modify, h.length], fun c hc => ?_⟩
  obtain ⟨k, hk, rfl⟩ := List.getElem_of_mem hc
  rw [List.getElem_modify]
  have hLe := h.le _ (List.getElem_mem (by simpa using hk))
  split
  · exact bump_le up hLe
  · exact hLe

/-- A two-level predictor with all its registers. -/
structure TwoLevel.Sound (d : TwoLevel) : Prop where
  l1 : d.l1size ≠ 0
  regs : d.shiftregs.length = d.l1size.toNat
  history : ∀ h ∈ d.shiftregs, h.toNat < 2 ^ d.shiftWidth.toNat
  width : d.shiftWidth.toNat ≤ 30
  counters : Counters d.l2size d.l2table

namespace TwoLevel

variable {d : TwoLevel}

theorem Sound.l1index_lt (h : d.Sound) (baddr : Word) : d.l1index baddr < d.shiftregs.length := by
  rw [h.regs]
  exact and_pred_lt _ h.l1

theorem Sound.l2index_lt (h : d.Sound) (baddr x : Word) : d.l2index baddr x < d.l2table.length := by
  rw [h.counters.length]
  exact and_pred_lt _ h.counters.size

theorem Sound.get_history (h : d.Sound) (baddr : Word) :
    ∃ x ∈ d.shiftregs, get d.shiftregs (d.l1index baddr) = .ok x := by
  have hLt := h.l1index_lt baddr
  exact ⟨_, List.getElem_mem hLt, by rw [get, List.getElem?_eq_getElem hLt]⟩

theorem Sound.lookup_eq (h : d.Sound) (baddr : Word) :
    ∃ i, d.lookup baddr = .ok i ∧ i < d.l2table.length := by
  obtain ⟨x, -, hGet⟩ := h.get_history baddr
  exact ⟨d.l2index baddr x, by rw [lookup, hGet]; rfl, h.l2index_lt baddr x⟩

/-- The mask of a history register. -/
theorem mask_lt {w : Nat} (x : Word) (h : w ≤ 30) :
    (x &&& (((1 : Word) <<< w) - 1)).toNat < 2 ^ w := by
  have hShift : ((1 : Word) <<< w).toNat = 2 ^ w := by
    have hLt : 2 ^ w < 2 ^ 32 := Nat.pow_lt_pow_right (by decide) (by omega)
    rw [BitVec.toNat_shiftLeft, Nat.shiftLeft_eq]
    have hOne : (1 : Word).toNat = 1 := rfl
    rw [hOne, Nat.one_mul, Nat.mod_eq_of_lt hLt]
  have hNe : (1 : Word) <<< w ≠ 0 := by
    intro hZero
    rw [hZero] at hShift
    exact absurd hShift.symm (Nat.two_pow_pos w).ne'
  rw [← hShift]
  exact and_pred_lt x hNe

theorem Sound.shift_eq (h : d.Sound) (baddr : Word) (taken : Bool) :
    ∃ regs, d.shift baddr taken = .ok { d with shiftregs := regs } ∧
      Sound { d with shiftregs := regs } := by
  obtain ⟨x, -, hGet⟩ := h.get_history baddr
  refine ⟨d.shiftregs.set (d.l1index baddr) (((x <<< 1) ||| (if taken then 1 else 0)) &&&
    (((1 : Word) <<< d.shiftWidth.toNat) - 1)), by rw [shift, hGet]; rfl, h.l1, ?_, fun y hy => ?_,
    h.width, h.counters⟩
  · rw [List.length_set, h.regs]
  rcases List.mem_or_eq_of_mem_set hy with hy | rfl
  · exact h.history y hy
  · exact mask_lt _ h.width

end TwoLevel

theorem createBimod_sound {d : Bimod} (h : createBimod n = .ok d) :
    Counters d.size d.table := by
  unfold createBimod at h
  split at h
  · cases h
  · rename_i hPow
    cases h
    exact .create (by simpa using hPow)

theorem createTwoLevel_sound {l1size l2size shiftWidth xor : Word} {d : TwoLevel}
    (h : createTwoLevel l1size l2size shiftWidth xor = .ok d) : d.Sound := by
  unfold createTwoLevel at h
  split at h
  · cases h
  · rename_i hPow1
    split at h
    · cases h
    · rename_i hPow2
      split at h
      · cases h
      · rename_i hWidth
        cases h
        have hLe : shiftWidth.toNat ≤ 30 := by
          rw [not_or, BitVec.not_lt, BitVec.le_def] at hWidth
          exact hWidth.2
        refine ⟨isPow2_ne_zero (by simpa using hPow1), by simp, fun x hx => ?_, hLe,
          .create (by simpa using hPow2)⟩
        rw [(List.mem_replicate.mp hx).2]
        exact Nat.two_pow_pos _

/-! ### The counters of an update record -/

/-- The position in table `T` that a pointer is about. -/
def inTable (c : Option Ptr) (T : Table) : Option Nat :=
  (c.filter fun c => c.table = T).map Ptr.index

theorem inTable_self (c : Ptr) : inTable (some c) c.table = some c.index := by simp [inTable]

theorem inTable_ne {c : Option Ptr} {T : Table} (h : ∀ x, c = some x → x.table ≠ T) :
    inTable c T = none := by
  cases c with
  | none => rfl
  | some x => simp [inTable, h x rfl]

/-- The counter of a direction table that the record points to. -/
def Update.ptrTo (u : Update) (T : Table) : Option Nat :=
  (inTable u.pdir1 T).or (inTable u.pdir2 T)

variable {u : Update}

variable {c : Ptr}

namespace Predictor

variable {p : Predictor}

/-- Other counters. -/
def withTables (p : Predictor) (l : Table → List Nat) : Predictor :=
  { p with
    bimod := { p.bimod with table := l .bimod }
    twolev := { p.twolev with l2table := l .twolev }
    metaPred := { p.metaPred with table := l .metaPred } }

@[simp] theorem counters_withTables (p : Predictor) (l : Table → List Nat) :
    (p.withTables l).counters = l := by
  funext T
  cases T <;> rfl

@[simp] theorem withTables_withTables (p : Predictor) (l l' : Table → List Nat) :
    (p.withTables l).withTables l' = p.withTables l' := rfl

theorem setCounters_eq (p : Predictor) (l : List Nat) (T : Table) :
    p.setCounters l T = p.withTables (Function.update p.counters T l) := by
  cases T <;> rfl

/-- The counter `i` of a table, if there is one, is counted up or down. -/
def bumpAt (up : Bool) (l : List Nat) : Option Nat → List Nat
  | none => l
  | some i => l.modify i (bump up)

/-- All pointers are into their tables. -/
structure Fits (p : Predictor) (u : Update) : Prop where
  dir1 : ∀ c, u.pdir1 = some c → c.table ≠ .metaPred ∧ c.index < (p.counters c.table).length
  dir2 : ∀ c, u.pdir2 = some c → c.table ≠ .metaPred ∧ c.index < (p.counters c.table).length
  apart : ∀ c c', u.pdir1 = some c → u.pdir2 = some c' → c.table ≠ c'.table
  choice : ∀ c, u.pmeta = some c → c.table = .metaPred ∧ c.index < (p.counters c.table).length

theorem Fits.congr {q : Predictor} (h : p.Fits u)
    (hLen : ∀ T, (q.counters T).length = (p.counters T).length) : q.Fits u := by
  refine ⟨fun c hc => ?_, fun c hc => ?_, h.apart, fun c hc => ?_⟩ <;> rw [hLen]
  · exact h.dir1 c hc
  · exact h.dir2 c hc
  · exact h.choice c hc

theorem counter_eq (h : c.index < (p.counters c.table).length) :
    p.counter c = .ok ((p.counters c.table)[c.index]) := by
  rw [counter, get, List.getElem?_eq_getElem h]

theorem length_bumpAt (up : Bool) (l : List Nat) (i : Option Nat) :
    (bumpAt up l i).length = l.length := by
  cases i with
  | none => rfl
  | some i => exact List.length_modify ..

theorem count_eq {c : Option Ptr} {up : Bool}
    (h : ∀ x, c = some x → x.index < (p.counters x.table).length) :
    p.count c up = .ok (p.withTables fun T => bumpAt up (p.counters T) (inTable c T)) := by
  cases c with
  | none => rfl
  | some c =>
    have hLt := h c rfl
    unfold count
    dsimp only
    rw [counter_eq hLt]
    show Except.ok (p.setCounters ((p.counters c.table).set c.index (bump up _)) c.table) = _
    rw [setCounters_eq]
    refine congrArg (fun l => Except.ok (p.withTables l)) (funext fun T => ?_)
    by_cases hT : c.table = T
    · subst hT
      rw [Function.update_self, inTable_self, bumpAt, List.modify_eq_set_getElem?,
        List.getElem?_eq_getElem hLt]
      rfl
    · rw [Function.update_of_ne (Ne.symm hT), inTable_ne fun x hx => by cases hx; exact hT]
      rfl

/-- The counters after an update. -/
def trained (p : Predictor) (taken : Word) (u : Update) : Table → List Nat
  | .metaPred =>
    if u.dirBimod ≠ u.dirTwolev then
      bumpAt (decide ((if u.dirTwolev then 1 else 0) = taken)) (p.counters .metaPred)
        (inTable u.pmeta .metaPred)
    else p.counters .metaPred
  | T => bumpAt (decide (taken ≠ 0)) (p.counters T) (u.ptrTo T)

/-- A table is changed through one of the two direction pointers at most. -/
theorem Fits.bumpAt_dirs (h : p.Fits u) (up : Bool) (l : List Nat) (T : Table) :
    bumpAt up (bumpAt up l (inTable u.pdir1 T)) (inTable u.pdir2 T) = bumpAt up l (u.ptrTo T) := by
  unfold Update.ptrTo
  cases h1 : u.pdir1 with
  | none => rfl
  | some c =>
    by_cases hT : c.table = T
    · subst hT
      rw [inTable_ne fun c' h2 => (h.apart c c' h1 h2).symm, Option.or_none]
      rfl
    · rw [@inTable_ne (some c) T fun x hx => by cases hx; exact hT]
      rfl

/-- Whichever field has the pointer. -/
theorem Fits.ptrTo_eq (h : p.Fits u) (hc : u.pdir1 = some c ∨ u.pdir2 = some c) :
    u.ptrTo c.table = some c.index := by
  unfold Update.ptrTo
  rcases hc with hc | hc
  · rw [hc, inTable_self]
    rfl
  · rw [inTable_ne fun x hx => h.apart x c hx hc, hc, inTable_self]
    rfl

theorem Fits.ptrTo_metaPred (h : p.Fits u) : u.ptrTo .metaPred = none := by
  unfold Update.ptrTo
  rw [inTable_ne fun x hx => (h.dir1 x hx).1, inTable_ne fun x hx => (h.dir2 x hx).1]
  rfl

theorem train_eq (h : p.Fits u) (taken : Word) :
    p.train taken u = .ok (p.withTables (p.trained taken u)) := by
  have hMeta : ∀ T, T ≠ .metaPred → inTable u.pmeta T = none := fun T hT =>
    inTable_ne fun x hx => by rw [(h.choice x hx).1]; exact hT.symm
  unfold train
  rw [count_eq fun x hx => (h.dir1 x hx).2]
  show (count _ u.pdir2 _ >>= fun p => p.choose taken u) = _
  rw [count_eq fun x hx => by
    rw [counters_withTables, length_bumpAt]
    exact (h.dir2 x hx).2]
  show choose _ taken u = _
  rw [withTables_withTables, counters_withTables]
  simp only [h.bumpAt_dirs]
  unfold choose
  split
  · rename_i hDiff
    rw [count_eq fun x hx => by
      rw [counters_withTables, length_bumpAt]
      exact (h.choice x hx).2, withTables_withTables, counters_withTables]
    refine congrArg (fun l => Except.ok (p.withTables l)) (funext fun T => ?_)
    cases T with
    | metaPred =>
      rw [h.ptrTo_metaPred, trained, if_pos hDiff]
      rfl
    | bimod => rw [hMeta .bimod (by decide)]; rfl
    | twolev => rw [hMeta .twolev (by decide)]; rfl
  · rename_i hSame
    refine congrArg (fun l => Except.ok (p.withTables l)) (funext fun T => ?_)
    cases T with
    | metaPred =>
      rw [h.ptrTo_metaPred, trained, if_neg hSame]
      rfl
    | bimod => rfl
    | twolev => rfl

/-- The direction predictors of the class are all there. -/
structure Sound (p : Predictor) : Prop where
  bimod : p.cls = .comb ∨ p.cls = .twoBit → Counters p.bimod.size p.bimod.table
  twolev : p.cls = .comb ∨ p.cls = .twoLevel → p.twolev.Sound
  choice : p.cls = .comb → Counters p.metaPred.size p.metaPred.table

theorem create_sound {cls : Class} {z : Sizes} (h : create cls z = .ok p)
    (hCls : cls ≠ .taken ∧ cls ≠ .notTaken) : p.Sound ∧ p.cls = cls := by
  cases cls with
  | comb =>
    obtain ⟨bimod, hBimod, h⟩ := bind_eq_ok.mp h
    obtain ⟨twolev, hTwolev, h⟩ := bind_eq_ok.mp h
    obtain ⟨choice, hChoice, h⟩ := bind_eq_ok.mp h
    obtain ⟨btb, -, h⟩ := bind_eq_ok.mp h
    obtain ⟨retstack, -, h⟩ := bind_eq_ok.mp h
    cases h
    exact ⟨⟨fun _ => createBimod_sound hBimod, fun _ => createTwoLevel_sound hTwolev,
      fun _ => createBimod_sound hChoice⟩, rfl⟩
  | twoLevel =>
    obtain ⟨twolev, hTwolev, h⟩ := bind_eq_ok.mp h
    obtain ⟨btb, -, h⟩ := bind_eq_ok.mp h
    obtain ⟨retstack, -, h⟩ := bind_eq_ok.mp h
    cases h
    exact ⟨⟨by simp [zero], fun _ => createTwoLevel_sound hTwolev, by simp [zero]⟩, rfl⟩
  | twoBit =>
    obtain ⟨bimod, hBimod, h⟩ := bind_eq_ok.mp h
    obtain ⟨btb, -, h⟩ := bind_eq_ok.mp h
    obtain ⟨retstack, -, h⟩ := bind_eq_ok.mp h
    cases h
    exact ⟨⟨fun _ => createBimod_sound hBimod, by simp [zero], by simp [zero]⟩, rfl⟩
  | taken => exact absurd rfl hCls.1
  | notTaken => exact absurd rfl hCls.2

theorem Counters.bumpAt {l : List Nat} (h : Counters n l) (up : Bool) (i : Option Nat) :
    Counters n (bumpAt up l i) := by
  cases i with
  | none => exact h
  | some i => exact h.modify i up

end Predictor

/-! ### Components -/

/-- The direction components of a combining predictor. -/
inductive Part where
  | bimod | twolev
  deriving DecidableEq, Repr

variable {T : Part} {p : Predictor}

variable {p q : Predictor}

namespace Part

def table : Part → Table
  | bimod => .bimod
  | twolev => .twolev

/-- The class of the predictor that is this component alone. -/
def cls : Part → Class
  | bimod => .twoBit
  | twolev => .twoLevel

/-- The counter that the component has for a branch. -/
def ptr (T : Part) (p : Predictor) (baddr : Word) : Except Fault Ptr :=
  match T with
  | bimod => .ok ⟨.bimod, p.bimod.lookup baddr⟩
  | twolev => do
    let i ← p.twolev.lookup baddr
    return ⟨.twolev, i⟩

/-- The component is the same in both predictors. -/
def Same (T : Part) (p q : Predictor) : Prop :=
  match T with
  | bimod => p.bimod = q.bimod
  | twolev => p.twolev = q.twolev

theorem ptr_congr (h : T.Same p q) (baddr : Word) :
    T.ptr p baddr = T.ptr q baddr := by
  cases T with
  | bimod =>
    change p.bimod = q.bimod at h
    rw [ptr, ptr, h]
  | twolev =>
    change p.twolev = q.twolev at h
    rw [ptr, ptr, h]

/-- The predictor has the component. -/
def In (T : Part) (p : Predictor) : Prop := p.cls = .comb ∨ p.cls = T.cls

theorem ptr_eq (h : p.Sound) (hIn : T.In p) (baddr : Word) :
    ∃ c, T.ptr p baddr = .ok c ∧ c.table = T.table ∧ c.index < (p.counters T.table).length := by
  cases T with
  | bimod =>
    have hCounters := h.bimod hIn
    refine ⟨_, rfl, rfl, ?_⟩
    change p.bimod.lookup baddr < p.bimod.table.length
    rw [hCounters.length]
    exact and_pred_lt _ hCounters.size
  | twolev =>
    obtain ⟨i, hLookup, hLt⟩ := (h.twolev hIn).lookup_eq baddr
    exact ⟨⟨.twolev, i⟩, by rw [ptr, hLookup]; rfl, rfl, hLt⟩

end Part

namespace Predictor

variable {p : Predictor}

/-- The record of a conditional branch in a predictor that is one component. -/
theorem dirLookup_alone (h : p.Sound) (hCls : p.cls = T.cls) (baddr : Word) (u : Update) :
    ∃ c, T.ptr p baddr = .ok c ∧ c.table = T.table ∧ c.index < (p.counters c.table).length ∧
      p.dirLookup baddr u = .ok { u with pdir1 := some c } := by
  obtain ⟨c, hPtr, hTable, hLt⟩ := T.ptr_eq h (.inr hCls) baddr
  refine ⟨c, hPtr, hTable, by rw [hTable]; exact hLt, ?_⟩
  unfold dirLookup
  rw [hCls]
  cases T with
  | bimod =>
    cases hPtr
    rfl
  | twolev =>
    obtain ⟨i, hLookup, hc⟩ := bind_eq_ok.mp hPtr
    cases hc
    show (p.twolev.lookup baddr >>= _) = _
    rw [hLookup]
    rfl

/-- The record of a conditional branch in a combining predictor. -/
theorem dirLookup_comb (h : p.Sound) (hCls : p.cls = .comb) (baddr : Word) (u : Update) :
    ∃ b t m, Part.bimod.ptr p baddr = .ok b ∧ Part.twolev.ptr p baddr = .ok t ∧
      b.table = .bimod ∧ t.table = .twolev ∧ b.index < (p.counters .bimod).length ∧
      t.index < (p.counters .twolev).length ∧
      p.counter ⟨.metaPred, p.metaPred.lookup baddr⟩ = .ok m ∧
      ∃ dirBimod dirTwolev, p.dirLookup baddr u = .ok
        ⟨some (if 2 ≤ m then t else b), some (if 2 ≤ m then b else t),
          some ⟨.metaPred, p.metaPred.lookup baddr⟩, dirBimod, dirTwolev, decide (2 ≤ m)⟩ := by
  obtain ⟨b, hb, hbTable, hbLt⟩ := Part.bimod.ptr_eq h (.inl hCls) baddr
  obtain ⟨t, ht, htTable, htLt⟩ := Part.twolev.ptr_eq h (.inl hCls) baddr
  have hMeta : p.metaPred.lookup baddr < (p.counters .metaPred).length := by
    change _ < p.metaPred.table.length
    rw [(h.choice hCls).length]
    exact and_pred_lt _ (h.choice hCls).size
  obtain ⟨m, hm⟩ : ∃ m, p.counter ⟨.metaPred, p.metaPred.lookup baddr⟩ = .ok m :=
    ⟨_, counter_eq hMeta⟩
  obtain ⟨x, hx⟩ : ∃ x, p.counter b = .ok x := ⟨_, counter_eq (by rw [hbTable]; exact hbLt)⟩
  obtain ⟨y, hy⟩ : ∃ y, p.counter t = .ok y := ⟨_, counter_eq (by rw [htTable]; exact htLt)⟩
  refine ⟨b, t, m, hb, ht, hbTable, htTable, hbLt, htLt, hm, decide (2 ≤ x), decide (2 ≤ y), ?_⟩
  unfold dirLookup
  rw [hCls]
  cases hb
  obtain ⟨i, hLookup, hc⟩ := bind_eq_ok.mp ht
  cases hc
  show (p.twolev.lookup baddr >>= _) = _
  rw [hLookup]
  show (p.counter ⟨.metaPred, p.metaPred.lookup baddr⟩ >>= _) = _
  rw [hm]
  show (p.counter ⟨.bimod, p.bimod.lookup baddr⟩ >>= _) = _
  rw [hx]
  show (p.counter ⟨.twolev, i⟩ >>= _) = _
  rw [hy]
  rfl

theorem Fits.direction_eq (h : p.Fits u) (hSome : u.pdir1 ≠ none) :
    ∃ d, p.direction u = .ok d := by
  obtain ⟨c, hc⟩ := Option.ne_none_iff_exists'.mp hSome
  refine ⟨decide (2 ≤ (p.counters c.table).get ⟨c.index, (h.dir1 c hc).2⟩), ?_⟩
  unfold direction votes
  rw [hc]
  dsimp only
  rw [counter_eq (h.dir1 c hc).2]
  rfl

theorem fits_null (u : Update) :
    p.Fits { u with pdir1 := none, pdir2 := none, pmeta := none } := by
  refine ⟨fun c hc => ?_, fun c hc => ?_, fun c c' _ hc => ?_, fun c hc => ?_⟩ <;> cases hc

/-- What a record points to, for a component of the predictor. -/
theorem record_eq (h : p.Sound) (hIn : T.In p) (baddr : Word) (op : Opcode) (u : Update) :
    ∃ u', p.record baddr op u = .ok u' ∧ p.Fits u' ∧
      (uncond op = true → u'.ptrTo T.table = none) ∧
      (uncond op = false → u'.pdir1 ≠ none ∧
        ∃ c, T.ptr p baddr = .ok c ∧ u'.ptrTo T.table = some c.index) := by
  unfold record
  dsimp only
  by_cases hOp : uncond op = true
  · exact ⟨_, if_pos hOp, fits_null u, fun _ => rfl, fun hNot => absurd (hOp.symm.trans hNot) (by decide)⟩
  · rw [if_neg hOp]
    rcases hIn with hCls | hCls
    · obtain ⟨b, t, m, hb, ht, hbT, htT, hbLt, htLt, hm, x, y, hRecord⟩ := dirLookup_comb h hCls baddr
        { u with pdir1 := none, pdir2 := none, pmeta := none }
      have hMeta : p.metaPred.lookup baddr < (p.counters .metaPred).length := by
        by_contra hNot
        rw [counter, get, List.getElem?_eq_none (Nat.le_of_not_lt hNot)] at hm
        cases hm
      have hBoth : ∀ c, c = b ∨ c = t → c.table ≠ .metaPred ∧ c.index < (p.counters c.table).length := by
        rintro c (rfl | rfl)
        · rw [hbT]
          exact ⟨by decide, hbLt⟩
        · rw [htT]
          exact ⟨by decide, htLt⟩
      have hFits : p.Fits ⟨some (if 2 ≤ m then t else b), some (if 2 ≤ m then b else t),
          some ⟨.metaPred, p.metaPred.lookup baddr⟩, x, y, decide (2 ≤ m)⟩ := by
        refine ⟨fun c hc => hBoth c ?_, fun c hc => hBoth c ?_, fun c c' hc hc' => ?_, fun c hc => ?_⟩
        · cases hc
          split <;> simp
        · cases hc
          split <;> simp
        · cases hc
          cases hc'
          split <;> rw [hbT, htT] <;> decide
        · cases hc
          exact ⟨rfl, hMeta⟩
      refine ⟨_, hRecord, hFits, fun hIs => absurd hIs hOp, fun _ => ⟨by simp, ?_⟩⟩
      cases T with
      | bimod =>
        refine ⟨b, hb, ?_⟩
        rw [show Part.bimod.table = b.table from hbT.symm]
        exact hFits.ptrTo_eq (by by_cases hm : 2 ≤ m <;> simp [hm])
      | twolev =>
        refine ⟨t, ht, ?_⟩
        rw [show Part.twolev.table = t.table from htT.symm]
        exact hFits.ptrTo_eq (by by_cases hm : 2 ≤ m <;> simp [hm])
    · obtain ⟨c, hPtr, hTable, hLt, hRecord⟩ := dirLookup_alone h hCls baddr
        { u with pdir1 := none, pdir2 := none, pmeta := none }
      have hFits : p.Fits { u with pdir1 := some c, pdir2 := none, pmeta := none } := by
        refine ⟨fun c' hc => ?_, fun c' hc => ?_, fun c' c'' _ hc => ?_, fun c' hc => ?_⟩ <;> cases hc
        refine ⟨?_, hLt⟩
        rw [hTable]
        cases T <;> decide
      refine ⟨_, hRecord, hFits, fun hIs => absurd hIs hOp, fun _ => ⟨by simp, c, hPtr, ?_⟩⟩
      rw [← hTable]
      exact hFits.ptrTo_eq (.inl rfl)

end Predictor

/-! ### Two sessions -/

/-- A combining predictor and a predictor that is its component `T`. -/
structure Sim (T : Part) (p q : Predictor) : Prop where
  comb : p.cls = .comb
  alone : q.cls = T.cls
  sound : p.Sound
  sound' : q.Sound
  same : T.Same p q
  btb : p.btb = q.btb
  retstack : p.retstack = q.retstack

/-- The counters of a predictor stay where they are. -/
def SameSize (p p' : Predictor) : Prop := ∀ T, (p'.counters T).length = (p.counters T).length

/-- What a call leaves of both predictors. -/
def Step (T : Part) (p q p' q' : Predictor) : Prop := Sim T p' q' ∧ SameSize p p' ∧ SameSize q q'

/-- The direction predictors are the same. -/
structure SameDirs (p p' : Predictor) : Prop where
  cls : p'.cls = p.cls
  bimod : p'.bimod = p.bimod
  twolev : p'.twolev = p.twolev
  metaPred : p'.metaPred = p.metaPred

theorem SameDirs.size {p p' : Predictor} (h : SameDirs p p') : SameSize p p' := by
  intro T
  cases T with
  | bimod => exact congrArg (fun d => d.table.length) h.bimod
  | twolev => exact congrArg (fun d => d.l2table.length) h.twolev
  | metaPred => exact congrArg (fun d => d.table.length) h.metaPred

theorem SameDirs.sound {p p' : Predictor} (h : SameDirs p p') (hp : p.Sound) : p'.Sound := by
  refine ⟨fun hCls => ?_, fun hCls => ?_, fun hCls => ?_⟩ <;> rw [h.cls] at hCls
  · rw [h.bimod]
    exact hp.bimod hCls
  · rw [h.twolev]
    exact hp.twolev hCls
  · rw [h.metaPred]
    exact hp.choice hCls

variable {op : Opcode}

variable {u u' : Update}

namespace Sim

variable {T : Part} {p q : Predictor}

theorem refl (h : Sim T p q) : Step T p q p q := ⟨h, fun _ => rfl, fun _ => rfl⟩

/-- The direction predictors are left alone. -/
theorem of_dirs (h : Sim T p q) {p' q' : Predictor} (hp : SameDirs p p') (hq : SameDirs q q')
    (hBtb : p'.btb = q'.btb) (hRetstack : p'.retstack = q'.retstack) : Step T p q p' q' := by
  refine ⟨⟨hp.cls.trans h.comb, hq.cls.trans h.alone, hp.sound h.sound, hq.sound h.sound', ?_, hBtb,
    hRetstack⟩, hp.size, hq.size⟩
  cases T with
  | bimod => exact hp.bimod.trans (Eq.trans h.same hq.bimod.symm)
  | twolev => exact hp.twolev.trans (Eq.trans h.same hq.twolev.symm)

theorem pops_eq (h : Sim T p q) (op : Opcode) (r31p : Bool) : p.pops op r31p = q.pops op r31p := by
  unfold Predictor.pops
  rw [h.retstack]

theorem pop_agree (h : Sim T p q) :
    Agree (fun a b => Step T p q a.2 b.2) Eq p.pop q.pop := by
  unfold Predictor.pop
  dsimp only
  rw [h.retstack]
  split
  · exact h.of_dirs ⟨rfl, rfl, rfl, rfl⟩ ⟨rfl, rfl, rfl, rfl⟩ h.btb rfl
  · exact rfl

theorem target_agree (h : Sim T p q) (hu : p.Fits u) (hu' : q.Fits u')
    (hDir : uncond op = false → u.pdir1 ≠ none ∧ u'.pdir1 ≠ none) (baddr : Word) :
    Agree (fun _ _ => True) Eq (p.target baddr op u) (q.target baddr op u') := by
  unfold Predictor.target
  rw [h.btb]
  refine (Agree.refl _).bind fun hit _ _ _ hHit => ?_
  subst hHit
  by_cases hOp : uncond op = true
  · rw [if_pos hOp, if_pos hOp]
    trivial
  · obtain ⟨hSome, hSome'⟩ := hDir (by simpa using hOp)
    obtain ⟨d, hd⟩ := hu.direction_eq hSome
    obtain ⟨d', hd'⟩ := hu'.direction_eq hSome'
    rw [if_neg hOp, if_neg hOp, hd, hd']
    trivial

theorem predict_agree (h : Sim T p q) (hu : p.Fits u) (hu' : q.Fits u')
    (hDir : uncond op = false → u.pdir1 ≠ none ∧ u'.pdir1 ≠ none) (baddr : Word) (r31p : Bool) :
    Agree (fun a b => Step T p q a.2 b.2) Eq (p.predict baddr op r31p u)
      (q.predict baddr op r31p u') := by
  unfold Predictor.predict
  rw [h.pops_eq]
  split
  · exact h.pop_agree
  · exact (h.target_agree hu hu' hDir baddr).bind fun _ _ _ _ _ => h.refl

/-- Both records point to the same counter of the component. -/
structure SameRecord (T : Part) (p q : Predictor) (u u' : Update) : Prop where
  fits : p.Fits u
  fits' : q.Fits u'
  ptrTo : u.ptrTo T.table = u'.ptrTo T.table

theorem record_agree (h : Sim T p q) (baddr : Word) (op : Opcode) (before : Update) :
    Agree (fun u u' => SameRecord T p q u u' ∧
        (uncond op = false → u.pdir1 ≠ none ∧ u'.pdir1 ≠ none)) Eq
      (p.record baddr op before) (q.record baddr op before) := by
  obtain ⟨u, hu, hFits, hJump, hBranch⟩ :=
    Predictor.record_eq h.sound (show T.In p from .inl h.comb) baddr op before
  obtain ⟨u', hu', hFits', hJump', hBranch'⟩ :=
    Predictor.record_eq h.sound' (show T.In q from .inr h.alone) baddr op before
  rw [hu, hu']
  by_cases hOp : uncond op = true
  · exact ⟨⟨hFits, hFits', (hJump hOp).trans (hJump' hOp).symm⟩,
      fun hNot => absurd (hOp.symm.trans hNot) (by decide)⟩
  · have hOp : uncond op = false := by simpa using hOp
    obtain ⟨hSome, c, hPtr, hTo⟩ := hBranch hOp
    obtain ⟨hSome', c', hPtr', hTo'⟩ := hBranch' hOp
    rw [Part.ptr_congr h.same, hPtr'] at hPtr
    cases hPtr
    exact ⟨⟨hFits, hFits', hTo.trans hTo'.symm⟩, fun _ => ⟨hSome, hSome'⟩⟩

/-! ### Update -/

theorem push_step (h : Sim T p q) (baddr : Word) (op : Opcode) :
    Step T p q (p.push baddr op) (q.push baddr op) := by
  unfold Predictor.push Predictor.pushes
  rw [h.retstack]
  split
  · exact h.of_dirs ⟨rfl, rfl, rfl, rfl⟩ ⟨rfl, rfl, rfl, rfl⟩ h.btb rfl
  · exact h.refl

theorem shift_agree (h : Sim T p q) (baddr : Word) (taken : Bool) (op : Opcode) :
    Agree (Step T p q) Eq (p.shift baddr taken op) (q.shift baddr taken op) := by
  by_cases hOp : uncond op = true
  · unfold Predictor.shift
    rw [hOp]
    exact h.refl
  · obtain ⟨regs, hShift, hSound⟩ := (h.sound.twolev (.inl h.comb)).shift_eq baddr taken
    have hLeft : p.shift baddr taken op =
        .ok { p with twolev := { p.twolev with shiftregs := regs } } := by
      unfold Predictor.shift
      rw [if_pos (by simp [hOp, h.comb]), hShift]
      rfl
    have hStep : Predictor.Sound { p with twolev := { p.twolev with shiftregs := regs } } :=
      ⟨h.sound.bimod, fun _ => hSound, h.sound.choice⟩
    have hSize : SameSize p { p with twolev := { p.twolev with shiftregs := regs } } := by
      intro T
      cases T <;> rfl
    rw [hLeft]
    cases T with
    | bimod =>
      have hRight : q.shift baddr taken op = .ok q := by
        unfold Predictor.shift
        rw [if_neg (by simp [h.alone, Part.cls])]
      rw [hRight]
      exact ⟨{ h with sound := hStep }, hSize, fun T => rfl⟩
    | twolev =>
      have hSame : p.twolev = q.twolev := h.same
      have hRight : q.shift baddr taken op =
          .ok { q with twolev := { p.twolev with shiftregs := regs } } := by
        unfold Predictor.shift
        rw [if_pos (by simp [hOp, h.alone, Part.cls]), ← hSame, hShift]
        rfl
      rw [hRight]
      refine ⟨⟨h.comb, h.alone, hStep, ⟨h.sound'.bimod, fun _ => hSound, h.sound'.choice⟩, rfl, h.btb,
        h.retstack⟩, hSize, fun T => ?_⟩
      cases T with
      | bimod => rfl
      | twolev => exact congrArg (fun d => d.l2table.length) hSame
      | metaPred => rfl

theorem select_agree (h : Sim T p q) (baddr : Word) (taken : Bool) :
    Agree (fun a b => a.1 = b.1 ∧ Step T p q a.2 b.2) Eq (p.select baddr taken)
      (q.select baddr taken) := by
  unfold Predictor.select
  rw [h.btb]
  split
  · refine (Agree.refl _).bind fun x _ _ _ hx => ?_
    subst hx
    exact ⟨rfl, h.of_dirs ⟨rfl, rfl, rfl, rfl⟩ ⟨rfl, rfl, rfl, rfl⟩ rfl h.retstack⟩
  · exact ⟨rfl, h.refl⟩

theorem enter_agree (h : Sim T p q) (i : Option Nat) (baddr btarget : Word) (correct : Bool)
    (op : Opcode) :
    Agree (Step T p q) Eq (p.enter i baddr btarget correct op)
      (q.enter i baddr btarget correct op) := by
  cases i with
  | none => exact h.refl
  | some i =>
    unfold Predictor.enter
    dsimp only
    rw [h.btb]
    refine (Agree.refl _).bind fun b _ _ _ hb => ?_
    subst hb
    exact h.of_dirs ⟨rfl, rfl, rfl, rfl⟩ ⟨rfl, rfl, rfl, rfl⟩ rfl h.retstack

end Sim

theorem Predictor.Sound.withTables (h : p.Sound) {l : Table → List Nat}
    (hl : ∀ T n, Counters n (p.counters T) → Counters n (l T)) : (p.withTables l).Sound := by
  refine ⟨fun hCls => hl .bimod _ (h.bimod hCls), fun hCls => ?_, fun hCls => hl .metaPred _ (h.choice hCls)⟩
  have hTwo := h.twolev hCls
  exact ⟨hTwo.l1, hTwo.regs, hTwo.history, hTwo.width, hl .twolev _ hTwo.counters⟩

/-- In each table one counter moves at most. -/
theorem Predictor.trained_eq (p : Predictor) (taken : Word) (u : Update) (T : Table) :
    ∃ up i, p.trained taken u T = bumpAt up (p.counters T) i := by
  cases T with
  | bimod => exact ⟨_, _, rfl⟩
  | twolev => exact ⟨_, _, rfl⟩
  | metaPred =>
    by_cases hDiff : u.dirBimod ≠ u.dirTwolev
    · exact ⟨_, _, if_pos hDiff⟩
    · exact ⟨true, none, if_neg hDiff⟩

theorem Predictor.trained_size (p : Predictor) (taken : Word) (u : Update) :
    SameSize p (p.withTables (p.trained taken u)) := by
  intro T
  obtain ⟨up, i, hEq⟩ := p.trained_eq taken u T
  rw [counters_withTables, hEq]
  exact length_bumpAt ..

theorem Predictor.Sound.trained (h : p.Sound) (taken : Word) (u : Update) :
    (p.withTables (p.trained taken u)).Sound := by
  refine h.withTables fun T n hn => ?_
  obtain ⟨up, i, hEq⟩ := p.trained_eq taken u T
  rw [hEq]
  exact Counters.bumpAt hn up i

namespace Sim

variable {T : Part} {p q : Predictor}

theorem train_agree (h : Sim T p q) (hu : SameRecord T p q u u') (taken : Word) :
    Agree (Step T p q) Eq (p.train taken u) (q.train taken u') := by
  rw [Predictor.train_eq hu.fits, Predictor.train_eq hu.fits']
  refine ⟨⟨h.comb, h.alone, h.sound.trained taken u, h.sound'.trained taken u', ?_, h.btb,
    h.retstack⟩, p.trained_size taken u, q.trained_size taken u'⟩
  have hTo := hu.ptrTo
  cases T with
  | bimod =>
    have hSame : p.bimod = q.bimod := h.same
    have hTable : p.trained taken u .bimod = q.trained taken u' .bimod := by
      show Predictor.bumpAt _ p.bimod.table (u.ptrTo .bimod) =
        Predictor.bumpAt _ q.bimod.table (u'.ptrTo .bimod)
      rw [hSame, show u.ptrTo .bimod = u'.ptrTo .bimod from hTo]
    unfold Part.Same Predictor.withTables
    dsimp only
    rw [hSame, hTable]
  | twolev =>
    have hSame : p.twolev = q.twolev := h.same
    have hTable : p.trained taken u .twolev = q.trained taken u' .twolev := by
      show Predictor.bumpAt _ p.twolev.l2table (u.ptrTo .twolev) =
        Predictor.bumpAt _ q.twolev.l2table (u'.ptrTo .twolev)
      rw [hSame, show u.ptrTo .twolev = u'.ptrTo .twolev from hTo]
    unfold Part.Same Predictor.withTables
    dsimp only
    rw [hSame, hTable]

end Sim

/-- The predictor with one more lookup. -/
def Predictor.seen (p : Predictor) : Predictor :=
  { p with stats := { p.stats with lookups := p.stats.lookups + 1 } }

/-- The lookup of a control instruction in a stateful predictor. -/
theorem Predictor.lookup_eq (hCtrl : op.has F.ctrl = true)
    (hCls : p.isStatic = false) (baddr btarget : Word) (r31p : Bool) (u : Update) (idx : Word) :
    p.lookup baddr btarget op r31p u idx = (do
      let u ← p.seen.record baddr op u
      let (addr, p') ← p.seen.predict baddr op r31p u
      return (addr, u, if p.retstack.size ≠ 0 then p.retstack.tos else 0, p')) := by
  unfold lookup
  rw [if_neg (by simp [hCtrl])]
  unfold isStatic at hCls
  dsimp only
  split
  · rename_i hIs
    simp [hIs] at hCls
  · rename_i hIs
    simp [hIs] at hCls
  all_goals rfl

theorem Step.trans {p q p₁ q₁ p₂ q₂ : Predictor} (h : Step T p q p₁ q₁)
    (h' : Step T p₁ q₁ p₂ q₂) : Step T p q p₂ q₂ :=
  ⟨h'.1, fun T => (h'.2.1 T).trans (h.2.1 T), fun T => (h'.2.2 T).trans (h.2.2 T)⟩

namespace Sim

variable {T : Part} {p q : Predictor}

theorem SameRecord.step {p' q' : Predictor} (h : SameRecord T p q u u')
    (hStep : Step T p q p' q') : SameRecord T p' q' u u' :=
  ⟨h.fits.congr hStep.2.1, h.fits'.congr hStep.2.2, h.ptrTo⟩

theorem not_static (h : Sim T p q) : p.isStatic = false ∧ q.isStatic = false := by
  refine ⟨by simp [Predictor.isStatic, h.comb], ?_⟩
  cases T <;> simp [Predictor.isStatic, h.alone, Part.cls]

theorem lookup_agree (h : Sim T p q) (baddr btarget : Word) (op : Opcode) (r31p : Bool)
    (before : Update) (idx : Word) :
    Agree (fun a b => Step T p q a.2.2.2 b.2.2.2 ∧
        (op.has F.ctrl = true → SameRecord T p q a.2.1 b.2.1)) Eq
      (p.lookup baddr btarget op r31p before idx) (q.lookup baddr btarget op r31p before idx) := by
  by_cases hCtrl : op.has F.ctrl = true
  · have hSeen : Step T p q p.seen q.seen :=
      h.of_dirs ⟨rfl, rfl, rfl, rfl⟩ ⟨rfl, rfl, rfl, rfl⟩ h.btb h.retstack
    rw [Predictor.lookup_eq hCtrl h.not_static.1, Predictor.lookup_eq hCtrl h.not_static.2]
    refine (hSeen.1.record_agree baddr op before).bind fun u u' _ _ hu => ?_
    refine (hSeen.1.predict_agree hu.1.fits hu.1.fits' hu.2 baddr r31p).bind fun a b _ _ hab => ?_
    exact ⟨hSeen.trans hab, fun _ =>
      ⟨hu.1.fits.congr fun _ => rfl, hu.1.fits'.congr fun _ => rfl, hu.1.ptrTo⟩⟩
  · unfold Predictor.lookup
    rw [if_pos (by simpa using hCtrl), if_pos (by simpa using hCtrl)]
    exact ⟨h.refl, fun hIs => absurd hIs hCtrl⟩

theorem update_agree (h : Sim T p q)
    (hu : op.has F.ctrl = true → SameRecord T p q u u') (baddr btarget taken : Word)
    (predTaken correct r31p : Bool) :
    Agree (Step T p q) Eq (p.update baddr btarget taken predTaken correct op r31p u)
      (q.update baddr btarget taken predTaken correct op r31p u') := by
  unfold Predictor.update
  by_cases hCtrl : op.has F.ctrl = true
  · have hNot : ¬(!op.has F.ctrl) = true := by simp [hCtrl]
    rw [if_neg hNot, if_neg hNot]
    dsimp only
    have hTally : Step T p q
        { p with stats := p.tally (decide (taken ≠ 0)) predTaken correct op u }
        { q with stats := q.tally (decide (taken ≠ 0)) predTaken correct op u' } :=
      h.of_dirs ⟨rfl, rfl, rfl, rfl⟩ ⟨rfl, rfl, rfl, rfl⟩ h.btb h.retstack
    rw [hTally.1.pops_eq, hTally.1.not_static.1, hTally.1.not_static.2]
    split
    · exact hTally
    have hPush := hTally.trans (hTally.1.push_step baddr op)
    refine (hPush.1.shift_agree baddr _ op).bind fun p₁ q₁ _ _ hShift => ?_
    refine (hShift.1.select_agree baddr _).bind fun a b _ _ hSelect => ?_
    have hTo := (hPush.trans hShift).trans hSelect.2
    refine (hSelect.2.1.train_agree ((hu hCtrl).step hTo) taken).bind fun p₂ q₂ _ _ hTrain => ?_
    rw [hSelect.1]
    exact (hTrain.1.enter_agree b.1 baddr btarget correct op).mono fun _ _ hEnter =>
      (hTo.trans hTrain).trans hEnter
  · rw [if_pos (by simpa using hCtrl), if_pos (by simpa using hCtrl)]
    exact h.refl

/-! ### Predictions -/

theorem votes_eq (h : Sim T p q) (hc : c.table = T.table) : p.votes c = q.votes c := by
  have hSame := h.same
  unfold Predictor.votes Predictor.counter
  rw [hc]
  cases T with
  | bimod => exact congrArg (fun d : Bimod => get d.table c.index >>= _) hSame
  | twolev => exact congrArg (fun d : TwoLevel => get d.l2table c.index >>= _) hSame

end Sim

/-- The answer for a conditional branch. -/
theorem Predictor.lookup_cond (hCtrl : op.has F.ctrl = true)
    (hCls : p.isStatic = false) (hOp : uncond op = false) {baddr : Word} {d : Bool}
    (hDir : (p.record baddr op u >>= p.direction) = .ok d) (btarget : Word) (r31p : Bool) (idx : Word) :
    (p.lookup baddr btarget op r31p u idx).map Prod.fst = (p.btb.find baddr).map fun hit =>
      if d then (hit.map fun i => (p.btb.data i).target).getD 1 else 0 := by
  obtain ⟨u', hRecord, hDir⟩ := bind_eq_ok.mp hDir
  have hRecord : p.seen.record baddr op u = .ok u' := hRecord
  have hDir : p.seen.direction u' = .ok d := hDir
  have hPops : p.seen.pops op r31p = false := by
    have hJr : op ≠ .jr := by
      rintro rfl
      exact absurd hOp (by decide)
    unfold pops
    rw [decide_eq_false hJr, Bool.false_and, Bool.false_and]
  rw [lookup_eq hCtrl hCls, hRecord]
  show Except.map Prod.fst (p.seen.predict baddr op r31p u' >>= _) = _
  unfold predict target
  rw [hPops, if_neg (by decide)]
  show Except.map Prod.fst (((p.btb.find baddr >>= _) >>= _) >>= _) = _
  cases p.btb.find baddr with
  | error e => rfl
  | ok hit =>
    show Except.map Prod.fst (((if uncond op then _ else p.seen.direction u' >>= _) >>= _) >>= _) = _
    rw [hOp, if_neg (by decide), hDir]
    rfl

/-- The direction of a conditional branch in a predictor that is a component. -/
theorem Sim.direction_alone (h : Sim T p q)
    (hOp : uncond op = false) {baddr : Word} {x : Ptr} (hx : T.ptr p baddr = .ok x)
    (u : Update) : (q.record baddr op u >>= q.direction) = p.votes x := by
  obtain ⟨y, hPtr, hTable, -, hRecord⟩ := Predictor.dirLookup_alone h.sound' h.alone baddr
    { u with pdir1 := none, pdir2 := none, pmeta := none }
  rw [Part.ptr_congr h.same, hPtr] at hx
  cases hx
  rw [h.votes_eq hTable]
  unfold Predictor.record
  dsimp only
  rw [hOp, if_neg (by decide), hRecord]
  rfl

/-- The component that the meta predictor selects answers for the combining predictor. -/
theorem Sim.chosen {c b t : Predictor} (hb : Sim .bimod c b) (ht : Sim .twolev c t)
    (hOp : uncond op = false) (baddr : Word) (u : Update) :
    ∃ m d, c.counter ⟨.metaPred, c.metaPred.lookup baddr⟩ = .ok m ∧
      (c.record baddr op u >>= c.direction) = .ok d ∧
      ((if 2 ≤ m then t else b).record baddr op u >>= (if 2 ≤ m then t else b).direction) = .ok d := by
  obtain ⟨x, y, m, hx, hy, hxT, hyT, hxLt, hyLt, hm, dirBimod, dirTwolev, hRecord⟩ :=
    Predictor.dirLookup_comb hb.sound hb.comb baddr { u with pdir1 := none, pdir2 := none, pmeta := none }
  have hDir : (c.record baddr op u >>= c.direction) = c.votes (if 2 ≤ m then y else x) := by
    unfold Predictor.record
    dsimp only
    rw [hOp, if_neg (by decide), hRecord]
    rfl
  have hVotes : ∀ z : Ptr, z.index < (c.counters z.table).length → ∃ d, c.votes z = .ok d := by
    intro z hz
    refine ⟨decide (2 ≤ (c.counters z.table).get ⟨z.index, hz⟩), ?_⟩
    unfold Predictor.votes
    rw [Predictor.counter_eq hz]
    rfl
  by_cases hSel : 2 ≤ m
  · obtain ⟨d, hd⟩ := hVotes y (by rw [hyT]; exact hyLt)
    refine ⟨m, d, hm, ?_, ?_⟩
    · rw [hDir, if_pos hSel, hd]
    · rw [if_pos hSel, ht.direction_alone hOp hy, hd]
  · obtain ⟨d, hd⟩ := hVotes x (by rw [hxT]; exact hxLt)
    refine ⟨m, d, hm, ?_, ?_⟩
    · rw [hDir, if_neg hSel, hd]
    · rw [if_neg hSel, hb.direction_alone hOp hx, hd]

/-! ### Runs -/

/-- Lookups with the same arguments, and records of the same counter. -/
structure SameLookup (T : Part) (p q : Predictor) (r r' : Record) : Prop where
  baddr : r.baddr = r'.baddr
  op : r.op = r'.op
  r31p : r.r31p = r'.r31p
  upd : r.op.has F.ctrl = true → Sim.SameRecord T p q r.upd r'.upd

/-- A session of a combining predictor and one of its component. -/
structure Tracks (T : Part) (s s' : Session) : Prop where
  sim : Sim T s.pred s'.pred
  records : List.Forall₂ (SameLookup T s.pred s'.pred) s.records s'.records

namespace Tracks

variable {T : Part} {s s' : Session}

theorem records_step (h : Tracks T s s') (hStep : Step T s.pred s'.pred p q) :
    List.Forall₂ (SameLookup T p q) s.records s'.records :=
  h.records.imp fun _ _ hr => ⟨hr.baddr, hr.op, hr.r31p, fun hCtrl => (hr.upd hCtrl).step hStep⟩

theorem step_agree (h : Tracks T s s') (c : Call) :
    Agree (Tracks T) Eq (s.step c) (s'.step c) := by
  cases c with
  | lookup baddr btarget op r31p before =>
    refine (h.sim.lookup_agree baddr btarget op r31p before 0).bind fun a b _ _ hab => ?_
    refine ⟨hab.1.1, List.rel_append (h.records_step hab.1) ?_⟩
    exact .cons ⟨rfl, rfl, rfl, fun hCtrl => (hab.2 hCtrl).step hab.1⟩ .nil
  | update k btarget taken predTaken correct =>
    unfold Session.step
    dsimp only
    cases hk : s.records[k]? with
    | none =>
      have hk' : s'.records[k]? = none := by
        rw [List.getElem?_eq_none_iff] at hk ⊢
        rw [← h.records.length_eq]
        exact hk
      rw [hk']
      exact h
    | some r =>
      obtain ⟨hLt, rfl⟩ := List.getElem?_eq_some_iff.mp hk
      have hLt' : k < s'.records.length := by
        rw [← h.records.length_eq]
        exact hLt
      have hr := h.records.get hLt hLt'
      rw [List.getElem?_eq_getElem hLt']
      dsimp only
      simp only [List.get_eq_getElem] at hr
      rw [← hr.baddr, ← hr.op, ← hr.r31p]
      refine (h.sim.update_agree hr.upd _ btarget taken predTaken correct _).bind fun p q _ _ hpq => ?_
      exact ⟨hpq.1, h.records_step hpq⟩

theorem run_agree (h : Tracks T s s') (calls : List Call) :
    Agree (Tracks T) Eq (s.run calls) (s'.run calls) := by
  induction calls generalizing s s' with
  | nil => exact h
  | cons c cs ih => exact (h.step_agree c).bind fun _ _ _ _ hNext => ih hNext

end Tracks

/-- The predictors of one set of sizes. -/
theorem create_parts {z : Sizes} {c : Predictor} (hc : create .comb z = .ok c) :
    ∃ b t, create .twoBit z = .ok b ∧ create .twoLevel z = .ok t ∧ Sim .bimod c b ∧
      Sim .twolev c t := by
  obtain ⟨hSound, hCls⟩ := Predictor.create_sound hc (by decide)
  obtain ⟨bimod, hBimod, hc⟩ := bind_eq_ok.mp hc
  obtain ⟨twolev, hTwolev, hc⟩ := bind_eq_ok.mp hc
  obtain ⟨choice, hChoice, hc⟩ := bind_eq_ok.mp hc
  obtain ⟨btb, hBtb, hc⟩ := bind_eq_ok.mp hc
  obtain ⟨retstack, hRetstack, hc⟩ := bind_eq_ok.mp hc
  have hb : create .twoBit z = .ok { zero .twoBit with bimod := bimod, btb := btb, retstack := retstack } := by
    rw [create, hBimod, hBtb, hRetstack]
    rfl
  have ht : create .twoLevel z =
      .ok { zero .twoLevel with twolev := twolev, btb := btb, retstack := retstack } := by
    rw [create, hTwolev, hBtb, hRetstack]
    rfl
  cases hc
  exact ⟨_, _, hb, ht, ⟨hCls, rfl, hSound, (Predictor.create_sound hb (by decide)).1, rfl, rfl, rfl⟩,
    ⟨hCls, rfl, hSound, (Predictor.create_sound ht (by decide)).1, rfl, rfl, rfl⟩⟩

/-- The tables of a combining predictor, and where its branches and records point. -/
structure InRange (s : Session) : Prop where
  bimod : ∀ n ∈ s.pred.bimod.table, n ≤ 3
  twolev : ∀ n ∈ s.pred.twolev.l2table, n ≤ 3
  metaPred : ∀ n ∈ s.pred.metaPred.table, n ≤ 3
  history : ∀ h ∈ s.pred.twolev.shiftregs, h.toNat < 2 ^ s.pred.twolev.shiftWidth.toNat
  bimodIndex : ∀ baddr, s.pred.bimod.lookup baddr < s.pred.bimod.table.length
  l1index : ∀ baddr, s.pred.twolev.l1index baddr < s.pred.twolev.shiftregs.length
  l2index : ∀ baddr h, s.pred.twolev.l2index baddr h < s.pred.twolev.l2table.length
  metaIndex : ∀ baddr, s.pred.metaPred.lookup baddr < s.pred.metaPred.table.length
  records : ∀ r ∈ s.records, r.op.has F.ctrl = true → s.pred.Fits r.upd

/-- A combining predictor answers a conditional branch as the component that its meta
predictor selects. -/
def Chooses (c b t : Predictor) : Prop :=
  ∀ baddr btarget op r31p u idx, op.has F.ctrl = true → uncond op = false →
    ∃ m, c.counter ⟨.metaPred, c.metaPred.lookup baddr⟩ = .ok m ∧
      (c.record baddr op u >>= c.direction) =
        ((if 2 ≤ m then t else b).record baddr op u >>= (if 2 ≤ m then t else b).direction) ∧
      (c.lookup baddr btarget op r31p u idx).map Prod.fst =
        ((if 2 ≤ m then t else b).lookup baddr btarget op r31p u idx).map Prod.fst

theorem Sim.chooses {c b t : Predictor} (hb : Sim .bimod c b) (ht : Sim .twolev c t) :
    Chooses c b t := by
  intro baddr btarget op r31p u idx hCtrl hOp
  obtain ⟨m, d, hm, hc, hSel⟩ := hb.chosen ht hOp baddr u
  refine ⟨m, hm, hc.trans hSel.symm, ?_⟩
  have hStatic : (if 2 ≤ m then t else b).isStatic = false := by
    split
    · exact ht.not_static.2
    · exact hb.not_static.2
  have hBtb : (if 2 ≤ m then t else b).btb = c.btb := by
    split
    · exact ht.btb.symm
    · exact hb.btb.symm
  rw [Predictor.lookup_cond hCtrl hb.not_static.1 hOp hc, Predictor.lookup_cond hCtrl hStatic hOp hSel,
    hBtb]

theorem Tracks.inRange {c b : Session} (h : Tracks .bimod c b) : InRange c := by
  have hBimod := h.sim.sound.bimod (.inl h.sim.comb)
  have hTwolev := h.sim.sound.twolev (.inl h.sim.comb)
  have hChoice := h.sim.sound.choice h.sim.comb
  refine ⟨hBimod.le, hTwolev.counters.le, hChoice.le, hTwolev.history, fun baddr => ?_,
    hTwolev.l1index_lt, hTwolev.l2index_lt, fun baddr => ?_, fun r hr hCtrl => ?_⟩
  · rw [hBimod.length]
    exact and_pred_lt _ hBimod.size
  · rw [hChoice.length]
    exact and_pred_lt _ hChoice.size
  · obtain ⟨k, hk, rfl⟩ := List.getElem_of_mem hr
    exact ((h.records.get hk (h.records.length_eq ▸ hk)).upd hCtrl).fits

/-- **The combining predictor is the product of its components.**  In sessions with the same
calls it and the two predictors all stop for the same reason, or return with the same
tables. -/
theorem comb_is_product {z : Sizes} {c : Predictor} (hc : create .comb z = .ok c) :
    ∃ b t, create .twoBit z = .ok b ∧ create .twoLevel z = .ok t ∧ ∀ calls,
      (∃ e, Session.run ⟨c, []⟩ calls = .error e ∧ Session.run ⟨b, []⟩ calls = .error e ∧
        Session.run ⟨t, []⟩ calls = .error e) ∨
      ∃ c' b' t', Session.run ⟨c, []⟩ calls = .ok c' ∧ Session.run ⟨b, []⟩ calls = .ok b' ∧
        Session.run ⟨t, []⟩ calls = .ok t' ∧
        c'.pred.bimod = b'.pred.bimod ∧ c'.pred.twolev = t'.pred.twolev ∧ InRange c' ∧
        Chooses c'.pred b'.pred t'.pred := by
  obtain ⟨b, t, hb, ht, hSimB, hSimT⟩ := create_parts hc
  refine ⟨b, t, hb, ht, fun calls => ?_⟩
  have hAgreeB : Agree (Tracks .bimod) Eq (Session.run ⟨c, []⟩ calls) (Session.run ⟨b, []⟩ calls) :=
    Tracks.run_agree ⟨hSimB, .nil⟩ calls
  have hAgreeT : Agree (Tracks .twolev) Eq (Session.run ⟨c, []⟩ calls) (Session.run ⟨t, []⟩ calls) :=
    Tracks.run_agree ⟨hSimT, .nil⟩ calls
  cases hRun : Session.run ⟨c, []⟩ calls with
  | error e =>
    obtain ⟨_, hRunB, rfl⟩ := hAgreeB.of_error hRun
    obtain ⟨_, hRunT, rfl⟩ := hAgreeT.of_error hRun
    exact .inl ⟨e, rfl, hRunB, hRunT⟩
  | ok c' =>
    obtain ⟨b', hRunB, hTracksB⟩ := hAgreeB.of_ok hRun
    obtain ⟨t', hRunT, hTracksT⟩ := hAgreeT.of_ok hRun
    exact .inr ⟨c', b', t', rfl, hRunB, hRunT, hTracksB.sim.same, hTracksT.sim.same,
      hTracksB.inRange, hTracksB.sim.chooses hTracksT.sim⟩

/-- The default sizes of `sim-outorder`. -/
def defaultSizes : Sizes := ⟨2048, 1, 1024, 1024, 8, 0, 512, 4, 8⟩

theorem comb_is_product_default : ∃ c b t, create .comb defaultSizes = .ok c ∧
    create .twoBit defaultSizes = .ok b ∧ create .twoLevel defaultSizes = .ok t ∧
    ∀ calls c', Session.run ⟨c, []⟩ calls = .ok c' → ∃ b', Session.run ⟨b, []⟩ calls = .ok b' ∧
      c'.pred.bimod = b'.pred.bimod := by
  obtain ⟨c, hc⟩ : ∃ c, create .comb defaultSizes = .ok c := ⟨_, rfl⟩
  obtain ⟨b, t, hb, ht, hRuns⟩ := comb_is_product hc
  refine ⟨c, b, t, hc, hb, ht, fun calls c' hRun => ?_⟩
  rcases hRuns calls with ⟨e, hErr, -⟩ | ⟨c'', b', t', hRun', hRunB, -, hSame, -⟩
  · rw [hRun] at hErr
    cases hErr
  · rw [hRun] at hRun'
    cases hRun'
    exact ⟨b', hRunB, hSame⟩

end SimpleScalar.Bpred

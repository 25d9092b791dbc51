import Mathlib.Data.List.Nodup
import Mathlib.Data.List.Infix

/-!
# Replacement lists

A bounded list of resident items, the one to be replaced last at the front.  `access`
is the reference for LRU (`moves = true`: a hit moves the item to the front) and for
FIFO (`moves = false`: a hit leaves the order alone); a miss inserts at the front and
drops the last item only if the list is full.

* `access_prefix`: a smaller LRU list stays a prefix of a larger one.

An implementation keeps a fixed list of cells and labels them with items.  If the
cells that hold an item come first (`Packed`), then what the cells hold follows the
reference:

* `Packed.touch`: a cell is moved to the front.
* `Packed.insert`: the last cell is moved to the front and relabelled.
* `Packed.remove`: a cell is emptied and moved to the back.
-/

namespace Recency

open List
open Function (update_of_ne update_self)

variable {α ι : Type}

/-! ### The reference -/

/-- A miss: the last item is dropped only if the list is full. -/
def insert (k : Nat) (a : α) (L : List α) : List α := a :: if L.length < k then L else L.dropLast

/-- The item a miss drops. -/
def evicted (k : Nat) (L : List α) : Option α := if L.length < k then none else L.getLast?

/-- The outcome of an access, the item it evicts and the new list. -/
def access [DecidableEq α] (moves : Bool) (k : Nat) (a : α) (L : List α) : Bool × Option α × List α :=
  if a ∈ L then (true, none, if moves then a :: L.erase a else L)
  else (false, evicted k L, insert k a L)

variable {L M : List α}

/-- Dropping the last item of a full list keeps every strictly shorter prefix. -/
theorem prefix_dropLast (h : L <+: M) (hLt : L.length < M.length) :
    L <+: M.dropLast := by
  obtain ⟨N, rfl⟩ := h
  have hN : N ≠ [] := by
    rintro rfl
    simp at hLt
  rw [dropLast_append_of_ne_nil hN]
  exact prefix_append _ _

variable {a : α}

theorem insert_prefix {k l : Nat} (hkl : k ≤ l) (h : L <+: M)
    (hM : M.length ≤ l) : insert k a L <+: insert l a M := by
  have hLen := h.length_le
  unfold insert
  refine cons_prefix_cons.mpr ⟨rfl, ?_⟩
  split
  · split
    · exact h
    · exact prefix_dropLast h (by omega)
  · rcases Nat.lt_or_ge L.length M.length with hLt | hGe
    · refine ( dropLast_prefix L).trans ?_
      split
      · exact h
      · exact prefix_dropLast h hLt
    · obtain rfl := h.eq_of_length (by omega)
      split
      · exact dropLast_prefix L
      · exact prefix_rfl

theorem erase_prefix [DecidableEq α] (h : L <+: M) :
    L.erase a <+: M.erase a := by
  obtain ⟨N, rfl⟩ := h
  by_cases ha : a ∈ L
  · rw [erase_append_left N ha]
    exact prefix_append _ _
  · rw [erase_of_not_mem ha, erase_append_right N ha]
    exact prefix_append _ _

/-- **Inclusion.**  A smaller LRU list stays a prefix of a larger one. -/
theorem access_prefix [DecidableEq α] {k l : Nat} (hkl : k ≤ l) (h : L <+: M)
    (hM : M.length ≤ l) :
    (access true k a L).2.2 <+: (access true l a M).2.2 := by
  unfold access
  by_cases ha : a ∈ L
  · rw [if_pos ha, if_pos (h.subset ha)]
    exact cons_prefix_cons.mpr ⟨rfl, erase_prefix h⟩
  · rw [if_neg ha]
    by_cases hb : a ∈ M
    · -- the larger list moves an item that lies behind the smaller one
      rw [if_pos hb]
      refine cons_prefix_cons.mpr ⟨rfl, ?_⟩
      have hErase := erase_prefix h (a := a)
      rw [erase_of_not_mem ha] at hErase
      refine List.IsPrefix.trans ?_ hErase
      split
      · exact prefix_rfl
      · exact dropLast_prefix L
    · rw [if_neg hb]
      exact insert_prefix hkl h hM

/-! ### Cells -/

/-- What the cells hold, in their order. -/
def contents (lab : ι → Option α) (ws : List ι) : List α := ws.filterMap lab

/-- No item is held twice. -/
def Distinct (lab : ι → Option α) (ws : List ι) : Prop :=
  ∀ w ∈ ws, ∀ w' ∈ ws, ∀ a, lab w = some a → lab w' = some a → w = w'

/-- The cells that hold an item come first. -/
structure Packed (lab : ι → Option α) (ws : List ι) : Prop where
  nodup : ws.Nodup
  distinct : Distinct lab ws
  front : ∃ A B, ws = A ++ B ∧ (∀ w ∈ A, (lab w).isSome) ∧ ∀ w ∈ B, lab w = none

variable {lab : ι → Option α} {ws : List ι} {w : ι} {a : α}

theorem mem_contents : a ∈ contents lab ws ↔ ∃ w ∈ ws, lab w = some a := mem_filterMap

theorem contents_append (lab : ι → Option α) (A B : List ι) :
    contents lab (A ++ B) = contents lab A ++ contents lab B := filterMap_append

theorem contents_eq_nil (h : ∀ w ∈ ws, lab w = none) : contents lab ws = [] :=
  filterMap_eq_nil_iff.mpr h

theorem length_contents_le : (contents lab ws).length ≤ ws.length := length_filterMap_le _ _

theorem length_contents (h : ∀ w ∈ ws, (lab w).isSome) : (contents lab ws).length = ws.length := by
  induction ws with
  | nil => rfl
  | cons w ws ih =>
    obtain ⟨a, ha⟩ := Option.isSome_iff_exists.mp (h w (by simp))
    rw [contents, filterMap_cons_some ha, length_cons, length_cons]
    exact congrArg (· + 1) (ih fun v hv => h v (by simp [hv]))

theorem contents_congr {lab' : ι → Option α} (h : ∀ w ∈ ws, lab' w = lab w) :
    contents lab' ws = contents lab ws := filterMap_congr h

variable {vs : List ι}

theorem Distinct.sublist (h : Distinct lab ws) (hSub : ∀ w ∈ vs, w ∈ ws) :
    Distinct lab vs :=
  fun w hw w' hw' => h w (hSub w hw) w' (hSub w' hw')

/-- A cell is left out. -/
theorem contents_erase [DecidableEq α] [DecidableEq ι] (h : Distinct lab ws) (hNodup : ws.Nodup)
    (hw : w ∈ ws) (ha : lab w = some a) : contents lab (ws.erase w) = (contents lab ws).erase a := by
  obtain ⟨A, B, rfl⟩ := append_of_mem hw
  have hNot : w ∉ A := fun hA => (nodup_append.mp hNodup).2.2 w hA w (by simp) rfl
  have hItem : a ∉ contents lab A := by
    intro hIn
    obtain ⟨v, hv, hLab⟩ := mem_contents.mp hIn
    exact hNot (h v (by simp [hv]) w hw a hLab ha ▸ hv)
  rw [erase_append_right _ hNot, erase_cons_head, contents_append, contents_append,
    erase_append_right _ hItem]
  refine congrArg (contents lab A ++ ·) ?_
  rw [contents, contents, filterMap_cons_some ha, erase_cons_head]

/-- The cells in front of an occupied one are occupied. -/
theorem Packed.erase_front [DecidableEq ι] (h : Packed lab ws) (hw : w ∈ ws) (ha : (lab w).isSome) :
    ∃ A B, ws.erase w = A ++ B ∧ (∀ v ∈ A, (lab v).isSome) ∧ ∀ v ∈ B, lab v = none := by
  obtain ⟨A, B, hEq, hA, hB⟩ := h.front
  rw [hEq] at hw ⊢
  rcases mem_append.mp hw with hIn | hIn
  · exact ⟨A.erase w, B, erase_append_left B hIn, fun v hv => hA v (mem_of_mem_erase hv), hB⟩
  · rw [hB w hIn] at ha
    cases ha

/-- **A hit.** -/
theorem Packed.touch [DecidableEq α] [DecidableEq ι] (h : Packed lab ws) (hw : w ∈ ws)
    (ha : lab w = some a) : Packed lab (w :: ws.erase w) ∧
      contents lab (w :: ws.erase w) = a :: (contents lab ws).erase a := by
  have hSome : (lab w).isSome := by rw [ha]; rfl
  refine ⟨⟨?_, ?_, ?_⟩, ?_⟩
  · exact nodup_cons.mpr ⟨fun hIn => (h.nodup.mem_erase_iff.mp hIn).1 rfl, h.nodup.erase w⟩
  · refine h.distinct.sublist fun v hv => ?_
    rcases mem_cons.mp hv with rfl | hv
    · exact hw
    · exact mem_of_mem_erase hv
  · obtain ⟨A, B, hEq, hA, hB⟩ := h.erase_front hw hSome
    exact ⟨w :: A, B, by rw [hEq, cons_append], forall_mem_cons.mpr ⟨hSome, hA⟩, hB⟩
  · rw [contents, filterMap_cons_some ha]
    exact congrArg (a :: ·) (contents_erase h.distinct h.nodup hw ha)

/-- If the last cell is occupied, all are. -/
theorem Packed.full (h : Packed lab (vs ++ [w])) (hw : lab w ≠ none) :
    ∀ v ∈ vs ++ [w], (lab v).isSome := by
  obtain ⟨A, B, hEq, hA, hB⟩ := h.front
  rcases eq_nil_or_concat B with rfl | ⟨B', v, rfl⟩
  · rw [append_nil] at hEq
    rw [hEq]
    exact hA
  · rw [concat_eq_append, ← append_assoc] at hEq
    have hLast : w = v := by simpa using (append_inj' hEq rfl).2
    exact absurd (hB w (by simp [hLast])) hw

/-- **A miss.**  The last cell is taken: it is free unless the cells are all occupied. -/
theorem Packed.insert [DecidableEq ι] (h : Packed lab (vs ++ [w]))
    (ha : a ∉ contents lab (vs ++ [w])) :
    Packed (Function.update lab w (some a)) (w :: vs) ∧
      contents (Function.update lab w (some a)) (w :: vs) =
        Recency.insert (vs.length + 1) a (contents lab (vs ++ [w])) ∧
      lab w = evicted (vs.length + 1) (contents lab (vs ++ [w])) := by
  have hNot : w ∉ vs := fun hIn => (nodup_append.mp h.nodup).2.2 w hIn w (by simp) rfl
  have hVs : vs.Nodup := (nodup_append.mp h.nodup).1
  have hOld : ∀ v ∈ vs, Function.update lab w (some a) v = lab v := fun v hv =>
    update_of_ne (ne_of_mem_of_not_mem hv hNot) _ _
  have hNew : contents (Function.update lab w (some a)) (w :: vs) = a :: contents lab vs := by
    rw [contents, filterMap_cons_some (update_self ..)]
    exact congrArg (a :: ·) (contents_congr hOld)
  have hFront : ∃ A B, vs = A ++ B ∧ (∀ v ∈ A, (lab v).isSome) ∧ (∀ v ∈ B, lab v = none) ∧
      (lab w ≠ none → B = []) := by
    by_cases hLast : lab w = none
    · obtain ⟨A, B, hEq, hA, hB⟩ := h.front
      rcases eq_nil_or_concat B with rfl | ⟨B', v, rfl⟩
      · rw [append_nil] at hEq
        have hSome := hA w (by rw [← hEq]; simp)
        rw [hLast] at hSome
        cases hSome
      · rw [concat_eq_append, ← append_assoc] at hEq
        exact ⟨A, B', (append_inj' hEq rfl).1, hA, fun v hv => hB v (by simp [hv]),
          fun hNe => absurd hLast hNe⟩
    · exact ⟨vs, [], (append_nil _).symm, fun v hv => h.full hLast v (by simp [hv]), by simp,
        fun _ => rfl⟩
  obtain ⟨A, B, rfl, hA, hB, hFull⟩ := hFront
  refine ⟨⟨nodup_cons.mpr ⟨hNot, hVs⟩, ?_, w :: A, B, rfl, ?_, ?_⟩, ?_⟩
  · have hItem : ∀ v ∈ A ++ B, lab v ≠ some a := fun v hv hLab =>
      ha (mem_contents.mpr ⟨v, mem_append_left [w] hv, hLab⟩)
    intro v hv v' hv' b hb hb'
    rcases mem_cons.mp hv with hEq | hv <;> rcases mem_cons.mp hv' with hEq' | hv'
    · exact hEq.trans hEq'.symm
    · rw [hEq, update_self] at hb
      rw [hOld v' hv'] at hb'
      exact absurd (hb'.trans hb.symm) (hItem v' hv')
    · rw [hEq', update_self] at hb'
      rw [hOld v hv] at hb
      exact absurd (hb.trans hb'.symm) (hItem v hv)
    · rw [hOld v hv] at hb
      rw [hOld v' hv'] at hb'
      exact h.distinct v (mem_append_left [w] hv) v' (mem_append_left [w] hv') b hb hb'
  · refine forall_mem_cons.mpr ⟨by rw [update_self]; rfl, fun v hv => ?_⟩
    rw [hOld v (by simp [hv])]
    exact hA v hv
  · intro v hv
    rw [hOld v (by simp [hv])]
    exact hB v hv
  · rw [hNew, Recency.insert, evicted, contents_append lab (A ++ B) [w], length_append]
    cases hLab : lab w with
    | none =>
      have hNil : contents lab [w] = [] := contents_eq_nil (by simp [hLab])
      have hLen : (contents lab (A ++ B)).length ≤ (A ++ B).length := length_contents_le
      rw [hNil, append_nil, length_nil, Nat.add_zero, if_pos (by omega), if_pos (by omega)]
      exact ⟨rfl, rfl⟩
    | some b =>
      obtain rfl := hFull (by rw [hLab]; simp)
      have hOne : contents lab [w] = [b] := by rw [contents, filterMap_cons_some hLab]; rfl
      have hLen : (contents lab (A ++ [])).length = (A ++ []).length :=
        length_contents fun v hv => hA v (by simpa using hv)
      rw [hOne, length_singleton, hLen, if_neg (by omega), if_neg (by omega),
        dropLast_concat, List.getLast?_concat]
      exact ⟨rfl, rfl⟩

/-- **A removal.** -/
theorem Packed.remove [DecidableEq α] [DecidableEq ι] (h : Packed lab ws) (hw : w ∈ ws)
    (ha : lab w = some a) : Packed (Function.update lab w none) (ws.erase w ++ [w]) ∧
      contents (Function.update lab w none) (ws.erase w ++ [w]) = (contents lab ws).erase a := by
  have hNot : w ∉ ws.erase w := fun hIn => (h.nodup.mem_erase_iff.mp hIn).1 rfl
  have hOld : ∀ v ∈ ws.erase w, Function.update lab w none v = lab v := fun v hv =>
    update_of_ne (ne_of_mem_of_not_mem hv hNot) _ _
  have hLast : contents (Function.update lab w none) [w] = [] :=
    contents_eq_nil (by simp [update_self])
  refine ⟨⟨?_, ?_, ?_⟩, ?_⟩
  · refine nodup_append.mpr ⟨h.nodup.erase w, by simp, fun v hv v' hv' => ?_⟩
    rw [mem_singleton.mp hv']
    exact ne_of_mem_of_not_mem hv hNot
  · intro v hv v' hv' b hb hb'
    have hMem : ∀ {u}, u ∈ ws.erase w ++ [w] → Function.update lab w none u = some b →
        u ∈ ws ∧ lab u = some b := by
      intro u hu hLab
      rcases mem_append.mp hu with hu | hu
      · exact ⟨mem_of_mem_erase hu, by rw [← hOld u hu]; exact hLab⟩
      · rw [mem_singleton.mp hu, update_self] at hLab
        cases hLab
    exact h.distinct v (hMem hv hb).1 v' (hMem hv' hb').1 b (hMem hv hb).2 (hMem hv' hb').2
  · obtain ⟨A, B, hEq, hA, hB⟩ := h.erase_front hw (by rw [ha]; rfl)
    refine ⟨A, B ++ [w], by rw [hEq, append_assoc], fun v hv => ?_, fun v hv => ?_⟩
    · rw [hOld v (by rw [hEq]; simp [hv])]
      exact hA v hv
    · rcases mem_append.mp hv with hv | hv
      · rw [hOld v (by rw [hEq]; simp [hv])]
        exact hB v hv
      · rw [mem_singleton.mp hv, update_self]
  · rw [contents_append, hLast, append_nil, contents_congr hOld]
    exact contents_erase h.distinct h.nodup hw ha

/-- Empty cells are packed. -/
theorem Packed.empty (hNodup : ws.Nodup) (h : ∀ w ∈ ws, lab w = none) : Packed lab ws where
  nodup := hNodup
  distinct := fun w hw _ _ a ha => by rw [h w hw] at ha; cases ha
  front := ⟨[], ws, rfl, by simp, h⟩

theorem Packed.congr {lab' : ι → Option α} (h : Packed lab ws) (hSame : ∀ w ∈ ws, lab' w = lab w) :
    Packed lab' ws := by
  refine ⟨h.nodup, fun w hw w' hw' a ha ha' => ?_, ?_⟩
  · rw [hSame w hw] at ha
    rw [hSame w' hw'] at ha'
    exact h.distinct w hw w' hw' a ha ha'
  · obtain ⟨A, B, rfl, hA, hB⟩ := h.front
    refine ⟨A, B, rfl, fun w hw => ?_, fun w hw => ?_⟩
    · rw [hSame w (mem_append_left B hw)]
      exact hA w hw
    · rw [hSame w (mem_append_right A hw)]
      exact hB w hw

/-! ### Histories -/

section Histories

variable [DecidableEq α]

/-- The items of a history, newest first, each at its latest use. -/
def latest : List α → List α
  | [] => []
  | a :: h => a :: (latest h).erase a

theorem mem_of_mem_latest : ∀ {h : List α}, a ∈ latest h → a ∈ h
  | _ :: _, hIn => by
    rcases mem_cons.mp hIn with rfl | hIn
    · exact mem_cons_self
    · exact mem_cons_of_mem _ (mem_of_mem_latest (mem_of_mem_erase hIn))

/-- A list that moves to the front and drops its last item holds the latest `k` items. -/
theorem access_latest {k : Nat} (hk : 0 < k) (a : α) (h : List α) :
    (access true k a ((latest h).take k)).2.2 = (latest (a :: h)).take k := by
  obtain ⟨k, rfl⟩ := Nat.exists_eq_succ_of_ne_zero hk.ne'
  obtain ⟨T, hT⟩ : ∃ T, T = (latest h).take (k + 1) := ⟨_, rfl⟩
  obtain ⟨R, hR⟩ : ∃ R, R = (latest h).drop (k + 1) := ⟨_, rfl⟩
  have hSplit : latest h = T ++ R := by rw [hT, hR, take_append_drop]
  have hLen : T.length = k + 1 ∨ T.length ≤ k ∧ R = [] := by
    rw [hT, hR, length_take, drop_eq_nil_iff]
    omega
  rw [← hT, latest, take_succ_cons, hSplit]
  unfold access
  by_cases ha : a ∈ T
  · rw [if_pos ha, if_pos rfl, erase_append_left R ha]
    refine congrArg (a :: ·) ?_
    have hErase := length_erase_of_mem ha
    have hPos := length_pos_of_mem ha
    rcases hLen with hFull | ⟨hShort, rfl⟩
    · rw [take_append_of_le_length (by omega), take_of_length_le (by omega)]
    · rw [append_nil, take_of_length_le (by omega)]
  · rw [if_neg ha, erase_append_right R ha]
    refine congrArg (a :: ·) ?_
    rcases hLen with hFull | ⟨hShort, rfl⟩
    · rw [if_neg (by omega), take_append_of_le_length (by omega), dropLast_eq_take, hFull]
      rfl
    · rw [if_pos (by omega), erase_nil, append_nil, take_of_length_le (by omega)]

end Histories

end Recency

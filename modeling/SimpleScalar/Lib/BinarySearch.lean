import Mathlib.Data.List.Basic

/-!
# Binary search

A search over the positions from `low` up to `hi`.  A position that is a `hit` ends it; any
other sends it to its left or to its right.  The positions it comes by do not depend on the
hits (`probes`), and it finds something exactly if one of them is a hit (`isSome_iff`).

Where `left` is false up to a position and true after it, that position is a probe
(`mem_probes`).
-/

namespace BinarySearch

variable {hit left : ℕ → Bool}

/-- `n` bounds the number of probes. -/
def search (hit left : ℕ → Bool) : ℕ → ℕ → ℕ → Option ℕ
  | 0, _, _ => none
  | n + 1, low, hi =>
    if low < hi then
      let pos := (low + (hi - 1)) / 2
      if hit pos then some pos
      else if left pos then search hit left n low pos
      else search hit left n (pos + 1) hi
    else none

/-- The positions of a search without hits. -/
def probes (left : ℕ → Bool) : ℕ → ℕ → ℕ → List ℕ
  | 0, _, _ => []
  | n + 1, low, hi =>
    if low < hi then
      let pos := (low + (hi - 1)) / 2
      pos :: if left pos then probes left n low pos else probes left n (pos + 1) hi
    else []

theorem hit_of_search {n low hi i : ℕ} (h : search hit left n low hi = some i) :
    hit i = true ∧ low ≤ i ∧ i < hi := by
  induction n generalizing low hi with
  | zero => cases h
  | succ n ih =>
    rw [search] at h
    split at h
    next hLow =>
      dsimp only at h
      split at h
      next hHit =>
        obtain rfl := Option.some.inj h
        exact ⟨hHit, by omega, by omega⟩
      next =>
        split at h
        · obtain ⟨hHit, hLe, hLt⟩ := ih h
          exact ⟨hHit, hLe, by omega⟩
        · obtain ⟨hHit, hLe, hLt⟩ := ih h
          exact ⟨hHit, by omega, hLt⟩
    next => cases h

theorem isSome_iff {n low hi : ℕ} :
    (search hit left n low hi).isSome ↔ ∃ i ∈ probes left n low hi, hit i = true := by
  induction n generalizing low hi with
  | zero => simp [search, probes]
  | succ n ih =>
    rw [search, probes]
    split
    next =>
      dsimp only
      split
      next hHit => simp [hHit]
      next hHit =>
        split
        · simp [ih, hHit]
        · simp [ih, hHit]
    next => simp

/-- The last position that does not send the search to its left. -/
theorem mem_probes {n low hi k : ℕ} (hn : hi - low ≤ n) (hLow : low ≤ k) (hHi : k < hi)
    (hRight : ∀ i, low ≤ i → i ≤ k → left i = false) (hLeft : ∀ i, k < i → i < hi → left i = true) :
    k ∈ probes left n low hi := by
  induction n generalizing low hi with
  | zero => omega
  | succ n ih =>
    rw [probes, if_pos (by omega)]
    dsimp only
    rcases Nat.lt_trichotomy ((low + (hi - 1)) / 2) k with hPos | hPos | hPos
    · rw [hRight _ (by omega) (by omega)]
      refine List.mem_cons_of_mem _ (ih (by omega) (by omega) hHi ?_ hLeft)
      intro i hi hik
      exact hRight i (by omega) hik
    · rw [hPos]
      exact List.mem_cons_self ..
    · rw [hLeft _ hPos (by omega)]
      refine List.mem_cons_of_mem _ (ih (by omega) hLow hPos hRight ?_)
      intro i hki hi
      exact hLeft i hki (by omega)

/-! ## Searching a list -/

section Find

variable {α : Type*} {hit left : α → Bool} {xs : List α}

/-- The element found, with its position. -/
def find (hit left : α → Bool) (xs : List α) : Option (ℕ × α) :=
  (search (fun i => xs[i]?.any hit) (fun i => xs[i]?.any left) xs.length 0 xs.length).bind
    fun i => xs[i]?.map (i, ·)

/-- The elements a search without hits comes by. -/
def probed (left : α → Bool) (xs : List α) : List α :=
  (probes (fun i => xs[i]?.any left) xs.length 0 xs.length).filterMap (xs[·]?)

theorem hit_of_find {r : ℕ × α} (h : find hit left xs = some r) :
    r.2 ∈ xs ∧ hit r.2 = true := by
  obtain ⟨i, hi, hr⟩ := Option.bind_eq_some_iff.mp h
  obtain ⟨x, hx, rfl⟩ := Option.map_eq_some_iff.mp hr
  refine ⟨List.mem_of_getElem? hx, ?_⟩
  have hHit := (hit_of_search hi).1
  rw [hx] at hHit
  exact hHit

theorem any_iff (p : α → Bool) (o : Option α) : o.any p = true ↔ ∃ x, o = some x ∧ p x = true := by
  cases o <;> simp

theorem find_isSome_iff : (find hit left xs).isSome ↔ ∃ x ∈ probed left xs, hit x = true := by
  constructor
  · intro h
    obtain ⟨r, hr⟩ := Option.isSome_iff_exists.mp h
    obtain ⟨i, hi, -⟩ := Option.bind_eq_some_iff.mp hr
    obtain ⟨j, hj, hHit⟩ := isSome_iff.mp (Option.isSome_iff_exists.mpr ⟨i, hi⟩)
    obtain ⟨x, hx, hxHit⟩ := (any_iff hit xs[j]?).mp hHit
    exact ⟨x, List.mem_filterMap.mpr ⟨j, hj, hx⟩, hxHit⟩
  · rintro ⟨x, hx, hHit⟩
    obtain ⟨j, hj, hjx⟩ := List.mem_filterMap.mp hx
    have hSome : (search (fun i => xs[i]?.any hit) (fun i => xs[i]?.any left) xs.length 0
        xs.length).isSome :=
      isSome_iff.mpr ⟨j, hj, (any_iff hit xs[j]?).mpr ⟨x, hjx, hHit⟩⟩
    obtain ⟨i, hi⟩ := Option.isSome_iff_exists.mp hSome
    have hLt := (hit_of_search hi).2.2
    simp [find, hi, List.getElem?_eq_getElem hLt]

theorem exists_find_iff {P : α → Prop} (hP : ∀ x, hit x = true → P x) :
    (∃ r, find hit left xs = some r ∧ P r.2) ↔ ∃ x ∈ probed left xs, hit x = true := by
  rw [← find_isSome_iff, Option.isSome_iff_exists]
  constructor
  · rintro ⟨r, hr, -⟩
    exact ⟨r, hr⟩
  · rintro ⟨r, hr⟩
    exact ⟨r, hr, hP _ (hit_of_find hr).2⟩

theorem mem_of_mem_probed {x : α} (h : x ∈ probed left xs) : x ∈ xs := by
  obtain ⟨i, -, hi⟩ := List.mem_filterMap.mp h
  exact List.mem_of_getElem? hi

/-- The last element that does not send the search to its left. -/
theorem mem_probed_of_last {x : α} {pre post : List α} (hxs : xs = pre ++ x :: post)
    (hpre : ∀ y ∈ pre, left y = false) (hx : left x = false)
    (hpost : ∀ y ∈ post, left y = true) : x ∈ probed left xs := by
  have hAt : ∀ i y, xs[i]? = some y → (i ≤ pre.length → left y = false) ∧
      (pre.length < i → left y = true) := by
    intro i y hy
    subst hxs
    rcases Nat.lt_trichotomy i pre.length with hi | hi | hi
    · rw [List.getElem?_append_left hi] at hy
      exact ⟨fun _ => hpre y (List.mem_of_getElem? hy), by omega⟩
    · rw [hi, List.getElem?_append_right (Nat.le_refl _), Nat.sub_self,
        List.getElem?_cons_zero] at hy
      obtain rfl := Option.some.inj hy
      exact ⟨fun _ => hx, by omega⟩
    · rw [List.getElem?_append_right (by omega)] at hy
      obtain ⟨j, hj⟩ : ∃ j, i - pre.length = j + 1 := ⟨i - pre.length - 1, by omega⟩
      rw [hj, List.getElem?_cons_succ] at hy
      exact ⟨by omega, fun _ => hpost y (List.mem_of_getElem? hy)⟩
  have hLen : pre.length < xs.length := by
    subst hxs
    simp
  refine List.mem_filterMap.mpr ⟨pre.length, mem_probes (by omega) (by omega) hLen ?_ ?_, ?_⟩
  · intro i _ hi
    have hy := List.getElem?_eq_getElem (show i < xs.length by omega)
    rw [hy]
    exact (hAt i _ hy).1 hi
  · intro i hi hlt
    have hy := List.getElem?_eq_getElem hlt
    rw [hy]
    exact (hAt i _ hy).2 hi
  · subst hxs
    simp

/-- The last element of an ordered list that does not send the search to its left. -/
theorem exists_last (h : xs.Pairwise fun a b => left a = true → left b = true)
    (hSome : ∃ y ∈ xs, left y = false) :
    ∃ pre x post, xs = pre ++ x :: post ∧ (∀ z ∈ pre, left z = false) ∧ left x = false ∧
      ∀ z ∈ post, left z = true := by
  induction xs with
  | nil =>
    obtain ⟨y, hy, -⟩ := hSome
    cases hy
  | cons a xs ih =>
    obtain ⟨ha, hxs⟩ := List.pairwise_cons.mp h
    have haLeft : left a = false := by
      obtain ⟨y, hy, hLeft⟩ := hSome
      rcases List.mem_cons.mp hy with rfl | hy
      · exact hLeft
      · exact Bool.eq_false_iff.mpr fun hTrue => Bool.eq_false_iff.mp hLeft (ha y hy hTrue)
    by_cases hNext : ∃ z ∈ xs, left z = false
    · obtain ⟨pre, x, post, rfl, hpre, hx, hpost⟩ := ih hxs hNext
      exact ⟨a :: pre, x, post, rfl, List.forall_mem_cons.mpr ⟨haLeft, hpre⟩, hx, hpost⟩
    · push Not at hNext
      exact ⟨[], a, xs, rfl, nofun, haLeft,
        fun z hz => Bool.of_not_eq_false (hNext z hz)⟩

theorem eq_or_before_last {R : α → α → Prop} {x y : α} {pre post : List α}
    (hxs : xs = pre ++ x :: post) (hR : xs.Pairwise R) (hpost : ∀ z ∈ post, left z = true)
    (hy : y ∈ xs) (hLeft : left y = false) : y = x ∨ R y x := by
  subst hxs
  rcases List.mem_append.mp hy with hy | hy
  · exact .inr ((List.pairwise_append.mp hR).2.2 y hy x List.mem_cons_self)
  · rcases List.mem_cons.mp hy with rfl | hy
    · exact .inl rfl
    · rw [hpost y hy] at hLeft
      cases hLeft

end Find

end BinarySearch

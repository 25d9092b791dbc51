import Mathlib.Logic.Function.Iterate
import Mathlib.Data.List.Basic

/-!
# Streams through a cursor

A cursor moves over a store: each access uses the position of the cursor and moves it on.  `fill`
puts the elements of a list one after the other, `read` gets as many elements back.

* `read_fill`: the list comes back if no element lies on an earlier one.
* `read_fill_fixed`: through a cursor that does not move only the last element comes back.
-/

namespace Cursor

variable {P V B M : Type*} (put : P → V → M → M) (get : P → M → B) (next : P → P)

/-- The elements, put from position `p` on. -/
def fill : List V → P → M → M
  | [], _, m => m
  | v :: vs, p, m => fill vs (next p) (put p v m)

/-- As many elements as are asked for, from position `p` on. -/
def read : ℕ → P → M → List B
  | 0, _, _ => []
  | n + 1, p, m => get p m :: read n (next p) m

variable {put get next} {enc : V → B}

variable {vs : List V}

/-- What lies apart from every element is kept. -/
theorem get_fill {q : P} : ∀ {p : P} {m : M},
    (∀ i < vs.length, ∀ v m, get q (put (next^[i] p) v m) = get q m) →
      get q (fill put next vs p m) = get q m := by
  induction vs with
  | nil => intro p m _; rfl
  | cons v vs ih =>
    intro p m h
    have hRest : ∀ i < vs.length, ∀ v m, get q (put (next^[i] (next p)) v m) = get q m := by
      intro i hi
      have hNext := h (i + 1) (Nat.succ_lt_succ hi)
      rwa [Function.iterate_succ_apply] at hNext
    exact (ih hRest).trans (h 0 (Nat.succ_pos _) v m)

theorem read_fill (hSame : ∀ p v m, get p (put p v m) = enc v) : ∀ {p : P} {m : M},
    (∀ i j, i < j → j < vs.length →
      ∀ v m, get (next^[i] p) (put (next^[j] p) v m) = get (next^[i] p) m) →
      read get next vs.length p (fill put next vs p m) = vs.map enc := by
  induction vs with
  | nil => intro p m _; rfl
  | cons v vs ih =>
    intro p m h
    have hHead : get p (fill put next vs (next p) (put p v m)) = enc v := by
      refine (get_fill fun i hi => ?_).trans (hSame p v m)
      exact h 0 (i + 1) (Nat.succ_pos i) (Nat.succ_lt_succ hi)
    have hTail : ∀ i j, i < j → j < vs.length →
        ∀ v m, get (next^[i] (next p)) (put (next^[j] (next p)) v m) = get (next^[i] (next p)) m :=
      fun i j hij hj => h (i + 1) (j + 1) (Nat.succ_lt_succ hij) (Nat.succ_lt_succ hj)
    exact congrArg₂ List.cons hHead (ih hTail)

variable {p : P}

theorem read_fixed (hNext : next p = p) (m : M) (n : ℕ) :
    read get next n p m = List.replicate n (get p m) := by
  induction n with
  | zero => rfl
  | succ n ih =>
    rw [read, hNext, ih]
    rfl

theorem get_fill_fixed (hSame : ∀ p v m, get p (put p v m) = enc v) (hNext : next p = p)
    (h : vs ≠ []) : ∀ m : M,
    get p (fill put next vs p m) = enc (vs.getLast h) := by
  induction vs with
  | nil => exact absurd rfl h
  | cons v vs ih =>
    intro m
    rw [fill, hNext]
    cases vs with
    | nil => exact hSame p v m
    | cons w ws => exact ih (List.cons_ne_nil w ws) (put p v m)

theorem read_fill_fixed (hSame : ∀ p v m, get p (put p v m) = enc v) (hNext : next p = p)
    (h : vs ≠ []) (m : M) (n : ℕ) :
    read get next n p (fill put next vs p m) = List.replicate n (enc (vs.getLast h)) := by
  rw [read_fixed hNext, get_fill_fixed hSame hNext h]

end Cursor

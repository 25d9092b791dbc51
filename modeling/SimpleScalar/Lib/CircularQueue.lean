import Mathlib.Data.List.Range
import Mathlib.Data.List.Nodup
import Mathlib.Data.Nat.ModEq
import Mathlib.Tactic.Ring

/-!
# Circular queues

A queue kept in an array of `size` slots is a head index and a count: the live
slots, oldest first, are `slots size head num`.  The tail index is redundant,
it is `(head + num) % size`; a full queue and an empty one have the same head
and tail and differ in the count only.

* `slots_succ_left`, `slots_succ_right`: the oldest and the newest slot.
* `tail_not_mem_slots`: the slot at the tail of a queue with room is free.
* `prev_tail`: the slot before the tail is the newest one, which is where a
  backward walk starts.
-/

namespace CircularQueue

/-- The live slots, oldest first. -/
def slots (size head num : ℕ) : List ℕ := (List.range num).map fun k => (head + k) % size

@[simp] theorem slots_zero (size head : ℕ) : slots size head 0 = [] := rfl

@[simp] theorem length_slots (size head num : ℕ) : (slots size head num).length = num := by
  simp [slots]

theorem slots_succ_right (size head num : ℕ) :
    slots size head (num + 1) = slots size head num ++ [(head + num) % size] := by
  simp [slots, List.range_succ]

theorem slots_mod_head (size head num : ℕ) : slots size (head % size) num = slots size head num := by
  simp [slots]

theorem slots_succ_left (size head num : ℕ) :
    slots size head (num + 1) = head % size :: slots size ((head + 1) % size) num := by
  rw [slots_mod_head]
  simp only [slots, List.range_succ_eq_map, List.map_cons, List.map_map, Nat.add_zero]
  refine congrArg _ (List.map_congr_left fun k _ => ?_)
  simp only [Function.comp, Nat.succ_eq_add_one]
  congr 1
  ring

/-- A queue cut in two. -/
theorem slots_add (size head m n : ℕ) :
    slots size head (m + n) = slots size head m ++ slots size (head + m) n := by
  simp only [slots, List.range_add, List.map_append, List.map_map]
  refine congrArg _ (List.map_congr_left fun k _ => ?_)
  simp only [Function.comp, Nat.add_assoc]

/-- An entry and the ones before it. -/
theorem slots_split {size head num i : ℕ} {pre post : List ℕ}
    (h : slots size head num = pre ++ i :: post) :
    pre = slots size head pre.length ∧ i = (head + pre.length) % size := by
  have hLen := congrArg List.length h
  rw [length_slots, List.length_append, List.length_cons] at hLen
  rw [show num = pre.length + (post.length + 1) by omega, slots_add, slots_succ_left] at h
  obtain ⟨hPre, hRest⟩ := List.append_inj h (by simp)
  exact ⟨hPre.symm, (List.cons.inj hRest).1.symm⟩

theorem lt_of_mem_slots {size head num x : ℕ} (hs : 0 < size) (hx : x ∈ slots size head num) :
    x < size := by
  obtain ⟨k, _, rfl⟩ := List.mem_map.mp hx
  exact Nat.mod_lt _ hs

/-- Two offsets below the size that name one slot are equal. -/
theorem offset_inj {size head i j : ℕ} (hi : i < size) (hj : j < size)
    (h : (head + i) % size = (head + j) % size) : i = j := by
  have hm : i ≡ j [MOD size] := Nat.ModEq.add_left_cancel' head h
  rwa [Nat.ModEq, Nat.mod_eq_of_lt hi, Nat.mod_eq_of_lt hj] at hm

theorem nodup_slots {size head num : ℕ} (h : num ≤ size) : (slots size head num).Nodup := by
  refine List.Nodup.map_on ?_ List.nodup_range
  intro i hi j hj hij
  have hi' := List.mem_range.mp hi
  have hj' := List.mem_range.mp hj
  exact offset_inj (by omega) (by omega) hij

/-- The slot at the tail of a queue with room is not live. -/
theorem tail_not_mem_slots {size head num : ℕ} (h : num < size) :
    (head + num) % size ∉ slots size head num := by
  intro hm
  obtain ⟨k, hk, he⟩ := List.mem_map.mp hm
  have hk' := List.mem_range.mp hk
  have := offset_inj (by omega) h he
  omega

theorem tail_succ (size head num : ℕ) :
    ((head + num) % size + 1) % size = (head + (num + 1)) % size := by
  rw [Nat.mod_add_mod]
  rfl

theorem tail_pop (size head num : ℕ) :
    ((head + 1) % size + num) % size = (head + (num + 1)) % size := by
  rw [Nat.mod_add_mod]
  congr 1
  ring

/-- Stepping back from the tail gives the newest slot. -/
theorem prev_tail {size : ℕ} (hs : 0 < size) (head num : ℕ) :
    ((head + (num + 1)) % size + (size - 1)) % size = (head + num) % size := by
  rw [Nat.mod_add_mod, show head + (num + 1) + (size - 1) = head + num + size by omega,
    Nat.add_mod_right]

/-- A power of two masks as a remainder does. -/
theorem and_pred_eq_mod {size : ℕ} (hp : ∃ k, size = 2 ^ k) (x : ℕ) :
    x &&& (size - 1) = x % size := by
  obtain ⟨k, rfl⟩ := hp
  exact Nat.and_two_pow_sub_one_eq_mod x k

end CircularQueue

import Mathlib.Algebra.BigOperators.Group.Finset.Piecewise
import Mathlib.Algebra.Order.BigOperators.Group.Finset

/-!
# Records kept in several lists

A fixed pool of records is spread over finitely many lists, one for each key of
a finite set; what the lists hold together is the sum of their multisets.
Writing one list changes the sum by exactly the difference of that list, so a
conservation law over the whole pool is kept by looking at one key at a time.

* `sum_update_add`: one entry of a finite sum is replaced.
* `held`: the records of all lists together, with `held_update` and its
  readings for one record more and for a list that is emptied.
* `exists_unique_list`: where no record occurs twice, each has its place.
-/

namespace Pool

variable {ι α M : Type*} [DecidableEq ι]

variable {i : ι}

/-- Replacing one entry: the new sum and the old entry weigh what the old sum
and the new entry do. -/
theorem sum_update_add [AddCommMonoid M] (s : Finset ι) (f : ι → M) (hi : i ∈ s) (b : M) :
    (∑ x ∈ s, Function.update f i b x) + f i = b + ∑ x ∈ s, f x := by
  rw [Finset.sum_update_of_mem hi, ← Finset.add_sum_erase s f hi, Finset.sdiff_singleton_eq_erase,
    add_assoc, add_comm (∑ x ∈ s.erase i, f x)]

/-- The records held by the lists of the keys in `s`. -/
def held (s : Finset ι) (lists : ι → List α) : Multiset α := ∑ k ∈ s, (lists k : Multiset α)

theorem held_update (s : Finset ι) (lists : ι → List α) (hi : i ∈ s) (l : List α) :
    held s (Function.update lists i l) + (lists i : Multiset α) =
      (l : Multiset α) + held s lists := by
  have h := sum_update_add s (fun k => (lists k : Multiset α)) hi (l : Multiset α)
  rw [held, held, ← h]
  congr 1
  refine Finset.sum_congr rfl fun k _ => ?_
  by_cases hk : k = i
  · subst hk
    simp
  · simp [hk]

variable {s : Finset ι} {lists : ι → List α}

omit [DecidableEq ι] in
theorem mem_held {a : α} :
    a ∈ held s lists ↔ ∃ k ∈ s, a ∈ lists k := by
  simp [held, Multiset.mem_sum]

omit [DecidableEq ι] in
theorem held_eq_zero (h : ∀ k ∈ s, lists k = []) :
    held s lists = 0 := by
  refine Finset.sum_eq_zero fun k hk => ?_
  rw [h k hk]
  rfl

omit [DecidableEq ι] in
theorem countP_held (p : α → Prop) [DecidablePred p] (s : Finset ι) (lists : ι → List α) :
    (held s lists).countP p = ∑ k ∈ s, (lists k).countP fun a => decide (p a) := by
  rw [held, ← Multiset.coe_countPAddMonoidHom, map_sum]
  exact Finset.sum_congr rfl fun k _ => Multiset.coe_countP p (lists k)

omit [DecidableEq ι] in
theorem held_append (s : Finset ι) (lists lists' : ι → List α) :
    held s (fun k => lists k ++ lists' k) = held s lists + held s lists' := by
  simp only [held, ← Multiset.coe_add]
  exact Finset.sum_add_distrib

/-- Numbers that sum up to one. -/
theorem exists_unique_of_sum_eq_one {f : ι → Nat} (h : ∑ k ∈ s, f k = 1) :
    ∃ k ∈ s, f k = 1 ∧ ∀ k' ∈ s, k' ≠ k → f k' = 0 := by
  obtain ⟨k, hk, hPos⟩ := Finset.exists_ne_zero_of_sum_ne_zero (by rw [h]; exact one_ne_zero)
  have hSum := Finset.add_sum_erase s f hk
  refine ⟨k, hk, by omega, fun k' hk' hne => ?_⟩
  have hLe : f k' ≤ ∑ x ∈ s.erase k, f x :=
    Finset.single_le_sum (fun _ _ => Nat.zero_le _) (Finset.mem_erase.mpr ⟨hne, hk'⟩)
  omega

/-- If no record occurs twice, each of them is in one list only. -/
theorem exists_unique_list [DecidableEq α]
    (hNodup : (held s lists).Nodup) {a : α} (ha : a ∈ held s lists) :
    ∃ k ∈ s, (lists k).count a = 1 ∧ ∀ k' ∈ s, k' ≠ k → a ∉ lists k' := by
  have hOne : ∑ k ∈ s, (lists k).count a = 1 := by
    rw [← Multiset.count_eq_one_of_mem hNodup ha, held, Multiset.count_sum']
    simp
  obtain ⟨k, hk, hCount, hElse⟩ := exists_unique_of_sum_eq_one hOne
  exact ⟨k, hk, hCount, fun k' hk' hne => List.count_eq_zero.mp (hElse k' hk' hne)⟩

/-- One record more at the front of one list. -/
theorem held_update_cons (s : Finset ι) (lists : ι → List α) (hi : i ∈ s) (a : α) :
    held s (Function.update lists i (a :: lists i)) = a ::ₘ held s lists := by
  have h := held_update s lists hi (a :: lists i)
  rw [← Multiset.cons_coe, Multiset.cons_add, ← Multiset.add_cons, add_comm] at h
  exact add_left_cancel h

/-- One list emptied. -/
theorem held_update_nil (s : Finset ι) (lists : ι → List α) (hi : i ∈ s) :
    held s (Function.update lists i []) + (lists i : Multiset α) = held s lists := by
  rw [held_update s lists hi, Multiset.coe_nil, zero_add]

end Pool

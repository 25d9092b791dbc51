import Mathlib.Data.List.Nodup

/-!
# Hash tables with chains

A table of chains, `hash` being the chain of a key.  `Represents t f` says that `t` holds
the map `f`: each key at most once, in its own chain.  Every operation of such a table puts
one entry at the front of its chain and takes the old one of that key out (`Represents.set`):
an insertion, an update, and a search that moves what it finds to the front.
-/

namespace HashTable

variable {κ ε : Type} [DecidableEq κ] {hash : κ → Nat} {key : ε → κ}

/-- The table `t` holds the map `f`. -/
structure Represents (hash : κ → Nat) (key : ε → κ) (t : Nat → List ε) (f : κ → Option ε) :
    Prop where
  once : ∀ i, ((t i).map key).Nodup
  home : ∀ i, ∀ e ∈ t i, hash (key e) = i
  find : ∀ k, (t (hash k)).find? (fun e => key e == k) = f k

theorem represents_empty : Represents hash key (fun _ => []) fun _ => none :=
  ⟨fun _ => List.nodup_nil, fun _ _ h => absurd h List.not_mem_nil, fun _ => rfl⟩

theorem key_ne_of_mem_eraseP {l : List ε} (h : (l.map key).Nodup) (k : κ) :
    ∀ e ∈ l.eraseP (fun e => key e == k), key e ≠ k := by
  induction l with
  | nil => intro e he; cases he
  | cons a l ih =>
    obtain ⟨ha, hl⟩ := List.nodup_cons.mp h
    intro e he
    by_cases hk : key a = k
    · rw [List.eraseP_cons_of_pos (by simpa using hk)] at he
      rintro rfl
      exact ha (hk ▸ List.mem_map_of_mem he)
    · rw [List.eraseP_cons_of_neg (by simpa using hk)] at he
      rcases List.mem_cons.mp he with rfl | he
      · exact hk
      · exact ih hl e he

theorem find_eraseP_of_ne {k k' : κ} (hk : k' ≠ k) (l : List ε) :
    (l.eraseP fun e => key e == k).find? (fun e => key e == k') =
      l.find? fun e => key e == k' := by
  induction l with
  | nil => rfl
  | cons a l ih =>
    by_cases ha : key a = k
    · rw [List.eraseP_cons_of_pos (by simpa using ha),
        List.find?_cons_of_neg (by simpa [ha] using hk.symm)]
    · rw [List.eraseP_cons_of_neg (by simpa using ha), List.find?_cons, List.find?_cons, ih]

variable {t : Nat → List ε} {f : κ → Option ε}

/-- The entry `e` at the front of its chain, in place of the old one. -/
theorem Represents.set (h : Represents hash key t f) (e : ε) : Represents hash key
      (Function.update t (hash (key e))
        (e :: (t (hash (key e))).eraseP fun e' => key e' == key e))
      (Function.update f (key e) (some e)) := by
  have hSub := List.eraseP_sublist (p := fun e' => key e' == key e) (l := t (hash (key e)))
  refine ⟨fun i => ?_, fun i e' he' => ?_, fun k => ?_⟩
  · by_cases hi : i = hash (key e)
    · rw [hi, Function.update_self, List.map_cons]
      refine List.nodup_cons.mpr ⟨fun hIn => ?_, (h.once _).sublist (hSub.map key)⟩
      obtain ⟨e', he', hKey⟩ := List.mem_map.mp hIn
      exact key_ne_of_mem_eraseP (h.once _) _ e' he' hKey
    · rw [Function.update_of_ne hi]
      exact h.once i
  · by_cases hi : i = hash (key e)
    · rw [hi, Function.update_self] at he'
      rcases List.mem_cons.mp he' with rfl | he'
      · exact hi.symm
      · exact (h.home _ e' (hSub.subset he')).trans hi.symm
    · rw [Function.update_of_ne hi] at he'
      exact h.home i e' he'
  · by_cases hk : k = key e
    · rw [hk, Function.update_self, Function.update_self]
      exact List.find?_cons_of_pos (by simp)
    · rw [Function.update_of_ne hk, ← h.find k]
      by_cases hHash : hash k = hash (key e)
      · rw [hHash, Function.update_self, List.find?_cons_of_neg (by simpa using Ne.symm hk),
          find_eraseP_of_ne hk]
      · rw [Function.update_of_ne hHash]

/-- Where a search finds nothing there is nothing to take out. -/
theorem Represents.eraseP_of_none (h : Represents hash key t f) {k : κ} (hk : f k = none) :
    (t (hash k)).eraseP (fun e => key e == k) = t (hash k) := by
  have hNone := (h.find k).trans hk
  exact List.eraseP_of_forall_not fun e he => List.find?_eq_none.mp hNone e he

end HashTable

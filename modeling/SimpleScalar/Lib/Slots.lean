import Mathlib.Algebra.Order.Group.Multiset
import Mathlib.Data.Int.ModEq

/-!
# Tickets for slots that are used again

A fixed set of slots is given out over and over.  The *generation* of a slot counts how
often it has been given up.  A ticket names a slot, through a key, and the generation it
was issued for; it is *current* as long as the slot has that generation.  Tickets are not
recalled when a slot is given up, they go stale where they are.

Of a generation only a tag of `w` bits is visible.  A ticket whose tag matches is current
if the slot has not been given up `2 ^ w` times since (`Ledger.current_of_tag`).

`Ledger slot gen due T` says that the tickets `T` contain exactly one current ticket for
each key that is `due`, and none for the others.  It is kept by issuing a ticket for a key
that is not due (`issue`), redeeming a current one (`redeem`), dropping stale ones
(`discard`, `forget`), and giving slots up (`void`).
-/

namespace Slots

structure Ticket (κ : Type*) (w : Nat) where
  key : κ
  tag : BitVec w
  born : Nat

variable {σ κ : Type*} [DecidableEq κ] {w : Nat} {slot : κ → σ} {gen gen' : σ → Nat}
  {due due' : κ → Bool} {T N R : Multiset (Ticket κ w)} {t : Ticket κ w}

/-- The current tickets for `k`. -/
def current (slot : κ → σ) (gen : σ → Nat) (k : κ) (T : Multiset (Ticket κ w)) : Nat :=
  T.countP fun t => t.key = k ∧ t.born = gen (slot t.key)

theorem current_cons (k : κ) (t : Ticket κ w) (T : Multiset (Ticket κ w)) :
    current slot gen k (t ::ₘ T) =
      current slot gen k T + if t.key = k ∧ t.born = gen (slot t.key) then 1 else 0 :=
  Multiset.countP_cons ..

theorem current_add (k : κ) (T R : Multiset (Ticket κ w)) :
    current slot gen k (T + R) = current slot gen k T + current slot gen k R :=
  Multiset.countP_add ..

theorem current_pos (ht : t ∈ T) (hCur : t.born = gen (slot t.key)) :
    0 < current slot gen t.key T :=
  Multiset.countP_pos.mpr ⟨t, ht, rfl, hCur⟩

structure Ledger (slot : κ → σ) (gen : σ → Nat) (due : κ → Bool) (T : Multiset (Ticket κ w)) :
    Prop where
  tag : ∀ t ∈ T, t.tag = BitVec.ofNat w t.born
  past : ∀ t ∈ T, t.born ≤ gen (slot t.key)
  count : ∀ k, current slot gen k T = if due k then 1 else 0

namespace Ledger

theorem empty : Ledger slot gen (fun _ => false) (0 : Multiset (Ticket κ w)) :=
  ⟨by simp, by simp, fun k => by simp [current]⟩

/-- Only what is due has current tickets. -/
theorem due_of_mem (h : Ledger slot gen due T) (ht : t ∈ T) (hCur : t.born = gen (slot t.key)) :
    due t.key = true := by
  have hPos := current_pos ht hCur
  rw [h.count] at hPos
  by_contra hNot
  rw [if_neg hNot] at hPos
  exact absurd hPos (lt_irrefl 0)

/-- **A matching tag.**  If the slot has been given up fewer than `2 ^ w` times since the
ticket was issued, it has not been given up at all. -/
theorem current_of_tag (h : Ledger slot gen due T) (ht : t ∈ T)
    (hTag : t.tag = BitVec.ofNat w (gen (slot t.key)))
    (hFresh : gen (slot t.key) < t.born + 2 ^ w) : t.born = gen (slot t.key) := by
  rw [h.tag t ht] at hTag
  have hMod : t.born % 2 ^ w = gen (slot t.key) % 2 ^ w := by
    simpa using congrArg BitVec.toNat hTag
  obtain ⟨d, hd⟩ := Nat.exists_eq_add_of_le (h.past t ht)
  have hZero : d % 2 ^ w = 0 := by
    rw [hd] at hMod
    exact (Nat.ModEq.add_left_cancel' (a := 0) t.born hMod).symm
  rw [Nat.mod_eq_of_lt (by omega)] at hZero
  omega

/-- So the tag tells stale tickets from current ones. -/
theorem tag_eq_iff (h : Ledger slot gen due T) (ht : t ∈ T)
    (hFresh : gen (slot t.key) < t.born + 2 ^ w) :
    t.tag = BitVec.ofNat w (gen (slot t.key)) ↔ t.born = gen (slot t.key) :=
  ⟨fun hTag => h.current_of_tag ht hTag hFresh, fun hBorn => by rw [h.tag t ht, hBorn]⟩

/-- Keys change with their slots: where a slot is given up nothing is due any more. -/
theorem void (h : Ledger slot gen due T)
    (hKeys : ∀ k, gen' (slot k) = gen (slot k) ∧ due' k = due k ∨
      gen (slot k) < gen' (slot k) ∧ due' k = false) : Ledger slot gen' due' T := by
  refine ⟨h.tag, fun t ht => ?_, fun k => ?_⟩
  · have hPast := h.past t ht
    rcases hKeys t.key with ⟨hGen, _⟩ | ⟨hGen, _⟩ <;> omega
  · rcases hKeys k with ⟨hGen, hDue⟩ | ⟨hGen, hDue⟩
    · rw [hDue, ← h.count k]
      refine Multiset.countP_congr rfl fun t _ => ?_
      refine propext (and_congr_right fun hk => ?_)
      rw [hk, hGen]
    · rw [hDue, if_neg (by simp)]
      refine Multiset.countP_eq_zero.mpr fun t ht hCur => ?_
      obtain ⟨rfl, hBorn⟩ := hCur
      have hPast := h.past t ht
      omega

theorem congr (h : Ledger slot gen due T) (hDue : ∀ k, due' k = due k) :
    Ledger slot gen due' T :=
  h.void fun k => .inl ⟨rfl, hDue k⟩

/-- New tickets, at most one for a key. -/
theorem issueAll {n : κ → Bool} (h : Ledger slot gen due T)
    (hTag : ∀ t ∈ N, t.tag = BitVec.ofNat w t.born) (hBorn : ∀ t ∈ N, t.born = gen (slot t.key))
    (hCount : ∀ k, N.countP (fun t => t.key = k) = if n k then 1 else 0)
    (hNew : ∀ k, n k = true → due k = false) :
    Ledger slot gen (fun k => due k || n k) (N + T) := by
  refine ⟨fun t ht => ?_, fun t ht => ?_, fun k => ?_⟩
  · exact (Multiset.mem_add.mp ht).elim (hTag t) (h.tag t)
  · exact (Multiset.mem_add.mp ht).elim (fun ht => (hBorn t ht).le) (h.past t)
  · have hN : current slot gen k N = if n k then 1 else 0 := by
      rw [← hCount k]
      exact Multiset.countP_congr rfl fun t ht => by simp [hBorn t ht]
    rw [current_add, hN, h.count k]
    by_cases hk : n k = true
    · simp [hk, hNew k hk]
    · simp [hk]

theorem issue (h : Ledger slot gen due T) (hTag : t.tag = BitVec.ofNat w t.born)
    (hBorn : t.born = gen (slot t.key)) (hNew : due t.key = false) :
    Ledger slot gen (Function.update due t.key true) (t ::ₘ T) := by
  refine ⟨fun t' ht' => ?_, fun t' ht' => ?_, fun k => ?_⟩
  · rcases Multiset.mem_cons.mp ht' with rfl | ht'
    · exact hTag
    · exact h.tag t' ht'
  · rcases Multiset.mem_cons.mp ht' with rfl | ht'
    · exact hBorn.le
    · exact h.past t' ht'
  · rw [current_cons, h.count k]
    by_cases hk : k = t.key
    · subst hk
      simp [hBorn, hNew]
    · simp [hk, Ne.symm hk]

/-- A current ticket is used up. -/
theorem redeem (h : Ledger slot gen due (t ::ₘ T)) (hCur : t.born = gen (slot t.key)) :
    Ledger slot gen (Function.update due t.key false) T := by
  have hDue := h.due_of_mem (Multiset.mem_cons_self t T) hCur
  refine ⟨fun t' ht' => h.tag t' (Multiset.mem_cons_of_mem ht'),
    fun t' ht' => h.past t' (Multiset.mem_cons_of_mem ht'), fun k => ?_⟩
  have hCount := h.count k
  rw [current_cons] at hCount
  by_cases hk : k = t.key
  · subst hk
    simpa [hCur, hDue] using hCount
  · simpa [hk, Ne.symm hk] using hCount

/-- Tickets for what is not due are stale, and may be thrown away. -/
theorem forget (h : Ledger slot gen due (R + T)) (hR : ∀ t ∈ R, due t.key = false) :
    Ledger slot gen due T := by
  refine ⟨fun t ht => h.tag t (Multiset.mem_add.mpr (.inr ht)),
    fun t ht => h.past t (Multiset.mem_add.mpr (.inr ht)), fun k => ?_⟩
  have hCount := h.count k
  have hNone : current slot gen k R = 0 := by
    refine Multiset.countP_eq_zero.mpr fun t ht hCur => ?_
    have hDue := h.due_of_mem (Multiset.mem_add.mpr (.inl ht)) hCur.2
    exact absurd (hDue.symm.trans (hR t ht)) (by simp)
  rwa [current_add, hNone, Nat.zero_add] at hCount

/-- A stale ticket is thrown away. -/
theorem discard (h : Ledger slot gen due (t ::ₘ T)) (hStale : t.born ≠ gen (slot t.key)) :
    Ledger slot gen due T := by
  refine ⟨fun t' ht' => h.tag t' (Multiset.mem_cons_of_mem ht'),
    fun t' ht' => h.past t' (Multiset.mem_cons_of_mem ht'), fun k => ?_⟩
  have hCount := h.count k
  rw [current_cons] at hCount
  simpa [hStale] using hCount

end Ledger

end Slots

import Mathlib.Data.List.Basic

/-!
# Token streams

A scanner takes a token off the front of its input, until there is none.  `tokens` is the
whole stream of an input; `Reads s ts r` says that `ts` are the first tokens of `s` and
that `r` is what is left after them.
-/

universe u v

/-- Takes the next token off an input, with a part of the input that is not empty. -/
structure Scanner (ι : Type u) (τ : Type v) where
  next : List ι → Option (τ × List ι)
  consumes : ∀ {s t r}, next s = some (t, r) → ∃ w, w ≠ [] ∧ s = w ++ r

namespace Scanner

variable {ι : Type u} {τ : Type v} {S : Scanner ι τ}

variable {s r : List ι} {t : τ}

theorem length_lt (h : S.next s = some (t, r)) :
    r.length < s.length := by
  obtain ⟨w, hw, rfl⟩ := S.consumes h
  have := List.length_pos_iff.mpr hw
  rw [List.length_append]
  omega

/-- The first tokens, at most `n` of them. -/
def upTo (S : Scanner ι τ) : ℕ → List ι → List τ
  | 0, _ => []
  | n + 1, s =>
    match S.next s with
    | none => []
    | some (t, r) => t :: upTo S n r

/-- All tokens: there are no more of them than there are elements in the input. -/
def tokens (S : Scanner ι τ) (s : List ι) : List τ := S.upTo s.length s

variable {s : List ι}

theorem upTo_eq {n m : ℕ} (hn : s.length ≤ n) (hm : s.length ≤ m) :
    S.upTo n s = S.upTo m s := by
  induction n generalizing m s with
  | zero =>
    obtain rfl : s = [] := List.length_eq_zero_iff.mp (Nat.le_zero.mp hn)
    cases m with
    | zero => rfl
    | succ m =>
      cases h : S.next [] with
      | none => simp [upTo, h]
      | some x => exact absurd (length_lt h) (Nat.not_lt_zero _)
  | succ n ih =>
    cases h : S.next s with
    | none => cases m <;> simp [upTo, h]
    | some x =>
      obtain ⟨t, r⟩ := x
      have hr := length_lt h
      cases m with
      | zero => omega
      | succ m =>
        have hTail : S.upTo n r = S.upTo m r := ih (by omega) (by omega)
        simp [upTo, h, hTail]

theorem tokens_of_none (h : S.next s = none) : S.tokens s = [] := by
  unfold tokens
  cases s.length <;> simp [upTo, h]

theorem tokens_of_some (h : S.next s = some (t, r)) :
    S.tokens s = t :: S.tokens r := by
  have hr := length_lt h
  have hOne : S.tokens s = S.upTo (r.length + 1 + (s.length - r.length - 1)) s :=
    upTo_eq (Nat.le_refl _) (by omega)
  have hRest : S.upTo (r.length + (s.length - r.length - 1)) r = S.tokens r :=
    upTo_eq (by omega) (Nat.le_refl _)
  rw [hOne, Nat.add_right_comm]
  simp only [upTo, h, hRest]

theorem tokens_eq_nil_iff : S.tokens s = [] ↔ S.next s = none := by
  cases h : S.next s with
  | none => simp [tokens_of_none h]
  | some x => simp [tokens_of_some h]

theorem tokens_eq_cons_iff {ts : List τ} :
    S.tokens s = t :: ts ↔ ∃ r, S.next s = some (t, r) ∧ S.tokens r = ts := by
  cases h : S.next s with
  | none => simp [tokens_of_none h]
  | some x => obtain ⟨t', r⟩ := x; simp [tokens_of_some h]

theorem length_tokens_le (s : List ι) : (S.tokens s).length ≤ s.length := by
  suffices ∀ n s, (S.upTo n s).length ≤ n from this s.length s
  intro n
  induction n with
  | zero => intro s; simp [upTo]
  | succ n ih =>
    intro s
    cases h : S.next s with
    | none => simp [upTo, h]
    | some x => simpa [upTo, h] using ih x.2

/-! ## The first tokens of an input -/

/-- `ts` are the first tokens of `s`, and `r` is left. -/
inductive Reads (S : Scanner ι τ) : List ι → List τ → List ι → Prop
  | nil (s : List ι) : Reads S s [] s
  | cons {s r r' : List ι} {t : τ} {ts : List τ} :
      S.next s = some (t, r) → Reads S r ts r' → Reads S s (t :: ts) r'

theorem Reads.one (h : S.next s = some (t, r)) : S.Reads s [t] r :=
  .cons h (.nil r)

variable {ts us : List τ}

theorem Reads.append {s r r' : List ι} (h : S.Reads s ts r)
    (h' : S.Reads r us r') : S.Reads s (ts ++ us) r' := by
  induction h with
  | nil => exact h'
  | cons hn _ ih => exact .cons hn (ih h')

theorem Reads.of_append {s r' : List ι} (h : S.Reads s (ts ++ us) r') :
    ∃ r, S.Reads s ts r ∧ S.Reads r us r' := by
  induction ts generalizing s with
  | nil => exact ⟨s, .nil s, h⟩
  | cons t ts ih =>
    cases h with
    | cons hn h =>
      obtain ⟨r, hs, hr⟩ := ih h
      exact ⟨r, .cons hn hs, hr⟩

theorem reads_nil : S.Reads s [] r ↔ s = r := by
  constructor
  · intro h
    cases h
    rfl
  · rintro rfl
    exact .nil s

theorem reads_cons {s r' : List ι} {ts : List τ} :
    S.Reads s (t :: ts) r' ↔ ∃ r, S.next s = some (t, r) ∧ S.Reads r ts r' := by
  constructor
  · intro h
    cases h with
    | cons hn h => exact ⟨_, hn, h⟩
  · rintro ⟨r, hn, h⟩
    exact .cons hn h

theorem Reads.tokens_eq {ts : List τ} (h : S.Reads s ts r) :
    S.tokens s = ts ++ S.tokens r := by
  induction h with
  | nil => rfl
  | cons hn _ ih => rw [tokens_of_some hn, ih, List.cons_append]

theorem exists_reads (h : S.tokens s = ts ++ us) :
    ∃ r, S.Reads s ts r ∧ S.tokens r = us := by
  induction ts generalizing s with
  | nil => exact ⟨s, .nil s, h⟩
  | cons t ts ih =>
    obtain ⟨r, hn, hr⟩ := tokens_eq_cons_iff.mp h
    obtain ⟨r', hs, hr'⟩ := ih hr
    exact ⟨r', .cons hn hs, hr'⟩

end Scanner

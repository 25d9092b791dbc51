import Mathlib.Logic.Basic

/-!
# Computations that may stop

A step of a program that may end the run is an `Except ε α`: a new state, or the
reason it stopped.  `Meets x Q E` says both at once: a returned value satisfies
`Q`, a reason satisfies `E`.  The rules below compose such statements along
`bind`, so that a loop or a pipeline of steps is handled one step at a time.
-/

namespace Outcome

universe u v

variable {ε : Type u} {α β : Type v} {x : Except ε α} {f : α → Except ε β} {e : ε} {Q : α → Prop}
  {E : ε → Prop}

/-- A returned value satisfies `Q`, a reason for stopping satisfies `E`. -/
def Meets (x : Except ε α) (Q : α → Prop) (E : ε → Prop) : Prop :=
  match x with
  | .ok a => Q a
  | .error e => E e

@[simp] theorem meets_ok {a : α} :
    Meets (.ok a) Q E ↔ Q a := Iff.rfl

@[simp] theorem meets_error :
    Meets (.error e : Except ε α) Q E ↔ E e := Iff.rfl

theorem Meets.of_ok (h : Meets x Q E) {a : α} (hx : x = .ok a) : Q a := by
  subst hx
  exact h

theorem Meets.of_error (h : Meets x Q E) (hx : x = .error e) : E e := by
  subst hx
  exact h

/-- A step that has no reason to stop. -/
theorem Meets.exists_ok (h : Meets x Q E) (hE : ∀ e, ¬ E e) : ∃ a, x = .ok a ∧ Q a := by
  cases x with
  | ok a => exact ⟨a, rfl, h⟩
  | error e => exact absurd h (hE e)

theorem meets_iff :
    Meets x Q E ↔ (∀ a, x = .ok a → Q a) ∧ (∀ e, x = .error e → E e) := by
  constructor
  · exact fun h => ⟨fun a => h.of_ok, fun e => h.of_error⟩
  · rintro ⟨hq, he⟩
    cases x with
    | ok a => exact hq a rfl
    | error e => exact he e rfl

theorem Meets.mono {Q Q' : α → Prop} {E E' : ε → Prop} (h : Meets x Q E)
    (hq : ∀ a, Q a → Q' a) (he : ∀ e, E e → E' e) : Meets x Q' E' := by
  cases x with
  | ok a => exact hq a h
  | error e => exact he e h

/-- **Sequencing.**  What the first step guarantees is what the second may use. -/
theorem Meets.bind {R : β → Prop} (hx : Meets x Q E) (hf : ∀ a, Q a → Meets (f a) R E) :
    Meets (x >>= f) R E := by
  cases x with
  | ok a => exact hf a hx
  | error e => exact hx

theorem meets_bind {R : β → Prop} :
    Meets (x >>= f) R E ↔ Meets x (fun a => Meets (f a) R E) E := by
  cases x <;> exact Iff.rfl

theorem meets_map {f : α → β} {R : β → Prop} :
    Meets (x.map f) R E ↔ Meets x (fun a => R (f a)) E := by
  cases x <;> exact Iff.rfl

theorem ok_bind (a : α) (f : α → Except ε β) : (Except.ok a >>= f) = f a := rfl

theorem bind_eq_ok {b : β} :
    (x >>= f) = .ok b ↔ ∃ a, x = .ok a ∧ f a = .ok b := by
  cases x with
  | ok a => exact ⟨fun h => ⟨a, rfl, h⟩, fun ⟨_, ha, hf⟩ => by cases ha; exact hf⟩
  | error e => exact ⟨fun h => (by cases h), fun ⟨_, ha, _⟩ => by cases ha⟩

/-- A run that is evaluated to a value with a decidable property. -/
theorem exists_ok_of_any {p : α → Bool} (h : x.toOption.any p = true) :
    ∃ a, x = .ok a ∧ p a = true := by
  cases x with
  | ok a => exact ⟨a, rfl, h⟩
  | error e => cases h

/-- Why a run has stopped. -/
def reason : Except ε α → Option ε
  | .ok _ => none
  | .error e => some e

theorem eq_error_of_reason (h : reason x = some e) : x = .error e := by
  cases x with
  | ok a => cases h
  | error e' => cases h; rfl

/-! ### Two computations side by side -/

section Agree

variable {δ : Type u} {γ η : Type v} {y : Except δ γ} {R : α → γ → Prop} {E : ε → δ → Prop}

/-- Both return, with values related by `R`, or both stop, for reasons related by `E`. -/
def Agree (R : α → γ → Prop) (E : ε → δ → Prop) : Except ε α → Except δ γ → Prop
  | .ok a, .ok c => R a c
  | .error e, .error d => E e d
  | _, _ => False

theorem Agree.refl (x : Except ε α) : Agree Eq Eq x x := by
  cases x with
  | ok a => exact rfl
  | error e => exact rfl

theorem Agree.mono {R S : α → γ → Prop}
    (h : Agree R E x y) (hRS : ∀ a c, R a c → S a c) : Agree S E x y := by
  cases x with
  | ok a =>
    cases y with
    | ok c => exact hRS a c h
    | error d => exact h.elim
  | error e =>
    cases y with
    | ok c => exact h.elim
    | error d => exact h

theorem Agree.bind {S : β → η → Prop} {g : γ → Except δ η} (hx : Agree R E x y)
    (hf : ∀ a c, x = .ok a → y = .ok c → R a c → Agree S E (f a) (g c)) :
    Agree S E (x >>= f) (y >>= g) := by
  cases x with
  | ok a =>
    cases y with
    | ok c => exact hf a c rfl rfl hx
    | error d => exact hx.elim
  | error e =>
    cases y with
    | ok c => exact hx.elim
    | error d => exact hx

/-- The first one goes on without stopping. -/
theorem Agree.map_left {S : β → γ → Prop} {f : α → β} (h : Agree R E x y)
    (hf : ∀ a c, R a c → S (f a) c) : Agree S E (x >>= fun a => pure (f a)) y := by
  cases x with
  | ok a =>
    cases y with
    | ok c => exact hf a c h
    | error d => exact h.elim
  | error e =>
    cases y with
    | ok c => exact h.elim
    | error d => exact h

/-- What both compute may be the same. -/
theorem Agree.map_eq {y : Except ε γ} (h : Agree R Eq x y)
    {f : α → β} {g : γ → β} (hR : ∀ a c, R a c → f a = g c) : x.map f = y.map g := by
  cases x with
  | ok a =>
    cases y with
    | ok c => exact congrArg Except.ok (hR a c h)
    | error d => exact h.elim
  | error e =>
    cases y with
    | ok c => exact h.elim
    | error d => exact congrArg Except.error h

theorem Agree.of_ok (h : Agree R E x y) {a : α} (hx : x = .ok a) : ∃ c, y = .ok c ∧ R a c := by
  subst hx
  cases y with
  | ok c => exact ⟨c, rfl, h⟩
  | error d => exact h.elim

theorem Agree.of_ok_right
    (h : Agree R E x y) {c : γ} (hy : y = .ok c) : ∃ a, x = .ok a ∧ R a c := by
  subst hy
  cases x with
  | ok a => exact ⟨a, rfl, h⟩
  | error e => exact h.elim

theorem Agree.of_error_right (h : Agree R E x y) {d : δ} (hy : y = .error d) :
    ∃ e, x = .error e ∧ E e d := by
  subst hy
  cases x with
  | ok a => exact h.elim
  | error e => exact ⟨e, rfl, h⟩

theorem Agree.of_error (h : Agree R E x y) (hx : x = .error e) : ∃ d, y = .error d ∧ E e d := by
  subst hx
  cases y with
  | ok c => exact h.elim
  | error d => exact ⟨d, rfl, h⟩

end Agree

/-! ### A computation that may give up earlier -/

section GivesUp

variable {A : ε → Prop} {H : ε → ε → Prop}

/-- `x` returns what `y` returns; if it stops, that is for a reason in `A`, or `y` stops
too, for a reason related by `H`. -/
def GivesUp (A : ε → Prop) (H : ε → ε → Prop) (x y : Except ε α) : Prop :=
  match x with
  | .ok a => y = .ok a
  | .error e => A e ∨ ∃ d, y = .error d ∧ H e d

theorem GivesUp.refl (hH : ∀ e, H e e) (x : Except ε α) : GivesUp A H x x := by
  cases x with
  | ok a => exact rfl
  | error e => exact .inr ⟨e, rfl, hH e⟩

theorem GivesUp.bind {x y : Except ε α} {f g : α → Except ε β} (h : GivesUp A H x y)
    (hf : ∀ a, GivesUp A H (f a) (g a)) : GivesUp A H (x >>= f) (y >>= g) := by
  cases x with
  | ok a =>
    obtain rfl : y = .ok a := h
    exact hf a
  | error e =>
    rcases h with h | ⟨d, rfl, h⟩
    · exact .inl h
    · exact .inr ⟨d, rfl, h⟩

theorem GivesUp.of_error {x y : Except ε α} (h : GivesUp A H x y) (hx : x = .error e) :
    A e ∨ ∃ d, y = .error d ∧ H e d := by
  subst hx
  exact h

theorem GivesUp.eq_of_not {x y : Except ε α} (h : GivesUp A Eq x y)
    (hx : ∀ e, x = .error e → ¬ A e) : y = x := by
  cases x with
  | ok a => exact h
  | error e =>
    rcases h with h | ⟨d, rfl, rfl⟩
    · exact absurd h (hx e rfl)
    · rfl

end GivesUp

/-- A loop within a loop is a loop over all the turns. -/
theorem foldlM_flatMap {γ δ : Type u} {f : β → δ → Except ε β} (g : γ → List δ) :
    ∀ (l : List γ) (b : β),
      (l.flatMap g).foldlM f b = l.foldlM (fun b c => (g c).foldlM f b) b := by
  intro l
  induction l with
  | nil => exact fun b => rfl
  | cons c l ih =>
    intro b
    rw [List.flatMap_cons, List.foldlM_append, List.foldlM_cons]
    exact congrArg ((g c).foldlM f b >>= ·) (funext ih)

end Outcome

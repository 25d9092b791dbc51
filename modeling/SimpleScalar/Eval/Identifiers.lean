import SimpleScalar.Eval.Parse

/-!
# The evaluator and its identifiers

What `eval_expr` does with an identifier evaluator that is changed: it goes the same way as
long as the two evaluators agree (`evalExpr_givesUp`).  An expression that has a value has
asked for every identifier in it (`Spells.ident_ok`).
-/

namespace SimpleScalar.Eval

open Scanner Outcome

variable {N : Numerics} {l : Level}

/-! ## Changing the identifier evaluator -/

section Change

variable {A : Halt → Prop} {H : Halt → Halt → Prop} {evalIdent evalIdent' : EvalIdent N}

theorem parse_givesUp (hH : ∀ e, H e e)
    (h : ∀ text, GivesUp A H (evalIdent text) (evalIdent' text)) (n : ℕ) (l : Level)
    (es : State) : GivesUp A H (parse evalIdent l n es) (parse evalIdent' l n es) := by
  induction n generalizing l es with
  | zero =>
    cases l <;> exact GivesUp.refl hH _
  | succ n ih =>
    cases l with
    | factor =>
      rw [parse, parse, factor, factor]
      refine (GivesUp.refl hH _).bind fun x => ?_
      dsimp only
      split
      · refine (GivesUp.refl hH _).bind fun y => (ih .expr _).bind fun z => ?_
        exact GivesUp.refl hH _
      · refine (GivesUp.refl hH _).bind fun y => (ih .factor _).bind fun z => ?_
        exact GivesUp.refl hH _
      · refine (GivesUp.refl hH _).bind fun y => (h _).bind fun z => ?_
        exact GivesUp.refl hH _
      · exact GivesUp.refl hH _
      · exact GivesUp.refl hH _
    | term =>
      rw [parse, parse, term, term]
      refine (ih .factor _).bind fun x => ?_
      dsimp only
      split
      · exact GivesUp.refl hH _
      refine (GivesUp.refl hH _).bind fun y => ?_
      split
      · refine (GivesUp.refl hH _).bind fun z => (ih .term _).bind fun w => ?_
        exact GivesUp.refl hH _
      · refine (GivesUp.refl hH _).bind fun z => (ih .term _).bind fun w => ?_
        exact GivesUp.refl hH _
      · exact GivesUp.refl hH _
    | expr =>
      rw [parse, parse, expr, expr]
      refine (ih .term _).bind fun x => ?_
      dsimp only
      split
      · exact GivesUp.refl hH _
      refine (GivesUp.refl hH _).bind fun y => ?_
      split
      · refine (GivesUp.refl hH _).bind fun z => (ih .expr _).bind fun w => ?_
        exact GivesUp.refl hH _
      · refine (GivesUp.refl hH _).bind fun z => (ih .expr _).bind fun w => ?_
        exact GivesUp.refl hH _
      · exact GivesUp.refl hH _

theorem evalExpr_givesUp (hH : ∀ e, H e e)
    (h : ∀ text, GivesUp A H (evalIdent text) (evalIdent' text)) (s : List Char) :
    GivesUp A H (evalExpr evalIdent s) (evalExpr evalIdent' s) := by
  have hParse := parse_givesUp hH h (3 * s.length + 3) .expr
    { p := s, lastp := [], tokBuf := [], peekTok := .invalid, evalError := .noerr }
  exact hParse.bind fun _ => GivesUp.refl hH _

end Change

/-! ## Every identifier is asked for -/

theorem andThen_eq_some {α β : Type} {x : Run (Option α)} {k : α → Run (Option β)} {b : β} :
    andThen x k = .ok (some b) ↔ ∃ a, x = .ok (some a) ∧ k a = .ok (some b) := by
  cases x with
  | error e => simp [andThen, bind, Except.bind]
  | ok o =>
    cases o with
    | none => simp [andThen, bind, Except.bind, pure, Except.pure]
    | some a => simp [andThen, bind, Except.bind]

theorem Spells.ident_ok {evalIdent : EvalIdent N} {e : Phrase l} {ts : List Lexeme}
    (h : Spells e ts) {v : Value N} (he : e.eval evalIdent = .ok (some v)) {text : List Char}
    (ht : (.ident, text) ∈ ts) : ∃ w, evalIdent text = .ok (w, .noerr) := by
  induction h generalizing v with
  | const text' => simp at ht
  | ident text' =>
    obtain rfl : text = text' := by simpa using ht
    rw [Phrase.eval] at he
    cases hIdent : evalIdent text with
    | error e =>
      rw [hIdent] at he
      cases he
    | ok x =>
      rw [hIdent] at he
      exact ⟨v, congrArg Except.ok (ofErr_eq_some.mp (Except.ok.inj he))⟩
  | neg _ ih =>
    obtain ⟨a, ha, -⟩ := andThen_eq_some.mp he
    exact ih ha (by simpa using ht)
  | paren _ ih => exact ih he (by simpa using ht)
  | single _ ih => exact ih he ht
  | @mul f op t ts us _ _ ihf iht =>
    obtain ⟨a, ha, he⟩ := andThen_eq_some.mp he
    obtain ⟨b, hb, -⟩ := andThen_eq_some.mp he
    have hne : (Tok.ident, text) ≠ op.lexeme := by cases op <;> simp [MulOp.lexeme]
    rcases List.mem_append.mp ht with ht | ht
    · exact ihf ha ht
    · exact iht hb ((List.mem_cons.mp ht).resolve_left hne)
  | sum _ hj _ ih =>
    rcases List.mem_append.mp ht with ht | ht
    · exact ih he ht
    · exact absurd (hj _ ht) (by simp)
  | @add t op e ts js us _ hj _ _ iht ihe =>
    obtain ⟨a, ha, he⟩ := andThen_eq_some.mp he
    obtain ⟨b, hb, -⟩ := andThen_eq_some.mp he
    have hne : (Tok.ident, text) ≠ op.lexeme := by cases op <;> simp [AddOp.lexeme]
    rcases List.mem_append.mp ht with ht | ht
    · exact iht ha ht
    · rcases List.mem_append.mp ht with ht | ht
      · exact absurd (hj _ ht) (by simp)
      · exact ihe hb ((List.mem_cons.mp ht).resolve_left hne)

end SimpleScalar.Eval

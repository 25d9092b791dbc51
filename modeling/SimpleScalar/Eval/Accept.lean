import SimpleScalar.Eval.Parse

/-!
# Accepted strings

A caller of `eval_expr` takes a string for an expression if there is no error and the end
pointer is at the terminating NUL (`Accepts`).  That should be so for the sentences of the
grammar, blanks anywhere (`Sentence`).

`accepts_iff_sentence` says for which strings it is.  The end pointer stands right after
the last token, so a sentence that ends in a blank is rejected.  The look-ahead slot is
empty again after a character of no token, so such characters pass after a term.
-/

namespace SimpleScalar.Eval

open Scanner Outcome

variable {N : Numerics} {l : Level}

/-! ## Sentences -/

/-- An identifier evaluator that knows some identifiers. -/
def lookup (known : List Char → Option (Value N)) : EvalIdent N := fun text =>
  match known text with
  | some v => .ok (v, .noerr)
  | none => .ok (errValue, .undefvar)

/-- Division where no quotient is undefined. -/
def quotient (N : Numerics) : Operator N :=
  ⟨N.dDiv, N.fDiv, fun a b => .ok (a / b), fun a b => .ok (a.sdiv b)⟩

def AddOp.value (op : AddOp) (v w : Value N) : Option (Value N) :=
  (op.apply v w).toOption.join

def MulOp.value (op : MulOp) (v w : Value N) : Option (Value N) :=
  match op with
  | .mult => (MulOp.apply .mult v w).toOption.join
  | .div =>
    match fEqZero w .noerr with
    | (isZero, err) =>
      if isZero then none else (ofErr <$> arith (quotient N) v w err).toOption.join

/-- The value of a phrase, if its identifiers are known, its constants can be converted, the
operands of its operators are numbers and no divisor is zero. -/
def Phrase.value (known : List Char → Option (Value N)) {l : Level} :
    Phrase l → Option (Value N)
  | .const text => ofErr (constant text)
  | .ident text => known text
  | .neg f => (f.value known).bind fun v => ofErr (fNeg v .noerr)
  | .paren e => e.value known
  | .single f => f.value known
  | .mul f op t => (f.value known).bind fun v => (t.value known).bind (op.value v)
  | .sum t => t.value known
  | .add t op e => (t.value known).bind fun v => (e.value known).bind (op.value v)

/-- The tokens of the string are those of an expression, and that has a value. -/
def Sentence (known : List Char → Option (Value N)) (s : List Char) : Prop :=
  ∃ e : Phrase .expr, lexer.tokens s = e.tokens ∧ (e.value known).isSome

/-- No error, and the end pointer at the terminating NUL. -/
def Accepts (known : List Char → Option (Value N)) (s : List Char) : Prop :=
  ∃ x, evalExpr (lookup known) s = .ok x ∧ x.evalError = .noerr ∧ x.endp = []

/-! ## The two values of a phrase -/

theorem meets_andThen {α β : Type} {x : Run (Option α)} {k : α → Run (Option β)} {o : Option α}
    {f : α → Option β} {E : Halt → Prop} (hx : Meets x (· = o) E)
    (hk : ∀ a, Meets (k a) (· = f a) E) : Meets (andThen x k) (· = o.bind f) E := by
  refine hx.bind fun o' ho => ?_
  subst ho
  cases o' with
  | none => exact rfl
  | some a => exact hk a

theorem AddOp.apply_meets (op : AddOp) (v w : Value N) :
    Meets (op.apply v w) (· = op.value v w) (· = .stop .undefined) := by
  have hTotal : ∃ o, op.apply v w = .ok o := by
    cases op with
    | plus =>
      obtain ⟨x, hx, -⟩ := fAdd_total v w .noerr
      exact ⟨ofErr x, by rw [AddOp.apply, hx]; rfl⟩
    | minus =>
      obtain ⟨x, hx, -⟩ := fSub_total v w .noerr
      exact ⟨ofErr x, by rw [AddOp.apply, hx]; rfl⟩
  obtain ⟨o, ho⟩ := hTotal
  rw [AddOp.value, ho]
  exact rfl

/-- Where the division of the source is defined, it is the quotient. -/
theorem fDiv_eq_quotient {v w : Value N} {err : Err} {x : Value N × Err}
    (h : fDiv v w err = .ok x) : arith (quotient N) v w err = .ok x := by
  have hu : ∀ a b c, uintDiv a b = .ok c → (.ok (a / b) : Run Word) = .ok c := by
    intro a b c hab
    unfold uintDiv at hab
    split at hab
    · cases hab
    · exact hab
  have hi : ∀ a b c, intDiv a b = .ok c → (.ok (a.sdiv b) : Run Word) = .ok c := by
    intro a b c hab
    unfold intDiv at hab
    split at hab
    · cases hab
    · exact hab
  cases v <;> cases w <;> unfold fDiv arith at h <;> unfold arith quotient <;>
    simp [Value.type, resultType, evalAsDouble, evalAsFloat, evalAsUint, evalAsInt,
      bind, Except.bind, pure, Except.pure] at h ⊢ <;> grind

theorem MulOp.apply_meets (op : MulOp) (v w : Value N) :
    Meets (op.apply v w) (· = op.value v w) (· = .stop .undefined) := by
  cases op with
  | mult =>
    obtain ⟨x, hx, -⟩ := fMult_total v w .noerr
    have hApply : MulOp.apply .mult v w = .ok (ofErr x) := by
      rw [MulOp.apply, hx]
      rfl
    rw [MulOp.value, hApply]
    exact rfl
  | div =>
    rw [MulOp.apply, MulOp.value]
    generalize fEqZero w .noerr = z
    obtain ⟨isZero, err⟩ := z
    cases isZero with
    | true => exact rfl
    | false =>
      change Meets (ofErr <$> fDiv v w err)
        (· = (Except.toOption (ofErr <$> arith (quotient N) v w err)).join) _
      cases h : fDiv v w err with
      | error e => exact fDiv_error h
      | ok x =>
        rw [fDiv_eq_quotient h]
        exact rfl

/-- A phrase evaluates to its value, or a quotient is undefined. -/
theorem Phrase.eval_meets (known : List Char → Option (Value N)) (e : Phrase l) :
    Meets (e.eval (lookup known)) (· = e.value known) (· = .stop .undefined) := by
  induction e with
  | const text => exact rfl
  | ident text =>
    unfold Phrase.eval Phrase.value lookup
    cases known text with
    | none => exact rfl
    | some v => exact rfl
  | neg f ih => exact meets_andThen ih fun v => rfl
  | paren e ih => exact ih
  | single f ih => exact ih
  | mul f op t ihf iht =>
    exact meets_andThen ihf fun v => meets_andThen iht fun w => op.apply_meets v w
  | sum t ih => exact ih
  | add t op e iht ihe =>
    exact meets_andThen iht fun v => meets_andThen ihe fun w => op.apply_meets v w

/-! ## Blanks at the end -/

def EndsInBlank (s : List Char) : Prop := ∃ c, s.getLast? = some c ∧ tokMap c = .whitespace

instance (s : List Char) : Decidable (EndsInBlank s) :=
  decidable_of_iff (s.getLast?.any (tokMap · = .whitespace) = true)
    (by simp [EndsInBlank, Option.any_eq_true])

/-- The last character of a token is no blank. -/
theorem last_of_reads {s r : List Char} {ts : List Lexeme} (h : lexer.Reads s ts r)
    (hts : ts ≠ []) : ∃ u c, s = u ++ c :: r ∧ tokMap c ≠ .whitespace := by
  induction h with
  | nil => exact absurd rfl hts
  | @cons s r r' x ts hx hReads ih =>
    have hCut : Cut s x.2 r := by
      rcases scan_cases s with ⟨hEof, -⟩ | ⟨-, hCut⟩
      · exact absurd ((tok_of_next hx).symm.trans (by rw [hEof])) (next_eq_some.mp hx).2
      · rwa [(next_eq_some.mp hx).1] at hCut
    obtain ⟨ws, hs⟩ := hCut.append
    rcases List.eq_nil_or_concat ts with rfl | ⟨ts', y, rfl⟩
    · cases hReads
      obtain ⟨t, c, hText⟩ := (List.eq_nil_or_concat x.2).resolve_left hCut.text_ne_nil
      refine ⟨ws ++ t, c, by simp [hs, hText], hCut.not_blank c (by simp [hText])⟩
    · obtain ⟨u, c, hr, hc⟩ := ih (by simp)
      exact ⟨ws ++ x.2 ++ u, c, by simp [hs, hr], hc⟩

/-- The string ends in a blank unless the last token ends it. -/
theorem endsInBlank_iff {s r : List Char} {ts : List Lexeme} (h : lexer.Reads s ts r)
    (hts : ts ≠ []) (hr : lexer.tokens r = []) : EndsInBlank s ↔ r ≠ [] := by
  obtain ⟨u, c, rfl, hc⟩ := last_of_reads h hts
  have hBlank : ∀ d ∈ r, tokMap d = .whitespace := by
    rcases scan_cases r with ⟨-, h⟩ | ⟨h, -⟩
    · exact h
    · exact absurd (next_eq_none.mp (tokens_eq_nil_iff.mp hr)) h
  rcases List.eq_nil_or_concat r with rfl | ⟨r', d, rfl⟩
  · simp [EndsInBlank, hc]
  · refine ⟨fun _ => by simp, fun _ => ⟨d, ?_, hBlank d (by simp)⟩⟩
    have hs : u ++ c :: r'.concat d = (u ++ c :: r').concat d := by simp
    rw [hs, List.concat_eq_append, List.getLast?_concat]

/-! ## Acceptance -/

/-- The string is an expression with a value, characters of no token after its terms passed
over. -/
def Tolerated (known : List Char → Option (Value N)) (s : List Char) : Prop :=
  ∃ e : Phrase .expr, Spells e (lexer.tokens s) ∧ ∃ v, e.eval (lookup known) = .ok (some v)

/-- The string is a sentence with a quotient that C leaves undefined. -/
def Overflows (known : List Char → Option (Value N)) (s : List Char) : Prop :=
  ∃ e : Phrase .expr, lexer.tokens s = e.tokens ∧ (e.value known).isSome ∧
    e.eval (lookup known) = .error (.stop .undefined)

def HasInvalid (s : List Char) : Prop := ∃ x ∈ lexer.tokens s, x.1 = .invalid

variable {known : List Char → Option (Value N)} {s : List Char}

theorem accepts_iff
    (hs : Short (lexer.tokens s)) : Accepts known s ↔ Tolerated known s ∧ ¬ EndsInBlank s := by
  constructor
  · rintro ⟨x, hx, hNo, hEnd⟩
    obtain ⟨e, ts, hSpells, hReads, -, -, hEval⟩ := (evalExpr_meets _ s).of_ok hx hNo
    rw [hEnd] at hReads
    have hTokens : lexer.tokens s = ts := by
      rw [hReads.tokens_eq, tokens_of_none rfl, List.append_nil]
    refine ⟨⟨e, hTokens ▸ hSpells, x.val, hEval⟩, ?_⟩
    rw [endsInBlank_iff hReads (List.length_pos_iff.mp hSpells.length_pos) (tokens_of_none rfl)]
    simp
  · rintro ⟨⟨e, hSpells, v, hEval⟩, hBlank⟩
    obtain ⟨r, hReads, hr⟩ := exists_reads (List.append_nil (lexer.tokens s)).symm
    obtain ⟨x, hx, -, hEnd, hNo⟩ :=
      (evalExpr_of_spells hSpells hReads hs hr).of_ok_right hEval
    have hNil := List.length_pos_iff.mp hSpells.length_pos
    exact ⟨x, hx, hNo, hEnd.trans (not_not.mp fun h =>
      hBlank ((endsInBlank_iff hReads hNil hr).mpr h))⟩

theorem sentence_iff :
    Sentence known s ↔ (Tolerated known s ∧ ¬ HasInvalid s) ∨ Overflows known s := by
  constructor
  · rintro ⟨e, hTokens, hValue⟩
    cases hEval : e.eval (lookup known) with
    | error h =>
      have := (e.eval_meets known).of_error hEval
      exact .inr ⟨e, hTokens, hValue, by rw [hEval, this]⟩
    | ok o =>
      obtain rfl : o = e.value known := (e.eval_meets known).of_ok hEval
      obtain ⟨v, hv⟩ := Option.isSome_iff_exists.mp hValue
      refine .inl ⟨⟨e, hTokens ▸ e.spells_tokens, v, hEval.trans (by rw [hv])⟩, ?_⟩
      rintro ⟨x, hx, hInvalid⟩
      exact e.tokens_valid x (hTokens ▸ hx) hInvalid
  · rintro (⟨⟨e, hSpells, v, hEval⟩, hValid⟩ | ⟨e, hTokens, hValue, -⟩)
    · have hTokens := hSpells.eq_tokens fun x hx h => hValid ⟨x, hx, h⟩
      exact ⟨e, hTokens, by rw [← (e.eval_meets known).of_ok hEval]; rfl⟩
    · exact ⟨e, hTokens, hValue⟩

theorem Overflows.not_accepts
    (hs : Short (lexer.tokens s)) (h : Overflows known s) : ¬ Accepts known s := by
  obtain ⟨e, hTokens, -, hEval⟩ := h
  obtain ⟨r, hReads, hr⟩ := exists_reads (List.append_nil (lexer.tokens s)).symm
  obtain ⟨h, hx, -⟩ :=
    (evalExpr_of_spells (hTokens ▸ e.spells_tokens) hReads hs hr).of_error_right hEval
  rintro ⟨x, hx', -⟩
  rw [hx] at hx'
  cases hx'

/-- **Acceptance.**  `eval_expr` accepts the sentences and nothing else, if and only if the
string has a character of no token and a blank at its end, or none of both, as far as it is
tolerated, and it is no sentence with an undefined quotient. -/
theorem accepts_iff_sentence (known : List Char → Option (Value N)) (s : List Char)
    (hs : Short (lexer.tokens s)) :
    (Accepts known s ↔ Sentence known s) ↔
      (Tolerated known s → (EndsInBlank s ↔ HasInvalid s)) ∧ ¬ Overflows known s := by
  by_cases hOver : Overflows known s
  · have := hOver.not_accepts hs
    have : Sentence known s := sentence_iff.mpr (.inr hOver)
    tauto
  · rw [accepts_iff hs, sentence_iff]
    tauto

theorem accepts_iff_sentence_sum :
    (Accepts (N := .lp64) (fun _ => none) " (1 +2)*3".toList ↔
        Sentence (N := .lp64) (fun _ => none) " (1 +2)*3".toList) ↔
      (Tolerated (N := .lp64) (fun _ => none) " (1 +2)*3".toList →
        (EndsInBlank " (1 +2)*3".toList ↔ HasInvalid " (1 +2)*3".toList)) ∧
      ¬ Overflows (N := .lp64) (fun _ => none) " (1 +2)*3".toList :=
  accepts_iff_sentence _ _ (by decide)

/-- A character of no token is skipped silently, and a blank at the end is not. -/
theorem accepts_one_hash :
    (Accepts (N := .lp64) (fun _ => none) "1#".toList ∧
      ¬ Sentence (N := .lp64) (fun _ => none) "1#".toList) ∧
    (Sentence (N := .lp64) (fun _ => none) "1 ".toList ∧
      ¬ Accepts (N := .lp64) (fun _ => none) "1 ".toList) := by
  refine ⟨⟨?_, ?_⟩, ⟨.sum (.single (.const ['1'])), by decide, by decide⟩, ?_⟩
  · obtain ⟨x, hx, hp⟩ := exists_ok_of_any (x := evalExpr (lookup (N := .lp64) fun _ => none)
      "1#".toList) (p := fun x => x.evalError = .noerr ∧ x.endp = []) (by decide +kernel)
    exact ⟨x, hx, (of_decide_eq_true hp).1, (of_decide_eq_true hp).2⟩
  · rintro ⟨e, hTokens, -⟩
    have hHash : (Tok.invalid, ['#']) ∈ lexer.tokens "1#".toList := by decide
    exact e.tokens_valid _ (hTokens ▸ hHash) rfl
  · intro h
    exact ((accepts_iff (by decide)).mp h).2 (by decide)

end SimpleScalar.Eval

import SimpleScalar.Eval.Grammar
import SimpleScalar.Lib.Outcome

/-!
# What the evaluator reads

A state of the evaluator stands at a position of the string (`State.At`), whether or not
the token there has been looked at.  From a position, the evaluator reads exactly the
streams `Spells` describes.

* `parse_of_spells`: a phrase that is spelled out is evaluated to `Phrase.eval`.
* `parse_total`: an evaluation that ends without error has read a phrase and evaluated it;
  the depth of the calls is bounded by the number of tokens.
-/

namespace SimpleScalar.Eval

open Scanner Outcome

variable {N : Numerics} {l : Level} {evalIdent : EvalIdent N} {n : ℕ} {es : State} {q r : List Char}
  {ts : List Lexeme}

/-! ## Positions -/

/-- The position after a character of no token has been looked at. -/
def skip (q : List Char) : List Char :=
  match scan q with
  | (tok, _, r) => if tok = .invalid then r else q

theorem skip_of_invalid {text : List Char} (h : scan q = (.invalid, text, r)) :
    skip q = r := by
  simp [skip, h]

theorem skip_of_ne (h : (scan q).1 ≠ .invalid) : skip q = q := by
  simp [skip, h]

theorem skip_of_next {x : Lexeme} (h : lexer.next q = some (x, r))
    (hx : x.1 = .invalid) : skip q = r := by
  obtain ⟨hq, -⟩ := next_eq_some.mp h
  rw [hx] at hq
  exact skip_of_invalid hq

/-- The evaluator has read the string up to `q`: the slot is empty, or it holds the token
at `q`. -/
def State.At (es : State) (q : List Char) : Prop :=
  (es.peekTok = .invalid ∧ es.p = q) ∨
    (es.peekTok ≠ .invalid ∧ es.lastp = q ∧ scan q = (es.peekTok, es.tokBuf, es.p) ∧
      es.tokBuf.length < tokBufSize)

/-- The end `eval_expr` reports is the position. -/
theorem State.At.endp (h : es.At q) :
    (if es.peekTok ≠ .invalid then es.lastp else es.p) = q := by
  rcases h with ⟨ht, hp⟩ | ⟨ht, hp, -⟩
  · simp [ht, hp]
  · simp [ht, hp]

theorem State.At.of_error (h : es.At q) (err : Err) :
    ({ es with evalError := err } : State).At q := h

theorem peekNextToken_of_short (h : es.At q) (hs : (scan q).2.1.length < tokBufSize) :
    ∃ es', peekNextToken es = .ok ((scan q).1, es') ∧ es'.At (skip q) ∧
      es'.evalError = es.evalError ∧ es'.peekTok = (scan q).1 := by
  rcases h with ⟨ht, rfl⟩ | ⟨ht, rfl, hq, hb⟩
  · have hGet : getNextToken { es with lastp := es.p } =
        .ok ((scan es.p).1, { es with lastp := es.p, p := (scan es.p).2.2,
                                      tokBuf := (scan es.p).2.1 }) := by
      simp [getNextToken, ht, hs]
    refine ⟨{ es with lastp := es.p, p := (scan es.p).2.2, tokBuf := (scan es.p).2.1,
                      peekTok := (scan es.p).1 },
      by rw [peekNextToken, if_pos ht, hGet]; rfl, ?_, rfl, rfl⟩
    by_cases hi : (scan es.p).1 = .invalid
    · exact .inl ⟨hi, (skip_of_invalid (by rw [← hi])).symm⟩
    · exact .inr ⟨hi, (skip_of_ne hi).symm, by rw [skip_of_ne hi], hs⟩
  · have hSkip : skip es.lastp = es.lastp := skip_of_ne (by simp [hq, ht])
    refine ⟨es, by simp [peekNextToken, ht, hq, pure, Except.pure], ?_, rfl, by simp [hq]⟩
    rw [hSkip]
    exact .inr ⟨ht, rfl, hq, hb⟩

theorem peekNextToken_of_long (h : es.At q) (hs : ¬ (scan q).2.1.length < tokBufSize) :
    peekNextToken es = .error (.stop .undefined) := by
  rcases h with ⟨ht, rfl⟩ | ⟨ht, rfl, hq, hb⟩
  · simp [peekNextToken, getNextToken, ht, hs, bind, Except.bind]
  · exact absurd (by rw [hq]; exact hb) hs

theorem getNextToken_of_peeked (h : es.At q) (ht : es.peekTok ≠ .invalid) :
    ∃ es', getNextToken es = .ok (es.peekTok, es') ∧ es'.At (scan q).2.2 ∧
      es'.tokBuf = (scan q).2.1 ∧ es'.evalError = es.evalError := by
  rcases h with ⟨hi, -⟩ | ⟨-, rfl, hq, -⟩
  · exact absurd hi ht
  · exact ⟨{ es with peekTok := .invalid }, by rw [getNextToken, if_pos ht],
      .inl ⟨rfl, by simp [hq]⟩, by simp [hq], rfl⟩

variable {tok : Tok}

/-- A token that is looked at and then taken. -/
theorem take_token {q r text : List Char} (h : es.At q)
    (hx : lexer.next q = some ((tok, text), r)) (hv : tok ≠ .invalid)
    (hs : text.length < tokBufSize) :
    ∃ es₁ es₂, peekNextToken es = .ok (tok, es₁) ∧ getNextToken es₁ = .ok (tok, es₂) ∧
      es₂.At r ∧ es₂.tokBuf = text ∧ es₂.evalError = es.evalError := by
  obtain ⟨hq, -⟩ := next_eq_some.mp hx
  obtain ⟨es₁, hPeek, hAt, hErr, hTok⟩ := peekNextToken_of_short h (by rw [hq]; exact hs)
  rw [hq] at hPeek hTok
  rw [skip_of_ne (by rw [hq]; exact hv)] at hAt
  obtain ⟨es₂, hGet, hAt', hBuf, hErr'⟩ := getNextToken_of_peeked hAt (by rw [hTok]; exact hv)
  rw [hq] at hAt' hBuf
  exact ⟨es₁, es₂, hPeek, by rw [hGet, hTok], hAt', hBuf, by rw [hErr', hErr]⟩

/-! ## The three routines as one -/

def parse (evalIdent : EvalIdent N) : Level → ℕ → State → Run (Value N × State)
  | .factor => factor evalIdent
  | .term => term evalIdent
  | .expr => expr evalIdent

/-- Where a routine leaves the evaluator, `r` being what follows the phrase. -/
def Level.Ends : Level → List Char → State → Prop
  | .term, r, es => es.At (skip r)
  | _, r, es => es.At r

/-- The depth of the calls for a phrase of `k` tokens. -/
def Level.Deep : Level → ℕ → ℕ → Prop
  | .factor, k, n => 3 * k ≤ n + 2
  | .term, k, n => 3 * k ≤ n + 1
  | .expr, k, n => 3 * k ≤ n

/-- What may follow a phrase, so that it is read to its end and no further. -/
def Level.Follow : Level → List Char → Prop
  | .factor, _ => True
  | .term, r => (scan r).1 ≠ .mult ∧ (scan r).1 ≠ .div
  | .expr, r => (scan r).1 = .eof ∨ (scan r).1 = .cparen

/-- A value of the phrase is returned without error; an error of the phrase is reported. -/
def Returned (l : Level) (r : List Char) (x : Value N × State) : Option (Value N) → Prop
  | some v => x.1 = v ∧ x.2.evalError = .noerr ∧ l.Ends r x.2
  | none => x.2.evalError ≠ .noerr

/-- The routine `x` does what the phrase with the outcome `y` asks for. -/
abbrev Evaluates (l : Level) (r : List Char) (x : Run (Value N × State))
    (y : Run (Option (Value N))) : Prop := Agree (Returned l r) Eq x y

variable {x : Value N × Err} {v : Value N}

theorem ofErr_eq_some :
    ofErr x = some v ↔ x = (v, .noerr) := by
  obtain ⟨w, err⟩ := x
  by_cases h : err = .noerr
  · subst h; simp [ofErr]
  · simp [ofErr, h]

theorem ofErr_eq_none : ofErr x = none ↔ x.2 ≠ .noerr := by
  simp [ofErr]

theorem Level.Ends.of_error (h : l.Ends r es) (err : Err) :
    l.Ends r { es with evalError := err } := by
  cases l with
  | factor => exact State.At.of_error h err
  | term => exact State.At.of_error h err
  | expr => exact State.At.of_error h err

/-- The end of a routine that returns what an operator has given. -/
theorem agree_of_ofErr (h : l.Ends r es) (x : Value N × Err) :
    Evaluates l r (.ok (x.1, { es with evalError := x.2 })) (.ok (ofErr x)) := by
  cases hx : ofErr x with
  | none => exact ofErr_eq_none.mp hx
  | some v =>
    obtain rfl := ofErr_eq_some.mp hx
    exact ⟨rfl, rfl, h.of_error _⟩

/-- The same, with the error value in place of the result if there is an error. -/
theorem agree_of_checked (h : l.Ends r es) (x : Value N × Err) :
    Evaluates l r
      (if x.2 ≠ .noerr then .ok (errValue, { es with evalError := x.2 })
        else .ok (x.1, { es with evalError := x.2 })) (.ok (ofErr x)) := by
  by_cases hx : x.2 = .noerr
  · rw [if_neg (not_not.mpr hx)]
    exact agree_of_ofErr h x
  · rw [if_pos hx, ofErr_eq_none.mpr hx]
    exact hx

/-- A routine that returns at an error. -/
theorem evaluates_error (h : es.evalError ≠ .noerr) (x : Run (Value N × State)) :
    Evaluates l r (if es.evalError ≠ .noerr then .ok (v, es) else x) (.ok none) := by
  rw [if_pos h]
  exact h

variable {x : Run (Value N × State)} {y : Run (Option (Value N))}

variable {l' : Level} {f : Value N × State → Run (Value N × State)}

/-- Going on after a phrase that has been evaluated. -/
theorem Evaluates.andThen {r r' : List Char}
    {g : Value N → Run (Option (Value N))} (h : Evaluates l r x y)
    (hErr : ∀ v es, es.evalError ≠ .noerr →
      Evaluates l' r' (f (v, es)) (.ok none))
    (hOk : ∀ v es, es.evalError = .noerr → l.Ends r es →
      Evaluates l' r' (f (v, es)) (g v)) :
    Evaluates l' r' (x >>= f) (andThen y g) := by
  refine h.bind fun a c _ _ hac => ?_
  obtain ⟨v, es⟩ := a
  cases c with
  | none => exact hErr v es hac
  | some w =>
    obtain ⟨rfl, hNo, hEnds⟩ := hac
    exact hOk v es hNo hEnds

/-- The same for a phrase with the value of its part. -/
theorem Evaluates.pass {r r' : List Char} (h : Evaluates l r x y)
    (hErr : ∀ v es, es.evalError ≠ .noerr → Evaluates l' r' (f (v, es)) (.ok none))
    (hOk : ∀ v es, es.evalError = .noerr → l.Ends r es →
      Evaluates l' r' (f (v, es)) (.ok (some v))) :
    Evaluates l' r' (x >>= f) y := by
  have hy : Eval.andThen y (fun v => .ok (some v)) = y := by
    cases y with
    | error e => rfl
    | ok o => cases o <;> rfl
  exact hy ▸ h.andThen hErr hOk

variable {text q r : List Char}

theorem factor_of_const
    (hq : lexer.next q = some ((.const, text), r)) (hs : text.length < tokBufSize)
    (hAt : es.At q) :
    Evaluates .factor r (factor evalIdent (n + 1) es)
      ((Phrase.const text).eval evalIdent) := by
  obtain ⟨es₁, es₂, hPeek, hGet, hAt', rfl, -⟩ := take_token hAt hq (by decide) hs
  rw [factor, hPeek, ok_bind]
  dsimp only
  rw [hGet, ok_bind]
  exact agree_of_checked (l := .factor) hAt' (constant es₂.tokBuf)

theorem factor_of_ident
    (hq : lexer.next q = some ((.ident, text), r)) (hs : text.length < tokBufSize)
    (hAt : es.At q) :
    Evaluates .factor r (factor evalIdent (n + 1) es)
      ((Phrase.ident text).eval evalIdent) := by
  obtain ⟨es₁, es₂, hPeek, hGet, hAt', rfl, -⟩ := take_token hAt hq (by decide) hs
  rw [factor, hPeek, ok_bind]
  dsimp only
  rw [hGet, ok_bind]
  dsimp only [Phrase.eval]
  cases evalIdent es₂.tokBuf with
  | error h => exact rfl
  | ok x => exact agree_of_checked (l := .factor) hAt' x

variable {f : Phrase .factor}

theorem factor_of_neg {q q' r : List Char}
    (hq : lexer.next q = some ((.minus, ['-']), q')) (hAt : es.At q)
    (hNo : es.evalError = .noerr)
    (ih : ∀ es : State, es.At q' → es.evalError = .noerr →
      Evaluates .factor r (factor evalIdent n es) (f.eval evalIdent)) :
    Evaluates .factor r (factor evalIdent (n + 1) es) (f.neg.eval evalIdent) := by
  obtain ⟨es₁, es₂, hPeek, hGet, hAt', -, hErr⟩ := take_token hAt hq (by decide) (by decide)
  rw [factor, hPeek, ok_bind]
  dsimp only
  rw [hGet, ok_bind]
  refine Evaluates.andThen (ih es₂ hAt' (hErr.trans hNo)) (fun v es hes => ?_)
    (fun v es hes hEnds => ?_)
  · exact evaluates_error hes _
  · dsimp only
    rw [if_neg (not_not.mpr hes), hes]
    exact agree_of_ofErr hEnds (fNeg v .noerr)

variable {e : Phrase .expr}

theorem factor_of_paren {q q' r' r : List Char}
    (hq : lexer.next q = some ((.oparen, ['(']), q'))
    (hr : lexer.next r' = some ((.cparen, [')']), r)) (hAt : es.At q)
    (hNo : es.evalError = .noerr)
    (ih : ∀ es : State, es.At q' → es.evalError = .noerr →
      Evaluates .expr r' (expr evalIdent n es) (e.eval evalIdent)) :
    Evaluates .factor r (factor evalIdent (n + 1) es) (e.paren.eval evalIdent) := by
  obtain ⟨es₁, es₂, hPeek, hGet, hAt', -, hErr⟩ := take_token hAt hq (by decide) (by decide)
  rw [factor, hPeek, ok_bind]
  dsimp only
  rw [hGet, ok_bind]
  refine Evaluates.pass (ih es₂ hAt' (hErr.trans hNo)) (fun v es hes => ?_)
    (fun v es hes hEnds => ?_)
  · exact evaluates_error hes _
  · obtain ⟨es₃, es₄, hPeek', hGet', hAt'', -, hErr'⟩ :=
      take_token hEnds hr (by decide) (by decide)
    dsimp only
    rw [if_neg (not_not.mpr hes), hPeek', ok_bind]
    dsimp only
    rw [if_neg (not_not.mpr rfl), hGet', ok_bind]
    exact ⟨rfl, hErr'.trans hes, hAt''⟩

theorem term_of_single (hr : Level.Follow .term r) (hs : (scan r).2.1.length < tokBufSize)
    (h : Evaluates .factor r (factor evalIdent n es) (f.eval evalIdent)) :
    Evaluates .term r (term evalIdent (n + 1) es) (f.single.eval evalIdent) := by
  rw [term]
  refine Evaluates.pass h (fun v es hes => ?_) (fun v es hes hEnds => ?_)
  · exact evaluates_error hes _
  · obtain ⟨es', hPeek, hAt, hErr, -⟩ := peekNextToken_of_short hEnds hs
    dsimp only
    rw [if_neg (not_not.mpr hes), hPeek, ok_bind]
    dsimp only
    split
    · exact absurd ‹_› hr.1
    · exact absurd ‹_› hr.2
    · exact ⟨rfl, hErr.trans hes, hAt⟩

/-- An operation that is defined on all integers leaves an error in place. -/
theorem arith_of_total {op : Operator N} (hu : ∀ a b, ∃ c, op.uint a b = .ok c)
    (hi : ∀ a b, ∃ c, op.int a b = .ok c) (v w : Value N) (err : Err) :
    ∃ x, arith op v w err = .ok x ∧ (err ≠ .noerr → x.2 ≠ .noerr) := by
  choose cu hu using hu
  choose ci hi using hi
  cases v <;> cases w <;> unfold arith <;>
    simp [Value.type, resultType, evalAsDouble, evalAsFloat, evalAsUint, evalAsInt, hu, hi,
      bind, Except.bind, pure, Except.pure]

theorem fAdd_total (v w : Value N) (err : Err) :
    ∃ x, fAdd v w err = .ok x ∧ (err ≠ .noerr → x.2 ≠ .noerr) :=
  arith_of_total (fun a b => ⟨a + b, rfl⟩) (fun a b => ⟨a + b, rfl⟩) v w err

theorem fSub_total (v w : Value N) (err : Err) :
    ∃ x, fSub v w err = .ok x ∧ (err ≠ .noerr → x.2 ≠ .noerr) :=
  arith_of_total (fun a b => ⟨a - b, rfl⟩) (fun a b => ⟨a - b, rfl⟩) v w err

theorem fMult_total (v w : Value N) (err : Err) :
    ∃ x, fMult v w err = .ok x ∧ (err ≠ .noerr → x.2 ≠ .noerr) :=
  arith_of_total (fun a b => ⟨a * b, rfl⟩) (fun a b => ⟨a * b, rfl⟩) v w err

variable {op : Value N → Err → Run (Value N × Err)}

/-- A routine that applies such an operation to what the next phrase has given, and checks
for an error afterwards. -/
theorem Evaluates.operate (hop : ∀ w err, ∃ x, op w err = .ok x ∧ (err ≠ .noerr → x.2 ≠ .noerr))
    (h : Evaluates l r x y) :
    Evaluates l r
      (x >>= fun a => op a.1 a.2.evalError >>= fun b =>
        if b.2 ≠ .noerr then .ok (errValue, { a.2 with evalError := b.2 })
        else .ok (b.1, { a.2 with evalError := b.2 }))
      (Eval.andThen y fun w => ofErr <$> op w .noerr) := by
  refine h.andThen (fun w es hes => ?_) (fun w es hes hEnds => ?_)
  · obtain ⟨b, hb, hne⟩ := hop w es.evalError
    dsimp only
    rw [hb, ok_bind, if_pos (hne hes)]
    exact hne hes
  · obtain ⟨b, hb, -⟩ := hop w .noerr
    dsimp only
    rw [hes, hb, ok_bind]
    exact agree_of_checked hEnds b

variable {t : Phrase .term}

theorem term_of_mul {r₁ r₂ r : List Char} {op : MulOp} (hop : lexer.next r₁ = some (op.lexeme, r₂))
    (h : Evaluates .factor r₁ (factor evalIdent n es) (f.eval evalIdent))
    (ih : ∀ es : State, es.At r₂ → es.evalError = .noerr →
      Evaluates .term r (term evalIdent n es) (t.eval evalIdent)) :
    Evaluates .term r (term evalIdent (n + 1) es) ((f.mul op t).eval evalIdent) := by
  rw [term]
  refine Evaluates.andThen h (fun v es hes => evaluates_error hes _) (fun v es hes hEnds => ?_)
  dsimp only
  rw [if_neg (not_not.mpr hes)]
  cases op with
  | mult =>
    obtain ⟨es₁, es₂, hPeek, hGet, hAt, -, hErr⟩ := take_token hEnds hop (by decide) (by decide)
    rw [hPeek, ok_bind]
    dsimp only
    rw [hGet, ok_bind]
    exact (ih es₂ hAt (hErr.trans hes)).operate (fMult_total v)
  | div =>
    obtain ⟨es₁, es₂, hPeek, hGet, hAt, -, hErr⟩ := take_token hEnds hop (by decide) (by decide)
    rw [hPeek, ok_bind]
    dsimp only
    rw [hGet, ok_bind]
    refine Evaluates.andThen (ih es₂ hAt (hErr.trans hes))
      (fun w es hes => evaluates_error hes _) (fun w es hes hEnds => ?_)
    dsimp only [MulOp.apply]
    rw [if_neg (not_not.mpr hes), hes]
    cases fEqZero w .noerr with
    | mk isZero err =>
      cases isZero with
      | true => exact fun h : Err.div0 = .noerr => nomatch h
      | false =>
        dsimp only
        cases fDiv v w err with
        | error h => exact rfl
        | ok x => exact agree_of_ofErr hEnds x

variable {r₁ r : List Char} {js : List Lexeme}

/-- After a term, `expr` looks past a first character of no token, and reads on past a
second. -/
theorem skip_junk (hj : ∀ x ∈ js, x.1 = .invalid)
    (hl : js.length ≤ 2) (hs : Short js) (hr : Level.Follow .expr r)
    (hrs : (scan r).2.1.length < tokBufSize) (h : lexer.Reads r₁ js r) :
    (scan (skip r₁)).2.1.length < tokBufSize ∧ skip (skip r₁) = r ∧
      (scan (skip r₁)).1 ≠ .plus ∧ (scan (skip r₁)).1 ≠ .minus := by
  have hr' : (scan r).1 ≠ .invalid ∧ (scan r).1 ≠ .plus ∧ (scan r).1 ≠ .minus := by
    rcases hr with hr | hr <;> simp [hr]
  have hSkip := skip_of_ne hr'.1
  match js, hl with
  | [], _ =>
    cases h
    rw [hSkip]
    exact ⟨hrs, hSkip, hr'.2⟩
  | [x], _ =>
    obtain ⟨r', hx, ⟨⟩⟩ := reads_cons.mp h
    rw [skip_of_next hx (hj x (by simp))]
    exact ⟨hrs, hSkip, hr'.2⟩
  | [x, y], _ =>
    obtain ⟨r', hx, h⟩ := reads_cons.mp h
    obtain ⟨r'', hy, ⟨⟩⟩ := reads_cons.mp h
    rw [skip_of_next hx (hj x (by simp)), skip_of_next hy (hj y (by simp)),
      text_of_next hy, tok_of_next hy, hj y (by simp)]
    exact ⟨hs y (by simp), rfl, by decide, by decide⟩

theorem expr_of_sum (hj : ∀ x ∈ js, x.1 = .invalid) (hl : js.length ≤ 2)
    (hs : Short js) (hr : Level.Follow .expr r) (hrs : (scan r).2.1.length < tokBufSize)
    (hReads : lexer.Reads r₁ js r)
    (h : Evaluates .term r₁ (term evalIdent n es) (t.eval evalIdent)) :
    Evaluates .expr r (expr evalIdent (n + 1) es) (t.sum.eval evalIdent) := by
  rw [expr]
  refine Evaluates.pass h (fun v es hes => evaluates_error hes _) (fun v es hes hEnds => ?_)
  obtain ⟨hShort, hSkip, hp, hm⟩ := skip_junk hj hl hs hr hrs hReads
  obtain ⟨es', hPeek, hAt, hErr, -⟩ := peekNextToken_of_short hEnds hShort
  dsimp only
  rw [if_neg (not_not.mpr hes), hPeek, ok_bind]
  dsimp only
  split
  · exact absurd ‹_› hp
  · exact absurd ‹_› hm
  · exact ⟨rfl, hErr.trans hes, hSkip ▸ hAt⟩

theorem expr_of_add {r₁ r₂ r : List Char} {op : AddOp}
    (hop : lexer.next (skip r₁) = some (op.lexeme, r₂))
    (h : Evaluates .term r₁ (term evalIdent n es) (t.eval evalIdent))
    (ih : ∀ es : State, es.At r₂ → es.evalError = .noerr →
      Evaluates .expr r (expr evalIdent n es) (e.eval evalIdent)) :
    Evaluates .expr r (expr evalIdent (n + 1) es) ((t.add op e).eval evalIdent) := by
  rw [expr]
  refine Evaluates.andThen h (fun v es hes => evaluates_error hes _) (fun v es hes hEnds => ?_)
  dsimp only
  rw [if_neg (not_not.mpr hes)]
  cases op with
  | plus =>
    obtain ⟨es₁, es₂, hPeek, hGet, hAt, -, hErr⟩ := take_token hEnds hop (by decide) (by decide)
    rw [hPeek, ok_bind]
    dsimp only
    rw [hGet, ok_bind]
    exact (ih es₂ hAt (hErr.trans hes)).operate (fAdd_total v)
  | minus =>
    obtain ⟨es₁, es₂, hPeek, hGet, hAt, -, hErr⟩ := take_token hEnds hop (by decide) (by decide)
    rw [hPeek, ok_bind]
    dsimp only
    rw [hGet, ok_bind]
    exact (ih es₂ hAt (hErr.trans hes)).operate (fSub_total v)

/-- What stands after a term, at most one character of no token and then an operator. -/
theorem skip_one {op : AddOp} (hj : ∀ x ∈ js, x.1 = .invalid) (hl : js.length ≤ 1)
    (h : lexer.Reads r₁ (js ++ [op.lexeme]) r) :
    lexer.next (skip r₁) = some (op.lexeme, r) ∧ Level.Follow .term r₁ := by
  match js, hl with
  | [], _ =>
    obtain ⟨r', hx, ⟨⟩⟩ := reads_cons.mp h
    have hTok := tok_of_next hx
    rw [skip_of_ne (by rw [hTok]; cases op <;> decide)]
    refine ⟨hx, ?_⟩
    rw [Level.Follow, hTok]
    cases op <;> decide
  | [x], _ =>
    obtain ⟨r', hx, h⟩ := reads_cons.mp h
    obtain ⟨r'', hy, ⟨⟩⟩ := reads_cons.mp h
    have hInvalid := hj x (by simp)
    rw [skip_of_next hx hInvalid]
    refine ⟨hy, ?_⟩
    rw [Level.Follow, tok_of_next hx, hInvalid]
    decide

theorem short_of_reads (h : lexer.Reads q ts r)
    (hs : Short ts) (hr : (scan r).2.1.length < tokBufSize) :
    (scan q).2.1.length < tokBufSize := by
  cases h with
  | nil => exact hr
  | cons hn _ =>
    rw [text_of_next hn]
    exact hs _ (List.mem_cons_self ..)

theorem Level.Deep.exists_succ {k n : ℕ} (h : l.Deep k n) (hk : 0 < k) : ∃ m, n = m + 1 := by
  refine ⟨n - 1, ?_⟩
  cases l <;> simp only [Level.Deep] at h <;> omega

/-- **Completeness.**  A phrase that stands at the position is evaluated. -/
theorem parse_of_spells {e : Phrase l}
    (h : Spells e ts) (hReads : lexer.Reads q ts r) (hs : Short ts)
    (hr : l.Follow r) (hrs : (scan r).2.1.length < tokBufSize)
    (hn : l.Deep ts.length n) (hAt : es.At q) (hNo : es.evalError = .noerr) :
    Evaluates l r (parse evalIdent l n es) (e.eval evalIdent) := by
  induction h generalizing q r n es with
  | const text =>
    obtain ⟨n, rfl⟩ := hn.exists_succ (by simp)
    obtain ⟨r', hq, ⟨⟩⟩ := reads_cons.mp hReads
    exact factor_of_const hq (short_cons.mp hs).1 hAt
  | ident text =>
    obtain ⟨n, rfl⟩ := hn.exists_succ (by simp)
    obtain ⟨r', hq, ⟨⟩⟩ := reads_cons.mp hReads
    exact factor_of_ident hq (short_cons.mp hs).1 hAt
  | neg _ ih =>
    obtain ⟨n, rfl⟩ := hn.exists_succ (by simp)
    obtain ⟨q', hq, hReads⟩ := reads_cons.mp hReads
    simp only [Level.Deep, List.length_cons] at hn
    exact factor_of_neg hq hAt hNo fun es hAt hNo =>
      ih hReads (short_cons.mp hs).2 trivial hrs (by simp only [Level.Deep]; omega) hAt hNo
  | paren _ ih =>
    obtain ⟨n, rfl⟩ := hn.exists_succ (by simp)
    obtain ⟨q', hq, hReads⟩ := reads_cons.mp hReads
    obtain ⟨r', hReads, hClose⟩ := hReads.of_append
    obtain ⟨r'', hr', ⟨⟩⟩ := reads_cons.mp hClose
    simp only [Level.Deep, List.length_cons, List.length_append] at hn
    exact factor_of_paren hq hr' hAt hNo fun es hAt hNo =>
      ih hReads (short_append.mp (short_cons.mp hs).2).1 (.inr (tok_of_next hr'))
        (by rw [text_of_next hr']; decide) (by simp only [Level.Deep]; omega) hAt hNo
  | single hf ih =>
    obtain ⟨n, rfl⟩ := hn.exists_succ hf.length_pos
    simp only [Level.Deep] at hn
    exact term_of_single hr hrs
      (ih hReads hs trivial hrs (by simp only [Level.Deep]; omega) hAt hNo)
  | mul hf ht ihf iht =>
    obtain ⟨n, rfl⟩ := hn.exists_succ (Spells.mul hf ht).length_pos
    obtain ⟨r₁, hReads₁, hReads⟩ := hReads.of_append
    obtain ⟨r₂, hop, hReads₂⟩ := reads_cons.mp hReads
    obtain ⟨hs₁, hs₂⟩ := short_append.mp hs
    simp only [Level.Deep, List.length_append, List.length_cons] at hn
    exact term_of_mul hop
      (ihf hReads₁ hs₁ trivial (by rw [text_of_next hop]; simp)
        (by simp only [Level.Deep]; omega) hAt hNo)
      fun es hAt hNo => iht hReads₂ (short_cons.mp hs₂).2 hr hrs
        (by simp only [Level.Deep]; omega) hAt hNo
  | sum ht hj hl ih =>
    obtain ⟨n, rfl⟩ := hn.exists_succ (Spells.sum ht hj hl).length_pos
    obtain ⟨r₁, hReads₁, hReads⟩ := hReads.of_append
    obtain ⟨hs₁, hs₂⟩ := short_append.mp hs
    simp only [Level.Deep, List.length_append] at hn
    refine expr_of_sum hj hl hs₂ hr hrs hReads (ih hReads₁ hs₁ ?_
      (short_of_reads hReads hs₂ hrs) (by simp only [Level.Deep]; omega) hAt hNo)
    cases hReads with
    | nil => rcases hr with hr | hr <;> simp [Level.Follow, hr]
    | cons hx _ => simp [Level.Follow, tok_of_next hx, hj]
  | add ht hj hl he iht ihe =>
    obtain ⟨n, rfl⟩ := hn.exists_succ (Spells.add ht hj hl he).length_pos
    obtain ⟨r₁, hReads₁, hReads⟩ := hReads.of_append
    obtain ⟨hs₁, hs₂⟩ := short_append.mp hs
    have hrs₁ := short_of_reads hReads hs₂ hrs
    rw [List.append_cons] at hReads
    obtain ⟨r₂, hop, hReads₂⟩ := hReads.of_append
    obtain ⟨hNext, hFollow⟩ := skip_one hj hl hop
    simp only [Level.Deep, List.length_append, List.length_cons] at hn
    exact expr_of_add hNext
      (iht hReads₁ hs₁ hFollow hrs₁ (by simp only [Level.Deep]; omega) hAt hNo)
      fun es hAt hNo => ihe hReads₂ (short_cons.mp (short_append.mp hs₂).2).2 hr hrs
        (by simp only [Level.Deep]; omega) hAt hNo

/-! ## Soundness -/

/-- What a routine has stopped at: no operator it could have gone on with, if it has not
passed over a character of no token. -/
def Level.Stops (l : Level) (ts : List Lexeme) (r : List Char) : Prop :=
  (∀ x ∈ ts, x.1 ≠ .invalid) → l.Closed (lexer.tokens r)

/-- A routine that has ended without error has read a phrase and evaluated it. -/
def Parsed (evalIdent : EvalIdent N) (l : Level) (q : List Char) (x : Value N × State) : Prop :=
  x.2.evalError = .noerr → ∃ (e : Phrase l) (ts : List Lexeme) (r : List Char), Spells e ts ∧
    lexer.Reads q ts r ∧ Short ts ∧ l.Stops ts r ∧ l.Ends r x.2 ∧
      e.eval evalIdent = .ok (some x.1)

/-- Why an evaluation may have no result: undefined behaviour of the evaluator itself, or
the evaluation of an identifier. -/
def Halts (evalIdent : EvalIdent N) (q : List Char) (h : Halt) : Prop :=
  h = .stop .undefined ∨ ∃ text, (.ident, text) ∈ lexer.tokens q ∧ evalIdent text = .error h

/-- The depth of the calls at a position with `k` tokens left. -/
def Level.Room : Level → ℕ → ℕ → Prop
  | .factor, k, n => 3 * k + 1 ≤ n
  | .term, k, n => 3 * k + 2 ≤ n
  | .expr, k, n => 3 * k + 3 ≤ n

variable {h : Halt}

theorem Halts.of_reads
    (hh : Halts evalIdent r h) (hReads : lexer.Reads q ts r) : Halts evalIdent q h := by
  rcases hh with hh | ⟨text, ht, hh⟩
  · exact .inl hh
  · exact .inr ⟨text, by rw [hReads.tokens_eq]; exact List.mem_append_right _ ht, hh⟩

variable {E : Halt → Prop}

variable {α : Type} {k : Tok × State → Run α} {Q : α → Prop}

theorem meets_peek (hAt : es.At q) (hE : E (.stop .undefined))
    (hk : ∀ es' : State, (scan q).2.1.length < tokBufSize → es'.At (skip q) →
      es'.evalError = es.evalError → es'.peekTok = (scan q).1 →
      Meets (k ((scan q).1, es')) Q E) :
    Meets (peekNextToken es >>= k) Q E := by
  by_cases hs : (scan q).2.1.length < tokBufSize
  · obtain ⟨es', hPeek, hAt', hErr, hTok⟩ := peekNextToken_of_short hAt hs
    rw [hPeek]
    exact hk es' hs hAt' hErr hTok
  · rw [peekNextToken_of_long hAt hs]
    exact hE

/-- The token that has been looked at is taken. -/
theorem meets_get (hAt : es.At (skip q))
    (hPeek : es.peekTok = (scan q).1) (hTok : (scan q).1 = tok) (ht : tok ≠ .invalid)
    (hk : ∀ es' : State, es'.At (scan q).2.2 → es'.tokBuf = (scan q).2.1 →
      es'.evalError = es.evalError → Meets (k (tok, es')) Q E) :
    Meets (getNextToken es >>= k) Q E := by
  subst hTok
  rw [skip_of_ne ht] at hAt
  obtain ⟨es', hGet, hAt', hBuf, hErr⟩ := getNextToken_of_peeked hAt (hPeek ▸ ht)
  rw [hGet, hPeek]
  exact hk es' hAt' hBuf hErr

section Total

/-- Every routine does what it should with calls nested at most `n` deep. -/
def TotalUpTo (evalIdent : EvalIdent N) (n : ℕ) : Prop :=
  ∀ (l : Level) (q : List Char) (es : State), es.At q → es.evalError = .noerr →
    l.Room (lexer.tokens q).length n →
      Meets (parse evalIdent l n es) (Parsed evalIdent l q) (Halts evalIdent q)

theorem parsed_of_error {x : Value N × State} (h : x.2.evalError ≠ .noerr) :
    Parsed evalIdent l q x := fun h' => absurd h' h

/-- The rest of a routine that has read something goes on from there. -/
theorem TotalUpTo.after (ih : TotalUpTo evalIdent n)
    (hReads : lexer.Reads q ts r) (hts : ts ≠ []) (l : Level) (hAt : es.At r)
    (hNo : es.evalError = .noerr) (hn : 3 * (lexer.tokens q).length ≤ n) :
    Meets (parse evalIdent l n es) (Parsed evalIdent l r) (Halts evalIdent q) := by
  have hLen := congrArg List.length hReads.tokens_eq
  have hPos := List.length_pos_iff.mpr hts
  rw [List.length_append] at hLen
  have hRoom : l.Room (lexer.tokens r).length n := by
    cases l <;> simp only [Level.Room] <;> omega
  exact (ih l r es hAt hNo hRoom).mono (fun _ h => h) fun _ h => h.of_reads hReads

/-- An operation on the next phrase, with a check for an error afterwards. -/
theorem meets_operate {Q : Value N × State → Prop}
    (hop : ∀ w err, ∃ x, op w err = .ok x ∧ (err ≠ .noerr → x.2 ≠ .noerr))
    (hx : Meets x (Parsed evalIdent l r) E) (hErr : ∀ y, y.2.evalError ≠ .noerr → Q y)
    (hk : ∀ (e : Phrase l) (us : List Lexeme) (r' : List Char) (w u : Value N) (es : State),
      Spells e us → lexer.Reads r us r' → Short us → l.Stops us r' → l.Ends r' es →
      e.eval evalIdent = .ok (some w) → ofErr <$> op w .noerr = .ok (some u) → Q (u, es)) :
    Meets (x >>= fun a => op a.1 a.2.evalError >>= fun b =>
      if b.2 ≠ .noerr then .ok (errValue, { a.2 with evalError := b.2 })
      else .ok (b.1, { a.2 with evalError := b.2 })) Q E := by
  refine hx.bind fun a ha => ?_
  obtain ⟨b, hb, hne⟩ := hop a.1 a.2.evalError
  rw [hb, ok_bind]
  split
  · exact hErr _ ‹_›
  next hNo =>
    have hNo := not_not.mp hNo
    have hNo' : a.2.evalError = .noerr := by
      by_contra h
      exact hne h hNo
    obtain ⟨e, us, r', hSpells, hReads, hShort, hStops, hEnds, hEval⟩ := ha hNo'
    refine hk e us r' a.1 b.1 _ hSpells hReads hShort hStops (hEnds.of_error _) hEval ?_
    rw [← hNo', hb]
    exact congrArg Except.ok (ofErr_eq_some.mpr (Prod.ext rfl hNo))

theorem TotalUpTo.factor (ih : TotalUpTo evalIdent n) (hAt : es.At q) (hNo : es.evalError = .noerr)
    (hn : 3 * (lexer.tokens q).length ≤ n) :
    Meets (factor evalIdent (n + 1) es) (Parsed evalIdent .factor q) (Halts evalIdent q) := by
  rw [Eval.factor]
  refine meets_peek hAt (.inl rfl) fun es₁ hs hAt₁ hErr₁ hTok₁ => ?_
  dsimp only
  split
  next hTok =>
    -- `( expr )`
    have hx : lexer.next q = _ := next_of_sign hTok (by decide)
    refine meets_get hAt₁ hTok₁ hTok (by decide) fun es₂ hAt₂ _ hErr₂ => ?_
    refine (ih.after (.one hx) (by simp) .expr hAt₂ (by rw [hErr₂, hErr₁, hNo]) hn).bind fun y hy => ?_
    obtain ⟨v, es₃⟩ := y
    dsimp only
    split
    · exact parsed_of_error ‹_›
    next hErr₃ =>
      obtain ⟨e, ts, r, hSpells, hReads, hShort, -, hEnds, hEval⟩ := hy (not_not.mp hErr₃)
      refine meets_peek hEnds (.inl rfl) fun es₄ hs₄ hAt₄ hErr₄ hTok₄ => ?_
      dsimp only
      split
      · exact parsed_of_error (by simp)
      next hClose =>
        have hClose := not_not.mp hClose
        have hy : lexer.next r = _ := next_of_sign hClose (by decide)
        refine meets_get hAt₄ hTok₄ hClose (by decide) fun es₅ hAt₅ _ hErr₅ => ?_
        refine fun _ => ⟨.paren e, _, _, .paren hSpells,
          .cons hx (hReads.append (.one hy)), ?_, fun _ => trivial, hAt₅, hEval⟩
        simp [hShort, tokBufSize]
  next hTok =>
    -- `- factor`
    have hx : lexer.next q = _ := next_of_sign hTok (by decide)
    refine meets_get hAt₁ hTok₁ hTok (by decide) fun es₂ hAt₂ _ hErr₂ => ?_
    refine (ih.after (.one hx) (by simp) .factor hAt₂ (by rw [hErr₂, hErr₁, hNo]) hn).bind fun y hy => ?_
    obtain ⟨v, es₃⟩ := y
    dsimp only
    split
    · exact parsed_of_error ‹_›
    next hErr₃ =>
      have hErr₃ := not_not.mp hErr₃
      obtain ⟨e, ts, r, hSpells, hReads, hShort, -, hEnds, hEval⟩ := hy hErr₃
      intro hNeg
      refine ⟨.neg e, _, r, .neg hSpells, .cons hx hReads, ?_, fun _ => trivial,
        hEnds.of_error _, ?_⟩
      · simp [hShort, tokBufSize]
      · rw [Phrase.eval, hEval]
        rw [hErr₃] at hNeg ⊢
        exact congrArg Except.ok (ofErr_eq_some.mpr (Prod.ext rfl hNeg))
  next hTok =>
    -- an identifier
    have hx : lexer.next q = _ := next_of_tok hTok (by decide)
    refine meets_get hAt₁ hTok₁ hTok (by decide) fun es₂ hAt₂ hBuf hErr₂ => ?_
    rw [← hBuf] at hx hs
    dsimp only
    cases hIdent : evalIdent es₂.tokBuf with
    | error h =>
      refine .inr ⟨_, ?_, hIdent⟩
      rw [tokens_of_some hx]
      exact List.mem_cons_self ..
    | ok y =>
      obtain ⟨v, err⟩ := y
      rw [ok_bind]
      dsimp only
      split
      · exact parsed_of_error ‹_›
      next hErr =>
        refine fun _ => ⟨.ident _, _, _, .ident _, .one hx, by simpa using hs,
          fun _ => trivial, hAt₂.of_error _, ?_⟩
        rw [Phrase.eval, hIdent]
        exact congrArg Except.ok (ofErr_eq_some.mpr (by rw [not_not.mp hErr]))
  next hTok =>
    -- a constant
    have hx : lexer.next q = _ := next_of_tok hTok (by decide)
    refine meets_get hAt₁ hTok₁ hTok (by decide) fun es₂ hAt₂ hBuf hErr₂ => ?_
    rw [← hBuf] at hx hs
    dsimp only
    split
    · exact parsed_of_error ‹_›
    next hErr =>
      refine fun _ => ⟨.const _, _, _, .const _, .one hx, by simpa using hs,
        fun _ => trivial, hAt₂.of_error _, ?_⟩
      rw [Phrase.eval]
      exact congrArg Except.ok (ofErr_eq_some.mpr (Prod.ext rfl (not_not.mp hErr)))
  · exact parsed_of_error (by simp)

theorem fDiv_error {v w : Value N} {err : Err} (hop : fDiv v w err = .error h) :
    h = .stop .undefined := by
  have hu : ∀ a b h, uintDiv a b = .error h → h = .stop .undefined := by
    intro a b h hab
    unfold uintDiv at hab
    split at hab <;> cases hab
    rfl
  have hi : ∀ a b h, intDiv a b = .error h → h = .stop .undefined := by
    intro a b h hab
    unfold intDiv at hab
    split at hab <;> cases hab
    rfl
  cases v <;> cases w <;> unfold fDiv arith at hop <;>
    simp [Value.type, resultType, evalAsDouble, evalAsFloat, evalAsUint, evalAsInt,
      bind, Except.bind, pure, Except.pure] at hop <;> grind

theorem closed_term (hMult : (scan r).1 = .mult → False)
    (hDiv : (scan r).1 = .div → False) : Level.Closed .term (lexer.tokens r) := by
  intro x hx
  cases h : lexer.tokens r with
  | nil => simp [h] at hx
  | cons y ts =>
    obtain rfl : y = x := by simpa [h] using hx
    obtain ⟨r', hNext, -⟩ := tokens_eq_cons_iff.mp h
    rw [← tok_of_next hNext]
    exact ⟨hMult, hDiv⟩

theorem closed_expr (h : Level.Closed .term (lexer.tokens r))
    (hPlus : (scan r).1 = .plus → False) (hMinus : (scan r).1 = .minus → False) :
    Level.Closed .expr (lexer.tokens r) := by
  intro x hx
  refine ⟨(h x hx).1, (h x hx).2, ?_⟩
  cases hr : lexer.tokens r with
  | nil => simp [hr] at hx
  | cons y ts =>
    obtain rfl : y = x := by simpa [hr] using hx
    obtain ⟨r', hNext, -⟩ := tokens_eq_cons_iff.mp hr
    rw [← tok_of_next hNext]
    exact ⟨hPlus, hMinus⟩

theorem TotalUpTo.term (ih : TotalUpTo evalIdent n) (hAt : es.At q) (hNo : es.evalError = .noerr)
    (hn : 3 * (lexer.tokens q).length + 1 ≤ n) :
    Meets (term evalIdent (n + 1) es) (Parsed evalIdent .term q) (Halts evalIdent q) := by
  rw [Eval.term]
  refine (ih .factor q es hAt hNo hn).bind fun x hx => ?_
  obtain ⟨v, es₁⟩ := x
  dsimp only
  split
  · exact parsed_of_error ‹_›
  next hErr₁ =>
    have hErr₁ := not_not.mp hErr₁
    obtain ⟨f, ts, r, hSpells, hReads, hShort, -, hEnds, hEval⟩ := hx hErr₁
    refine meets_peek hEnds (.inl rfl) fun es₂ hs₂ hAt₂ hErr₂ hTok₂ => ?_
    dsimp only
    split
    next hTok =>
      have hx : lexer.Reads q (ts ++ [MulOp.mult.lexeme]) _ :=
        hReads.append (.one (next_of_sign hTok (by decide)))
      refine meets_get hAt₂ hTok₂ hTok (by decide) fun es₃ hAt₃ _ hErr₃ => ?_
      refine meets_operate (fMult_total v)
        (ih.after hx (by simp) .term hAt₃ (by rw [hErr₃, hErr₂, hErr₁]) (by omega))
        (fun _ => parsed_of_error) fun t us r' w u es hSpells' hReads' hShort' hStops'
          hEnds' hw hu _ => ?_
      refine ⟨.mul f .mult t, _, r', .mul hSpells hSpells', ?_, ?_,
        fun h => hStops' fun x hx => h x (by simp [hx]), hEnds', ?_⟩
      · simpa using hx.append hReads'
      · simp [hShort, hShort']
      · rw [Phrase.eval, hEval, hw]
        exact hu
    next hTok =>
      have hx : lexer.Reads q (ts ++ [MulOp.div.lexeme]) _ :=
        hReads.append (.one (next_of_sign hTok (by decide)))
      refine meets_get hAt₂ hTok₂ hTok (by decide) fun es₃ hAt₃ _ hErr₃ => ?_
      refine (ih.after hx (by simp) .term hAt₃ (by rw [hErr₃, hErr₂, hErr₁]) (by omega)).bind
        fun y hy => ?_
      obtain ⟨w, es₄⟩ := y
      dsimp only
      split
      · exact parsed_of_error ‹_›
      next hErr₄ =>
        have hErr₄ := not_not.mp hErr₄
        obtain ⟨t, us, r', hSpells', hReads', hShort', hStops', hEnds', hw⟩ := hy hErr₄
        split
        · exact parsed_of_error (by simp)
        next hZero =>
          cases hDiv : fDiv v w (fEqZero w es₄.evalError).2 with
          | error h => exact .inl (fDiv_error hDiv)
          | ok b =>
            intro hNo
            refine ⟨.mul f .div t, _, r', .mul hSpells hSpells', ?_, ?_,
              fun h => hStops' fun x hx => h x (by simp [hx]), hEnds'.of_error _, ?_⟩
            · simpa using hx.append hReads'
            · simp [hShort, hShort']
            · rw [hErr₄] at hZero hDiv
              have hApply : MulOp.apply .div v w = ofErr <$> fDiv v w (fEqZero w .noerr).2 :=
                if_neg hZero
              rw [Phrase.eval, hEval, hw]
              refine hApply.trans ?_
              rw [hDiv]
              exact congrArg Except.ok (ofErr_eq_some.mpr (Prod.ext rfl hNo))
    next hMult hDiv =>
      exact fun hNo => ⟨.single f, ts, r, .single hSpells, hReads, hShort,
        fun _ => closed_term hMult hDiv, hAt₂, hEval⟩

/-- What looking at a position passes over. -/
theorem reads_skip (r : List Char) :
    ∃ js : List Lexeme, (∀ x ∈ js, x.1 = .invalid) ∧ js.length ≤ 1 ∧ Short js ∧
      lexer.Reads r js (skip r) := by
  by_cases h : (scan r).1 = .invalid
  · obtain ⟨c, hc⟩ := scan_invalid h
    have hx := next_of_tok h (by decide)
    refine ⟨[(.invalid, (scan r).2.1)], by simp, by simp, by simp [hc, tokBufSize], ?_⟩
    rw [skip_of_next hx rfl]
    exact .one hx
  · exact ⟨[], by simp, by simp, by simp, by rw [skip_of_ne h]; exact .nil r⟩

theorem TotalUpTo.expr (ih : TotalUpTo evalIdent n) (hAt : es.At q) (hNo : es.evalError = .noerr)
    (hn : 3 * (lexer.tokens q).length + 2 ≤ n) :
    Meets (expr evalIdent (n + 1) es) (Parsed evalIdent .expr q) (Halts evalIdent q) := by
  rw [Eval.expr]
  refine (ih .term q es hAt hNo hn).bind fun x hx => ?_
  obtain ⟨v, es₁⟩ := x
  dsimp only
  split
  · exact parsed_of_error ‹_›
  next hErr₁ =>
    have hErr₁ := not_not.mp hErr₁
    obtain ⟨t, ts, r, hSpells, hReads, hShort, hStops, hEnds, hEval⟩ := hx hErr₁
    obtain ⟨js, hj, hl, hjs, hSkip⟩ := reads_skip r
    refine meets_peek hEnds (.inl rfl) fun es₂ hs₂ hAt₂ hErr₂ hTok₂ => ?_
    dsimp only
    split
    next hTok =>
      have hx : lexer.Reads q (ts ++ js ++ [AddOp.plus.lexeme]) _ :=
        (hReads.append hSkip).append (.one (next_of_sign hTok (by decide)))
      refine meets_get hAt₂ hTok₂ hTok (by decide) fun es₃ hAt₃ _ hErr₃ => ?_
      refine meets_operate (fAdd_total v)
        (ih.after hx (by simp) .expr hAt₃ (by rw [hErr₃, hErr₂, hErr₁]) (by omega))
        (fun _ => parsed_of_error) fun e us r' w u es hSpells' hReads' hShort' hStops'
          hEnds' hw hu _ => ?_
      refine ⟨.add t .plus e, _, r', .add hSpells hj hl hSpells', ?_, ?_,
        fun h => hStops' fun x hx => h x (by simp [hx]), hEnds', ?_⟩
      · simpa using hx.append hReads'
      · simp [hShort, hShort', hjs]
      · rw [Phrase.eval, hEval, hw]
        exact hu
    next hTok =>
      have hx : lexer.Reads q (ts ++ js ++ [AddOp.minus.lexeme]) _ :=
        (hReads.append hSkip).append (.one (next_of_sign hTok (by decide)))
      refine meets_get hAt₂ hTok₂ hTok (by decide) fun es₃ hAt₃ _ hErr₃ => ?_
      refine meets_operate (fSub_total v)
        (ih.after hx (by simp) .expr hAt₃ (by rw [hErr₃, hErr₂, hErr₁]) (by omega))
        (fun _ => parsed_of_error) fun e us r' w u es hSpells' hReads' hShort' hStops'
          hEnds' hw hu _ => ?_
      refine ⟨.add t .minus e, _, r', .add hSpells hj hl hSpells', ?_, ?_,
        fun h => hStops' fun x hx => h x (by simp [hx]), hEnds', ?_⟩
      · simpa using hx.append hReads'
      · simp [hShort, hShort', hjs]
      · rw [Phrase.eval, hEval, hw]
        exact hu
    next hPlus hMinus =>
      -- the second character of no token is passed over by this look
      obtain ⟨js', hj', hl', hjs', hSkip'⟩ := reads_skip (skip r)
      refine fun _ => ⟨.sum t, ts ++ (js ++ js'), skip (skip r), .sum hSpells ?_ ?_,
        hReads.append (hSkip.append hSkip'), by simp [hShort, hjs, hjs'], fun hValid => ?_, hAt₂,
        hEval⟩
      · intro x hx
        exact (List.mem_append.mp hx).elim (hj x) (hj' x)
      · rw [List.length_append]
        omega
      · have hNone : ∀ x ∈ js ++ js', False := fun x hx =>
          hValid x (by simp [List.mem_append.mp hx]) ((List.mem_append.mp hx).elim (hj x) (hj' x))
        obtain ⟨rfl, rfl⟩ := List.append_eq_nil_iff.mp
          (List.eq_nil_iff_forall_not_mem.mpr hNone)
        have hr : skip r = r := (reads_nil.mp hSkip).symm
        rw [hr] at hPlus hMinus ⊢
        rw [hr]
        exact closed_expr (hStops fun x hx => hValid x (by simp [hx])) hPlus hMinus

end Total

/-- **Soundness.**  An evaluation without error has read a phrase; the depth of the calls is
enough; and only undefined behaviour or an identifier can keep it from ending. -/
theorem parse_total (evalIdent : EvalIdent N) (n : ℕ) : TotalUpTo evalIdent n := by
  induction n with
  | zero =>
    intro l q es _ _ hn
    cases l <;> simp [Level.Room] at hn
  | succ n ih =>
    intro l q es hAt hNo hn
    cases l <;> simp only [Level.Room] at hn
    · exact ih.factor hAt hNo (by omega)
    · exact ih.term hAt hNo (by omega)
    · exact ih.expr hAt hNo (by omega)

/-! ## Whole strings -/

theorem State.At.init (s : List Char) :
    State.At { p := s, lastp := [], tokBuf := [], peekTok := .invalid, evalError := .noerr } s :=
  .inl ⟨rfl, rfl⟩

/-- `eval_expr` that ends without error has read a phrase, up to the end it reports. -/
theorem evalExpr_meets (evalIdent : EvalIdent N) (s : List Char) :
    Meets (evalExpr evalIdent s)
      (fun x => x.evalError = .noerr → ∃ (e : Phrase .expr) (ts : List Lexeme), Spells e ts ∧
        lexer.Reads s ts x.endp ∧ Short ts ∧ Level.Stops .expr ts x.endp ∧
          e.eval evalIdent = .ok (some x.val))
      (Halts evalIdent s) := by
  have hLen := length_tokens_le (S := lexer) s
  refine (parse_total evalIdent (3 * s.length + 3) .expr s _ (.init s) rfl
    (by simp only [Level.Room]; omega)).bind fun x hx hNo => ?_
  obtain ⟨e, ts, r, hSpells, hReads, hShort, hStops, hEnds, hEval⟩ := hx hNo
  rw [State.At.endp hEnds]
  exact ⟨e, ts, hSpells, hReads, hShort, hStops, hEval⟩

/-- What `eval_expr` reports for a phrase with the outcome `o`, when `r` is left. -/
def Reported (r : List Char) (x : Evaluation N) : Option (Value N) → Prop
  | some v => x.val = v ∧ x.endp = r ∧ x.evalError = .noerr
  | none => x.evalError ≠ .noerr

/-- `eval_expr` of a string that is a phrase and blanks. -/
theorem evalExpr_of_spells
    (h : Spells e ts) {s r : List Char} (hReads : lexer.Reads s ts r) (hs : Short ts)
    (hr : lexer.tokens r = []) :
    Agree (Reported r) Eq (evalExpr evalIdent s) (e.eval evalIdent) := by
  have hEof : scan r = (.eof, [], []) := by
    rcases scan_cases r with ⟨h, -⟩ | ⟨h, -⟩
    · exact h
    · exact absurd (next_eq_none.mp (tokens_eq_nil_iff.mp hr)) h
  have hDeep : Level.Deep .expr ts.length (3 * s.length + 3) := by
    have := length_tokens_le (S := lexer) s
    rw [hReads.tokens_eq, hr, List.append_nil] at this
    simp only [Level.Deep]
    omega
  have hParse : Evaluates .expr r (parse evalIdent .expr _ _) (e.eval evalIdent) :=
    parse_of_spells h hReads hs (.inl (by rw [hEof])) (by rw [hEof]; decide) hDeep (.init s) rfl
  refine hParse.map_left fun x o hxo => ?_
  cases o with
  | none => exact hxo
  | some v => exact ⟨hxo.1, State.At.endp hxo.2.2, hxo.2.1⟩

end SimpleScalar.Eval

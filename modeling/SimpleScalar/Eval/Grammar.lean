import SimpleScalar.Eval.Basic
import Mathlib.Data.List.TakeWhile

/-!
# The grammar of expressions

The phrases of the grammar `expr`, `term` and `factor` follow, what a phrase evaluates to
(`Phrase.eval`: the operators of a chain group to the right), and the token streams the
evaluator takes for it.

* `Phrase.tokens`: the tokens of the phrase itself.
* `Spells`: the same, with up to two characters that belong to no token after each term.
  The look-ahead slot cannot hold such a character, so it is passed over when it is looked
  at: once by `term`, once more by `expr`.
-/

namespace SimpleScalar.Eval

open List Scanner

variable {N : Numerics}

/-! ## Characters -/

variable {c : Char}

theorem tokMap_eq_whitespace (h : tokMap c = .whitespace) : c = ' ' ∨ c = '\t' := by
  unfold tokMap at h
  repeat' split at h
  all_goals first | assumption | cases h

theorem identChar_not_blank (h : identChar c = true) : tokMap c ≠ .whitespace := by
  intro hc
  simp [identChar, hc] at h

theorem constChar_not_blank {l c : Char} {a : Bool} (h : constChar l a c = true) :
    tokMap c ≠ .whitespace := by
  intro hc
  rcases tokMap_eq_whitespace hc with rfl | rfl <;> simp [constChar, hc] at h

/-! ## The text of a token -/

theorem constLoop_append (l : Char) (a : Bool) (p : List Char) :
    (constLoop l a p).1 ++ (constLoop l a p).2 = p := by
  induction p generalizing l a with
  | nil => rfl
  | cons c p ih =>
    unfold constLoop
    split
    · simp [ih]
    · rfl

theorem constLoop_not_blank (l : Char) (a : Bool) (p : List Char) :
    ∀ c ∈ (constLoop l a p).1, tokMap c ≠ .whitespace := by
  induction p generalizing l a with
  | nil => simp [constLoop]
  | cons c p ih =>
    unfold constLoop
    split
    next h =>
      intro d hd
      rcases mem_cons.mp hd with rfl | hd
      · exact constChar_not_blank h
      · exact ih _ _ d hd
    next => simp

/-- The text of a token that is a single character. -/
def Tok.sign : Tok → List Char
  | .plus => ['+']
  | .minus => ['-']
  | .mult => ['*']
  | .div => ['/']
  | .oparen => ['(']
  | .cparen => [')']
  | _ => []

theorem sign_tokMap (h : (tokMap c).sign ≠ []) : (tokMap c).sign = [c] := by
  revert h
  unfold tokMap
  repeat' split
  all_goals first | (subst_vars; decide) | (intro h; exact absurd rfl h)

variable {tok : Tok}

theorem scan_sign {p text r : List Char} (h : scan p = (tok, text, r))
    (ht : tok.sign ≠ []) : text = tok.sign := by
  unfold scan at h
  split at h
  · cases h
    exact absurd rfl ht
  · split at h
    all_goals
      cases h
      first
        | exact absurd rfl ht
        | (have hc := ‹tokMap _ = _›
           rw [← hc] at ht ⊢
           exact (sign_tokMap ht).symm)

variable {p : List Char}

/-- A character of no token is passed on alone. -/
theorem scan_invalid (h : (scan p).1 = .invalid) :
    ∃ c, (scan p).2.1 = [c] := by
  revert h
  unfold scan
  split
  · simp
  · split <;> simp

/-- The input is blanks, the text of the token, and the rest. -/
structure Cut (p text r : List Char) : Prop where
  text_ne_nil : text ≠ []
  not_blank : ∀ c ∈ text, tokMap c ≠ .whitespace
  append : ∃ ws, p = ws ++ (text ++ r)

theorem Cut.of_head {p p' t r : List Char} {ws : List Char} (hp : p = ws ++ c :: p')
    (hc : tokMap c ≠ .whitespace) (ht : ∀ d ∈ t, tokMap d ≠ .whitespace) (h : t ++ r = p') :
    Cut p (c :: t) r := by
  refine ⟨by simp, ?_, ws, by simp [hp, h]⟩
  intro d hd
  rcases mem_cons.mp hd with rfl | hd
  · exact hc
  · exact ht d hd

theorem scan_cases (p : List Char) :
    (scan p = (.eof, [], []) ∧ ∀ c ∈ p, tokMap c = .whitespace) ∨
      ((scan p).1 ≠ .eof ∧ Cut p (scan p).2.1 (scan p).2.2) := by
  have hSplit := takeWhile_append_dropWhile (p := (tokMap · = .whitespace)) (l := p)
  cases hd : p.dropWhile (tokMap · = .whitespace) with
  | nil =>
    refine .inl ⟨by simp [scan, hd], fun c hc => ?_⟩
    rw [hd, append_nil] at hSplit
    rw [← hSplit] at hc
    simpa using mem_takeWhile_imp hc
  | cons c p' =>
    rw [hd] at hSplit
    have hc : tokMap c ≠ .whitespace := by
      have := head_dropWhile_not (tokMap · = .whitespace) (l := p) (by simp [hd])
      simpa [hd] using this
    right
    have hCut := fun {t r} => Cut.of_head (t := t) (r := r) hSplit.symm hc
    unfold scan
    rw [hd]
    dsimp only
    split
    · exact ⟨by simp, hCut (fun d hd => identChar_not_blank (mem_takeWhile_imp hd))
        (takeWhile_append_dropWhile ..)⟩
    · exact ⟨by simp, hCut (constLoop_not_blank _ _ _) (constLoop_append _ _ _)⟩
    all_goals exact ⟨by simp, hCut (by simp) rfl⟩

/-! ## Token streams -/

/-- A token with its text. -/
abbrev Lexeme := Tok × List Char

def next (p : List Char) : Option (Lexeme × List Char) :=
  match scan p with
  | (tok, text, r) => if tok = .eof then none else some ((tok, text), r)

variable {x : Lexeme}

variable {p r : List Char}

theorem next_eq_some :
    next p = some (x, r) ↔ scan p = (x.1, x.2, r) ∧ x.1 ≠ .eof := by
  obtain ⟨tok, text⟩ := x
  unfold next
  generalize scan p = y
  obtain ⟨tok', text', r'⟩ := y
  by_cases h : tok' = .eof
  · subst h
    simp
    grind
  · simp [h]
    grind

theorem next_eq_none : next p = none ↔ (scan p).1 = .eof := by
  simp [next]

/-- `get_next_token`, called until the end of the string. -/
def lexer : Scanner Char Lexeme where
  next := next
  consumes := by
    intro s x r h
    obtain ⟨hs, hx⟩ := next_eq_some.mp h
    rcases scan_cases s with ⟨he, -⟩ | ⟨-, hCut⟩
    · rw [hs] at he
      exact absurd (congrArg Prod.fst he) hx
    · rw [hs] at hCut
      obtain ⟨ws, rfl⟩ := hCut.append
      exact ⟨ws ++ x.2, by simp [hCut.text_ne_nil], by simp⟩

theorem tok_of_next (h : lexer.next p = some (x, r)) :
    (scan p).1 = x.1 := by
  rw [(next_eq_some.mp h).1]

theorem text_of_next (h : lexer.next p = some (x, r)) :
    (scan p).2.1 = x.2 := by
  rw [(next_eq_some.mp h).1]

theorem next_of_tok (h : (scan p).1 = tok) (ht : tok ≠ .eof) :
    lexer.next p = some ((tok, (scan p).2.1), (scan p).2.2) :=
  next_eq_some.mpr ⟨by rw [← h], ht⟩

theorem next_of_sign (h : (scan p).1 = tok) (ht : tok.sign ≠ []) :
    lexer.next p = some ((tok, tok.sign), (scan p).2.2) := by
  have hEof : tok ≠ .eof := by
    rintro rfl
    exact ht rfl
  have hText : (scan p).2.1 = tok.sign := scan_sign (by rw [← h]) ht
  rw [← hText]
  exact next_of_tok h hEof

/-- Every token fits into `tok_buf`. -/
def Short (ts : List Lexeme) : Prop := ∀ x ∈ ts, x.2.length < tokBufSize

instance (ts : List Lexeme) : Decidable (Short ts) :=
  inferInstanceAs (Decidable (∀ x ∈ ts, x.2.length < tokBufSize))

@[simp] theorem short_nil : Short [] := by simp [Short]

variable {ts : List Lexeme}

@[simp] theorem short_cons :
    Short (x :: ts) ↔ x.2.length < tokBufSize ∧ Short ts := by simp [Short]

@[simp] theorem short_append {ts us : List Lexeme} :
    Short (ts ++ us) ↔ Short ts ∧ Short us := forall_mem_append

/-! ## Phrases -/

inductive AddOp where
  | plus | minus
  deriving DecidableEq, Repr

inductive MulOp where
  | mult | div
  deriving DecidableEq, Repr

def AddOp.lexeme : AddOp → Lexeme
  | .plus => (.plus, ['+'])
  | .minus => (.minus, ['-'])

def MulOp.lexeme : MulOp → Lexeme
  | .mult => (.mult, ['*'])
  | .div => (.div, ['/'])

@[simp] theorem AddOp.length_lexeme (op : AddOp) : op.lexeme.2.length < tokBufSize := by
  cases op <;> decide

@[simp] theorem MulOp.length_lexeme (op : MulOp) : op.lexeme.2.length < tokBufSize := by
  cases op <;> decide

inductive Level where
  | factor | term | expr
  deriving DecidableEq, Repr

/-- The phrases of each level.  A chain of operators is a list of operands, the first of
them outermost. -/
inductive Phrase : Level → Type
  | const (text : List Char) : Phrase .factor
  | ident (text : List Char) : Phrase .factor
  | neg (f : Phrase .factor) : Phrase .factor
  | paren (e : Phrase .expr) : Phrase .factor
  | single (f : Phrase .factor) : Phrase .term
  | mul (f : Phrase .factor) (op : MulOp) (t : Phrase .term) : Phrase .term
  | sum (t : Phrase .term) : Phrase .expr
  | add (t : Phrase .term) (op : AddOp) (e : Phrase .expr) : Phrase .expr
  deriving DecidableEq, Repr

variable {l : Level}

def Phrase.tokens {l : Level} : Phrase l → List Lexeme
  | .const text => [(.const, text)]
  | .ident text => [(.ident, text)]
  | .neg f => (.minus, ['-']) :: f.tokens
  | .paren e => (.oparen, ['(']) :: (e.tokens ++ [(.cparen, [')'])])
  | .single f => f.tokens
  | .mul f op t => f.tokens ++ op.lexeme :: t.tokens
  | .sum t => t.tokens
  | .add t op e => t.tokens ++ op.lexeme :: e.tokens

/-- The streams the evaluator takes for a phrase. -/
inductive Spells : {l : Level} → Phrase l → List Lexeme → Prop
  | const (text : List Char) : Spells (.const text) [(.const, text)]
  | ident (text : List Char) : Spells (.ident text) [(.ident, text)]
  | neg {f : Phrase .factor} {ts : List Lexeme} :
      Spells f ts → Spells (.neg f) ((.minus, ['-']) :: ts)
  | paren {e : Phrase .expr} {ts : List Lexeme} :
      Spells e ts → Spells (.paren e) ((.oparen, ['(']) :: (ts ++ [(.cparen, [')'])]))
  | single {f : Phrase .factor} {ts : List Lexeme} : Spells f ts → Spells (.single f) ts
  | mul {f : Phrase .factor} {op : MulOp} {t : Phrase .term} {ts us : List Lexeme} :
      Spells f ts → Spells t us → Spells (.mul f op t) (ts ++ op.lexeme :: us)
  | sum {t : Phrase .term} {ts js : List Lexeme} : Spells t ts →
      (∀ x ∈ js, x.1 = .invalid) → js.length ≤ 2 → Spells (.sum t) (ts ++ js)
  | add {t : Phrase .term} {op : AddOp} {e : Phrase .expr} {ts js us : List Lexeme} :
      Spells t ts → (∀ x ∈ js, x.1 = .invalid) → js.length ≤ 1 → Spells e us →
        Spells (.add t op e) (ts ++ (js ++ op.lexeme :: us))

theorem Phrase.spells_tokens {l : Level} (e : Phrase l) : Spells e e.tokens := by
  induction e with
  | const text => exact .const text
  | ident text => exact .ident text
  | neg f ih => exact .neg ih
  | paren e ih => exact .paren ih
  | single f ih => exact .single ih
  | mul f op t ihf iht => exact .mul ihf iht
  | sum t ih =>
    have h := @Spells.sum t t.tokens [] ih (by simp) (by simp)
    rwa [append_nil] at h
  | add t op e iht ihe =>
    exact @Spells.add t op e t.tokens [] e.tokens iht (by simp) (by simp) ihe

/-- Without characters of no token, the stream is that of the phrase. -/
theorem Spells.eq_tokens {e : Phrase l} (h : Spells e ts)
    (hts : ∀ x ∈ ts, x.1 ≠ .invalid) : ts = e.tokens := by
  have no_junk : ∀ {js : List Lexeme}, (∀ x ∈ js, x.1 = .invalid) →
      (∀ x ∈ js, x.1 ≠ .invalid) → js = [] := by
    intro js hj hn
    exact eq_nil_iff_forall_not_mem.mpr fun x hx => hn x hx (hj x hx)
  induction h with
  | const text => rfl
  | ident text => rfl
  | neg _ ih => rw [ih (fun x hx => hts x (by simp [hx])), Phrase.tokens]
  | paren _ ih => rw [ih (fun x hx => hts x (by simp [hx])), Phrase.tokens]
  | single _ ih => exact ih hts
  | mul _ _ ihf iht =>
    rw [ihf (fun x hx => hts x (by simp [hx])), iht (fun x hx => hts x (by simp [hx])),
      Phrase.tokens]
  | sum _ hj _ ih =>
    obtain rfl := no_junk hj (fun x hx => hts x (by simp [hx]))
    rw [append_nil, ih (fun x hx => hts x (by simp [hx])), Phrase.tokens]
  | add _ hj _ _ iht ihe =>
    obtain rfl := no_junk hj (fun x hx => hts x (by simp [hx]))
    rw [iht (fun x hx => hts x (by simp [hx])), ihe (fun x hx => hts x (by simp [hx])),
      Phrase.tokens, nil_append]

theorem Phrase.tokens_valid {l : Level} (e : Phrase l) : ∀ x ∈ e.tokens, x.1 ≠ .invalid := by
  induction e with
  | const text => simp [tokens]
  | ident text => simp [tokens]
  | neg f ih => simpa [tokens] using ih
  | paren e ih =>
    intro x hx
    simp only [tokens, mem_cons, mem_append, not_mem_nil, or_false] at hx
    rcases hx with rfl | hx | rfl
    · decide
    · exact ih x hx
    · decide
  | single f ih => exact ih
  | mul f op t ihf iht =>
    intro x hx
    simp only [tokens, mem_cons, mem_append] at hx
    rcases hx with hx | rfl | hx
    · exact ihf x hx
    · cases op <;> decide
    · exact iht x hx
  | sum t ih => exact ih
  | add t op e iht ihe =>
    intro x hx
    simp only [tokens, mem_cons, mem_append] at hx
    rcases hx with hx | rfl | hx
    · exact iht x hx
    · cases op <;> decide
    · exact ihe x hx

theorem Spells.length_pos {e : Phrase l} (h : Spells e ts) :
    0 < ts.length := by
  induction h with
  | single _ ih => exact ih
  | sum _ _ _ ih => rw [length_append]; omega
  | mul _ _ ih => rw [length_append]; omega
  | add _ _ _ _ ih => rw [length_append]; omega
  | _ => simp

/-! ### A stream has at most one reading -/

/-- No operator follows that the phrase could go on with. -/
def Level.Closed : Level → List Lexeme → Prop
  | .factor, _ => True
  | .term, us => ∀ x ∈ us.head?, x.1 ≠ .mult ∧ x.1 ≠ .div
  | .expr, us => ∀ x ∈ us.head?, x.1 ≠ .mult ∧ x.1 ≠ .div ∧ x.1 ≠ .plus ∧ x.1 ≠ .minus

theorem AddOp.lexeme_inj {op op' : AddOp} (h : op.lexeme = op'.lexeme) : op = op' := by
  cases op <;> cases op' <;> first | rfl | exact absurd h (by decide)

theorem MulOp.lexeme_inj {op op' : MulOp} (h : op.lexeme = op'.lexeme) : op = op' := by
  cases op <;> cases op' <;> first | rfl | exact absurd h (by decide)

theorem Level.Closed.term_of_expr {us : List Lexeme} (h : Level.Closed .expr us) :
    Level.Closed .term us := fun x hx => ⟨(h x hx).1, (h x hx).2.1⟩

theorem closed_add (op : AddOp) (us : List Lexeme) : Level.Closed .term (op.lexeme :: us) := by
  cases op <;> simp [Level.Closed, AddOp.lexeme]

theorem Phrase.tokens_unique {e e' : Phrase l} {us us' : List Lexeme}
    (h : e.tokens ++ us = e'.tokens ++ us') (hus : l.Closed us) (hus' : l.Closed us') :
    e = e' ∧ us = us' := by
  induction e generalizing us us' with
  | const text =>
    cases e' <;> simp [Phrase.tokens] at h
    exact ⟨by rw [h.1], h.2⟩
  | ident text =>
    cases e' <;> simp [Phrase.tokens] at h
    exact ⟨by rw [h.1], h.2⟩
  | neg f ih =>
    cases e' <;> simp [Phrase.tokens] at h
    obtain ⟨rfl, hus⟩ := ih h trivial trivial
    exact ⟨rfl, hus⟩
  | paren e ih =>
    cases e' <;> simp [Phrase.tokens] at h
    obtain ⟨rfl, hus⟩ := ih h (by simp [Level.Closed]) (by simp [Level.Closed])
    exact ⟨rfl, (cons_injective hus)⟩
  | single f ih =>
    cases e' with
    | single f' =>
      obtain ⟨rfl, hus⟩ := ih h trivial trivial
      exact ⟨rfl, hus⟩
    | mul f' op t' =>
      rw [Phrase.tokens, Phrase.tokens, append_assoc] at h
      obtain ⟨rfl, rfl⟩ := ih h trivial trivial
      cases op <;> simp [Level.Closed, MulOp.lexeme] at hus
  | mul f op t ihf iht =>
    cases e' with
    | single f' =>
      rw [Phrase.tokens, Phrase.tokens, append_assoc] at h
      obtain ⟨rfl, rfl⟩ := ihf h trivial trivial
      cases op <;> simp [Level.Closed, MulOp.lexeme] at hus'
    | mul f' op' t' =>
      rw [Phrase.tokens, Phrase.tokens, append_assoc, append_assoc] at h
      obtain ⟨rfl, hRest⟩ := ihf h trivial trivial
      obtain ⟨hop, hTail⟩ := cons_eq_cons.mp hRest
      obtain rfl := MulOp.lexeme_inj hop
      obtain ⟨rfl, hus⟩ := iht hTail hus hus'
      exact ⟨rfl, hus⟩
  | sum t ih =>
    cases e' with
    | sum t' =>
      obtain ⟨rfl, hus⟩ := ih h hus.term_of_expr hus'.term_of_expr
      exact ⟨rfl, hus⟩
    | add t' op e' =>
      rw [Phrase.tokens, Phrase.tokens, append_assoc] at h
      obtain ⟨rfl, rfl⟩ := ih h hus.term_of_expr (closed_add op _)
      cases op <;> simp [Level.Closed, AddOp.lexeme] at hus
  | add t op e iht ihe =>
    cases e' with
    | sum t' =>
      rw [Phrase.tokens, Phrase.tokens, append_assoc] at h
      obtain ⟨rfl, rfl⟩ := iht h (closed_add op _) hus'.term_of_expr
      cases op <;> simp [Level.Closed, AddOp.lexeme] at hus'
    | add t' op' e' =>
      rw [Phrase.tokens, Phrase.tokens, append_assoc, append_assoc] at h
      obtain ⟨rfl, hRest⟩ := iht h (closed_add op _) (closed_add op' _)
      obtain ⟨hop, hTail⟩ := cons_eq_cons.mp hRest
      obtain rfl := AddOp.lexeme_inj hop
      obtain ⟨rfl, hus⟩ := ihe hTail hus hus'
      exact ⟨rfl, hus⟩

/-! ## What a phrase evaluates to -/

/-- A value together with `eval_error`, read as a value or an error. -/
def ofErr (x : Value N × Err) : Option (Value N) := if x.2 = .noerr then some x.1 else none

/-- Goes on with the value, unless there is none. -/
def andThen {α β : Type} (x : Run (Option α)) (k : α → Run (Option β)) : Run (Option β) := do
  match ← x with
  | some a => k a
  | none => return none

def AddOp.apply (op : AddOp) (v w : Value N) : Run (Option (Value N)) :=
  match op with
  | .plus => ofErr <$> fAdd v w .noerr
  | .minus => ofErr <$> fSub v w .noerr

def MulOp.apply (op : MulOp) (v w : Value N) : Run (Option (Value N)) :=
  match op with
  | .mult => ofErr <$> fMult v w .noerr
  | .div =>
    match fEqZero w .noerr with
    | (isZero, err) => if isZero then return none else ofErr <$> fDiv v w err

/-- The value of a phrase, `none` on an error.  The operators of a chain group to the
right. -/
def Phrase.eval (evalIdent : EvalIdent N) {l : Level} : Phrase l → Run (Option (Value N))
  | .const text => return ofErr (constant text)
  | .ident text => ofErr <$> evalIdent text
  | .neg f => andThen (f.eval evalIdent) fun v => return ofErr (fNeg v .noerr)
  | .paren e => e.eval evalIdent
  | .single f => f.eval evalIdent
  | .mul f op t => andThen (f.eval evalIdent) fun v => andThen (t.eval evalIdent) (op.apply v)
  | .sum t => t.eval evalIdent
  | .add t op e => andThen (t.eval evalIdent) fun v => andThen (e.eval evalIdent) (op.apply v)

end SimpleScalar.Eval

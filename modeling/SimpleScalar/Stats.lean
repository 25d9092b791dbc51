import SimpleScalar.Eval.Identifiers

/-!
# Formula statistics

`stat_eval_ident` gives the value of a statistic to the expression evaluator.  For a formula
it evaluates the text of the formula, with an evaluator of its own and the same global error
variable.  The depth of that recursion is a parameter of the model.

A formula should be evaluated in finite time, and to a value only if every formula it
reaches is read to its end and has a value.

* `terminates_iff`: the evaluation ends if and only if there is no endless chain of formulas
  that ask for one another.
* `Valid.refers`: an error of a formula is passed on to those that ask for it.  A formula
  that is not read to its end has no error to pass on (`Cut`), and counts as zero.
-/

namespace SimpleScalar.Stats

open Eval Scanner Outcome

variable {N : Numerics}

/-- A statistic by its class (`enum stat_class_t`), with the value it has. -/
inductive Variant (N : Numerics) where
  | int (var : Word)
  | uint (var : Word)
  | llong (var : BitVec 64)
  | float (var : N.F)
  | double (var : N.D)
  | dist
  | sdist
  | formula (formula : List Char)

/-- `struct stat_stat_t`, without what is only printed. -/
structure Stat (N : Numerics) where
  name : List Char
  variant : Variant N

/-- The statistics of a database, in the order of its list. -/
abbrev Sdb (N : Numerics) := List (Stat N)

def statEvalIdent (sdb : Sdb N) : ℕ → EvalIdent N
  | 0, _ => .error .depth
  | n + 1, tokBuf =>
    match sdb.find? (·.name = tokBuf) with
    | none => .ok (errValue, .undefvar)
    | some stat =>
      match stat.variant with
      | .int var => .ok (.int var, .noerr)
      | .uint var => .ok (.uint var, .noerr)
      | .llong var => .ok (.double (N.dOfLlong var), .noerr)
      | .float var => .ok (.float var, .noerr)
      | .double var => .ok (.double var, .noerr)
      | .dist =>
        .error (.stop (.fatal "stat distributions not allowed in formula expressions"))
      | .sdist =>
        .error (.stop (.fatal "stat distributions not allowed in formula expressions"))
      | .formula formula => do
        let x ← evalExpr (statEvalIdent sdb n) formula
        if x.evalError ≠ .noerr ∨ x.endp ≠ [] then return (errValue, x.evalError)
        else return (x.val, x.evalError)

/-- The evaluation of a formula, with formulas nested at most `n` deep. -/
def evalFormula (sdb : Sdb N) (n : ℕ) (formula : List Char) : Run (Evaluation N) :=
  evalExpr (statEvalIdent sdb n) formula

/-- `eval_err_str` -/
def evalErrStr : Err → String
  | .noerr => "!! no error!!"
  | .uparen => "unmatched parenthesis"
  | .noterm => "expression term is missing"
  | .div0 => "divide by zero"
  | .badconst => "badly formed constant"
  | .badexpr => "badly formed expression"
  | .undefvar => "variable is undefined"
  | .extra => "extra characters at end of expression"

/-- What `stat_print_stat` prints for a formula between its name and its description. -/
inductive Printed (N : Numerics) where
  | error (msg : String)
  | value (v : N.D)

def statPrintFormula (sdb : Sdb N) (n : ℕ) (formula : List Char) : Run (Printed N) := do
  let x ← evalFormula sdb n formula
  if x.evalError ≠ .noerr ∨ x.endp ≠ [] then return .error (evalErrStr x.evalError)
  else return .value (← evalAsDouble x.val)

/-! ## Formulas that refer to formulas -/

/-- The text of the formula an identifier names. -/
def formulaOf (sdb : Sdb N) (text : List Char) : Option (List Char) :=
  match sdb.find? (·.name = text) with
  | some stat =>
    match stat.variant with
    | .formula formula => some formula
    | _ => none
  | none => none

/-- `g` is named in the text `f`. -/
def Refers (sdb : Sdb N) (f g : List Char) : Prop :=
  ∃ text, (.ident, text) ∈ lexer.tokens f ∧ formulaOf sdb text = some g

/-- The evaluation of `f` asks for the value of `g`: whatever that one stops for, the
evaluation of `f` stops for it. -/
def Asks (sdb : Sdb N) (f g : List Char) : Prop :=
  ∃ text, formulaOf sdb text = some g ∧ ∃ n, ∀ h,
    evalExpr (Function.update (statEvalIdent sdb n) text (.error h)) f = .error h

def Terminates (sdb : Sdb N) (f : List Char) : Prop := ∃ n, evalFormula sdb n f ≠ .error .depth

/-- The formula is evaluated without error and read to its end. -/
def Valid (sdb : Sdb N) (f : List Char) : Prop :=
  ∃ n x, evalFormula sdb n f = .ok x ∧ x.evalError = .noerr ∧ x.endp = []

/-- The formula is evaluated without error, and something is left of it. -/
def Cut (sdb : Sdb N) (f : List Char) : Prop :=
  ∃ n x, evalFormula sdb n f = .ok x ∧ x.evalError = .noerr ∧ x.endp ≠ []

variable {sdb : Sdb N} {f : List Char}

variable {n : ℕ}

/-- A formula that is printed as a number is valid. -/
theorem valid_of_printed {v : N.D}
    (h : statPrintFormula sdb n f = .ok (.value v)) : Valid sdb f := by
  obtain ⟨x, hx, h⟩ := bind_eq_ok.mp h
  split at h
  · cases h
  next hGood =>
    obtain ⟨hErr, hEnd⟩ := not_or.mp hGood
    exact ⟨n, x, hx, not_not.mp hErr, not_not.mp hEnd⟩

/-! ## The depth of the recursion -/

theorem statEvalIdent_formula {text g : List Char} (h : formulaOf sdb text = some g)
    (n : ℕ) :
    statEvalIdent sdb (n + 1) text = (do
      let x ← evalFormula sdb n g
      if x.evalError ≠ .noerr ∨ x.endp ≠ [] then return (errValue, x.evalError)
      else return (x.val, x.evalError)) := by
  unfold formulaOf at h
  rw [statEvalIdent]
  split at h
  next stat hFind =>
    rw [hFind]
    split at h
    next formula hVariant =>
      cases h
      simp only [hVariant]
      rfl
    · cases h
  · cases h

variable {text : List Char}

/-- Any other identifier is evaluated at once. -/
theorem statEvalIdent_plain (h : formulaOf sdb text = none) :
    ∃ r, (∀ n, statEvalIdent sdb (n + 1) text = r) ∧ ∀ e, r = .error e →
      e = .stop (.fatal "stat distributions not allowed in formula expressions") := by
  unfold formulaOf at h
  cases hFind : sdb.find? (·.name = text) with
  | none =>
    exact ⟨statEvalIdent sdb 1 text, fun n => by simp [statEvalIdent, hFind],
      by simp [statEvalIdent, hFind]⟩
  | some stat =>
    rw [hFind] at h
    refine ⟨statEvalIdent sdb 1 text, fun n => ?_, fun e he => ?_⟩
    · cases hVariant : stat.variant with
      | formula f => simp [hVariant] at h
      | _ => simp [statEvalIdent, hFind, hVariant]
    · cases hVariant : stat.variant with
      | formula f => simp [hVariant] at h
      | dist =>
        simp only [statEvalIdent, hFind, hVariant] at he
        exact (Except.error.inj he).symm
      | sdist =>
        simp only [statEvalIdent, hFind, hVariant] at he
        exact (Except.error.inj he).symm
      | _ => simp [statEvalIdent, hFind, hVariant] at he

theorem statEvalIdent_mono (sdb : Sdb N) {n m : ℕ} (hnm : n ≤ m) (text : List Char) :
    GivesUp (· = .depth) Eq (statEvalIdent sdb n text) (statEvalIdent sdb m text) := by
  induction n generalizing m text with
  | zero => exact .inl rfl
  | succ n ih =>
    obtain ⟨m, rfl⟩ : ∃ k, m = k + 1 := ⟨m - 1, by omega⟩
    cases h : formulaOf sdb text with
    | none =>
      obtain ⟨r, hr, -⟩ := statEvalIdent_plain h
      rw [hr, hr]
      exact GivesUp.refl (fun _ => rfl) _
    | some g =>
      rw [statEvalIdent_formula h, statEvalIdent_formula h]
      refine GivesUp.bind ?_ fun _ => GivesUp.refl (fun _ => rfl) _
      exact evalExpr_givesUp (fun _ => rfl) (fun t => ih (by omega) t) g

theorem evalFormula_mono {n m : ℕ} (hnm : n ≤ m)
    (h : evalFormula sdb n f ≠ .error .depth) : evalFormula sdb m f = evalFormula sdb n f :=
  (evalExpr_givesUp (fun _ => rfl) (fun t => statEvalIdent_mono sdb hnm t) f).eq_of_not
    fun _ he hDepth => h (hDepth ▸ he)

variable {h : Halt}

/-- The evaluation of an identifier stops for want of depth, at a distribution, or in
undefined behaviour. -/
theorem statEvalIdent_error (he : statEvalIdent sdb n text = .error h) :
    h = .depth ∨ h = .stop .undefined ∨
      h = .stop (.fatal "stat distributions not allowed in formula expressions") := by
  induction n generalizing text with
  | zero => exact .inl (Except.error.inj he).symm
  | succ n ih =>
    cases hFormula : formulaOf sdb text with
    | some g =>
      rw [statEvalIdent_formula hFormula] at he
      cases hEval : evalFormula sdb n g with
      | error h' =>
        rw [hEval] at he
        obtain rfl : h' = h := Except.error.inj he
        rcases (evalExpr_meets _ g).of_error hEval with rfl | ⟨t, -, ht⟩
        · exact .inr (.inl rfl)
        · exact ih ht
      | ok x =>
        rw [hEval, ok_bind] at he
        split at he <;> cases he
    | none =>
      obtain ⟨r, hr, hFatal⟩ := statEvalIdent_plain hFormula
      exact .inr (.inr (hFatal h ((hr n).symm.trans he)))

theorem evalFormula_error (he : evalFormula sdb n f = .error h) :
    h = .depth ∨ h = .stop .undefined ∨
      h = .stop (.fatal "stat distributions not allowed in formula expressions") := by
  rcases (evalExpr_meets _ f).of_error he with rfl | ⟨t, -, ht⟩
  · exact .inr (.inl rfl)
  · exact statEvalIdent_error ht

/-- A reason no evaluation stops for, one for each identifier. -/
def mark (text : List Char) : Halt := .stop (.panic (String.ofList text))

theorem mark_inj {t t' : List Char} (h : mark t = mark t') : t = t' := by
  simpa [mark, String.ofList_inj] using h

theorem statEvalIdent_ne_mark (sdb : Sdb N) (n : ℕ) (t text : List Char) :
    statEvalIdent sdb n t ≠ .error (mark text) := by
  intro h
  rcases statEvalIdent_error h with h | h | h <;> simp [mark] at h

theorem evalFormula_ne_mark (sdb : Sdb N) (n : ℕ) (f text : List Char) :
    evalFormula sdb n f ≠ .error (mark text) := by
  intro h
  rcases evalFormula_error h with h | h | h <;> simp [mark] at h

/-! ## Which evaluations end -/

variable {f g : List Char}

theorem Asks.refers (h : Asks sdb f g) : Refers sdb f g := by
  obtain ⟨text, hText, n, hAsk⟩ := h
  rcases (evalExpr_meets _ f).of_error (hAsk (mark text)) with h | ⟨t, ht, h⟩
  · simp [mark] at h
  · by_cases hEq : t = text
    · exact ⟨text, hEq ▸ ht, hText⟩
    · rw [Function.update_of_ne hEq] at h
      exact absurd h (statEvalIdent_ne_mark sdb n t text)

/-- A reason put in place of the value of an identifier comes out at every larger depth. -/
theorem evalExpr_update_mono {f text t : List Char} {k m : ℕ} (hkm : k ≤ m)
    (h : evalExpr (Function.update (statEvalIdent sdb k) text (.error (mark t))) f =
      .error (mark t)) :
    evalExpr (Function.update (statEvalIdent sdb m) text (.error (mark t))) f =
      .error (mark t) := by
  have hIdent : ∀ u, GivesUp (· = .depth) Eq
      (Function.update (statEvalIdent sdb k) text (.error (mark t)) u)
      (Function.update (statEvalIdent sdb m) text (.error (mark t)) u) := by
    intro u
    by_cases hu : u = text
    · subst hu
      rw [Function.update_self, Function.update_self]
      exact GivesUp.refl (fun _ => rfl) _
    · rw [Function.update_of_ne hu, Function.update_of_ne hu]
      exact statEvalIdent_mono sdb hkm u
  rcases (evalExpr_givesUp (fun _ => rfl) hIdent f).of_error h with hMark | ⟨d, hd, rfl⟩
  · cases hMark
  · exact hd

/-- The formula that is asked for ends at a smaller depth. -/
theorem Asks.lt_depth (h : Asks sdb f g) (hn : evalFormula sdb n f ≠ .error .depth) :
    ∃ m < n, evalFormula sdb m g ≠ .error .depth := by
  obtain ⟨text, hText, k, hAsk⟩ := h
  by_contra hNot
  push Not at hNot
  have hDepth : statEvalIdent sdb n text = .error .depth := by
    cases n with
    | zero => rfl
    | succ n =>
      rw [statEvalIdent_formula hText, hNot n (by omega)]
      rfl
  have hIdent : ∀ u, GivesUp (· = .depth) Eq (statEvalIdent sdb n u)
      (Function.update (statEvalIdent sdb (max k n)) text (.error (mark text)) u) := by
    intro u
    by_cases hu : u = text
    · subst hu
      rw [hDepth]
      exact .inl rfl
    · rw [Function.update_of_ne hu]
      exact statEvalIdent_mono sdb (le_max_right k n) u
  have hMark := evalExpr_update_mono (le_max_left k n) (hAsk (mark text))
  have hEq := (evalExpr_givesUp (fun _ => rfl) hIdent f).eq_of_not
    fun _ he hDepth => hn (hDepth ▸ he)
  exact evalFormula_ne_mark sdb n f text (hEq.symm.trans hMark)

/-- An identifier whose evaluation never ends names a formula with that property. -/
theorem exists_formula_of_diverges (h : ∀ n, statEvalIdent sdb n text = .error .depth) :
    ∃ g, formulaOf sdb text = some g ∧ ¬ Terminates sdb g := by
  cases hFormula : formulaOf sdb text with
  | none =>
    obtain ⟨r, hr, hFatal⟩ := statEvalIdent_plain hFormula
    exact absurd (hFatal _ ((hr 0).symm.trans (h 1))) (by simp)
  | some g =>
    refine ⟨g, rfl, ?_⟩
    rintro ⟨n, hn⟩
    have hText := h (n + 1)
    rw [statEvalIdent_formula hFormula] at hText
    cases hEval : evalFormula sdb n g with
    | error e =>
      rw [hEval] at hText
      exact hn (hEval.trans (congrArg Except.error (Except.error.inj hText)))
    | ok x =>
      rw [hEval, ok_bind] at hText
      split at hText <;> cases hText

/-- At some depth, the identifiers of a text whose evaluation ends have been evaluated. -/
theorem exists_depth (sdb : Sdb N) (texts : List (List Char)) :
    ∃ n, ∀ t ∈ texts, (∀ m, statEvalIdent sdb m t = .error .depth) ∨
      statEvalIdent sdb n t ≠ .error .depth := by
  induction texts with
  | nil => exact ⟨0, by simp⟩
  | cons t texts ih =>
    obtain ⟨n, hn⟩ := ih
    by_cases ht : ∀ m, statEvalIdent sdb m t = .error .depth
    · refine ⟨n, fun u hu => ?_⟩
      rcases List.mem_cons.mp hu with rfl | hu
      · exact .inl ht
      · exact hn u hu
    · push Not at ht
      obtain ⟨m, hm⟩ := ht
      have stays : ∀ {k u}, k ≤ max n m → statEvalIdent sdb k u ≠ .error .depth →
          statEvalIdent sdb (max n m) u ≠ .error .depth := by
        intro k u hk hu
        rw [(statEvalIdent_mono sdb hk u).eq_of_not fun _ he hDepth => hu (hDepth ▸ he)]
        exact hu
      refine ⟨max n m, fun u hu => ?_⟩
      rcases List.mem_cons.mp hu with rfl | hu
      · exact .inr (stays (le_max_right n m) hm)
      · exact (hn u hu).imp_right (stays (le_max_left n m))

/-- A formula whose evaluation never ends asks for one with that property. -/
theorem exists_asked (hf : ¬ Terminates sdb f) :
    ∃ g, Asks sdb f g ∧ ¬ Terminates sdb g := by
  classical
  let Diverges : List Char → Prop := fun t => ∀ n, statEvalIdent sdb n t = .error .depth
  obtain ⟨n, hn⟩ := exists_depth sdb ((lexer.tokens f).map Prod.snd)
  have hDepth : evalFormula sdb n f = .error .depth := by
    by_contra h
    exact hf ⟨n, h⟩
  -- let each identifier that does not end say so under its own name
  let named : EvalIdent N := fun t =>
    if Diverges t then .error (mark t) else statEvalIdent sdb n t
  have hNamed : ∃ t, Diverges t ∧ evalExpr named f = .error (mark t) := by
    have hIdent : ∀ t, GivesUp (fun _ => False)
        (fun e d => e = d ∨ ∃ t, Diverges t ∧ d = mark t) (statEvalIdent sdb n t) (named t) := by
      intro t
      by_cases ht : Diverges t
      · simp only [named, if_pos ht, ht n]
        exact .inr ⟨_, rfl, .inr ⟨t, ht, rfl⟩⟩
      · simp only [named, if_neg ht]
        exact GivesUp.refl (fun _ => .inl rfl) _
    rcases (evalExpr_givesUp (fun _ => .inl rfl) hIdent f).of_error hDepth with
      h | ⟨d, hd, rfl | ⟨t, ht, rfl⟩⟩
    · exact h.elim
    · rcases (evalExpr_meets _ f).of_error hd with h | ⟨t, ht, h⟩
      · cases h
      · by_cases hDiv : Diverges t
        · simp only [named, if_pos hDiv] at h
          cases h
        · simp only [named, if_neg hDiv] at h
          have := (hn t (List.mem_map.mpr ⟨_, ht, rfl⟩)).resolve_left hDiv
          exact absurd h this
    · exact ⟨t, ht, hd⟩
  obtain ⟨t, ht, hMark⟩ := hNamed
  obtain ⟨g, hg, hDiv⟩ := exists_formula_of_diverges ht
  refine ⟨g, ⟨t, hg, n, fun h => ?_⟩, hDiv⟩
  have hIdent : ∀ u, GivesUp (fun _ => False)
      (fun e d => e = d ∨ (e = mark t ∧ d = h) ∨ ∃ t', t' ≠ t ∧ e = mark t') (named u)
      (Function.update (statEvalIdent sdb n) t (.error h) u) := by
    intro u
    by_cases hu : u = t
    · subst hu
      simp only [named, if_pos ht, Function.update_self]
      exact .inr ⟨_, rfl, .inr (.inl ⟨rfl, rfl⟩)⟩
    · rw [Function.update_of_ne hu]
      by_cases hDiv : Diverges u
      · simp only [named, if_pos hDiv, hDiv n]
        exact .inr ⟨_, rfl, .inr (.inr ⟨u, hu, rfl⟩)⟩
      · simp only [named, if_neg hDiv]
        exact GivesUp.refl (fun _ => .inl rfl) _
  rcases (evalExpr_givesUp (fun _ => .inl rfl) hIdent f).of_error hMark with
    h | ⟨d, hd, rfl | ⟨-, rfl⟩ | ⟨t', hne, h⟩⟩
  · exact h.elim
  · rcases (evalExpr_meets _ f).of_error hd with h' | ⟨u, -, h'⟩
    · simp [mark] at h'
    · by_cases hu : u = t
      · subst hu
        rw [Function.update_self] at h'
        exact hd.trans (congrArg Except.error (Except.error.inj h').symm)
      · rw [Function.update_of_ne hu] at h'
        exact absurd h' (statEvalIdent_ne_mark sdb n u t)
  · exact hd
  · exact absurd (mark_inj h).symm hne

/-- **Termination.**  The evaluation of a formula ends if and only if no endless chain of
formulas that ask for one another starts at it. -/
theorem terminates_iff :
    Terminates sdb f ↔ Acc (fun g f => Asks sdb f g) f := by
  constructor
  · rintro ⟨n, hn⟩
    induction n using Nat.strong_induction_on generalizing f with
    | _ n ih =>
      refine .intro f fun g hg => ?_
      obtain ⟨m, hm, hEnds⟩ := hg.lt_depth hn
      exact ih m hm hEnds
  · intro h
    induction h with
    | intro f _ ih =>
      by_contra hf
      obtain ⟨g, hAsks, hg⟩ := exists_asked hf
      exact hg (ih g hAsks)

/-- A valid formula has evaluated every formula it refers to without error. -/
theorem Valid.refers (h : Valid sdb f) (hg : Refers sdb f g) :
    Valid sdb g ∨ Cut sdb g := by
  obtain ⟨n, x, hx, hNo, hEnd⟩ := h
  obtain ⟨text, hText, hFormula⟩ := hg
  obtain ⟨e, ts, hSpells, hReads, -, -, hEval⟩ := (evalExpr_meets _ f).of_ok hx hNo
  have hTokens : lexer.tokens f = ts := by
    rw [hReads.tokens_eq, hEnd, tokens_of_none rfl, List.append_nil]
  obtain ⟨w, hw⟩ := hSpells.ident_ok hEval (hTokens ▸ hText)
  cases n with
  | zero => cases hw
  | succ n =>
    rw [statEvalIdent_formula hFormula] at hw
    obtain ⟨y, hy, hw⟩ := bind_eq_ok.mp hw
    have hNo : y.evalError = .noerr := by
      split at hw <;> exact congrArg Prod.snd (Except.ok.inj hw)
    by_cases hEnd : y.endp = []
    · exact .inl ⟨n, y, hy, hNo, hEnd⟩
    · exact .inr ⟨n, y, hy, hNo, hEnd⟩

theorem Valid.not_cut (h : Valid sdb f) : ¬ Cut sdb f := by
  obtain ⟨n, x, hx, -, hEnd⟩ := h
  rintro ⟨m, y, hy, -, hRest⟩
  have hx' := evalFormula_mono (le_max_left n m) (by rw [hx]; simp)
  have hy' := evalFormula_mono (le_max_right n m) (by rw [hy]; simp)
  have hxy : x = y := by
    rw [hx'] at hy'
    exact Except.ok.inj (hx.symm.trans (hy'.trans hy))
  exact hRest (hxy ▸ hEnd)

/-- The evaluation of the formula ends, and gives a value only if every formula it reaches
is read to its end and has a value. -/
def Trustworthy (sdb : Sdb N) (f : List Char) : Prop :=
  Terminates sdb f ∧
    (Valid sdb f → ∀ g, Relation.ReflTransGen (Refers sdb) f g → Valid sdb g)

/-- A formula that is an identifier stops for what the identifier stops for. -/
theorem evalFormula_ident
    (hIdent : statEvalIdent sdb n ['a'] = .error h) : evalFormula sdb n ['a'] = .error h := by
  have hReads : lexer.Reads ['a'] [(.ident, ['a'])] [] := .one (by decide)
  have hEval : Phrase.eval (statEvalIdent sdb n) (.sum (.single (.ident ['a']))) = .error h := by
    simp only [Phrase.eval, hIdent]
    rfl
  obtain ⟨h', hx, rfl⟩ := (evalExpr_of_spells (Phrase.spells_tokens (.sum (.single (.ident ['a']))))
    hReads (by decide) (by decide)).of_error_right hEval
  exact hx

end SimpleScalar.Stats

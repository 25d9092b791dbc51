import SimpleScalar.Eval.Parse

/-!
# The value of an arithmetic expression

Over decimal constants, the operators and parentheses, an expression has its usual value
(`Phrase.usual`): `*` and `/` bind tighter, operators of one chain associate to the left,
the unary minus negates.

The evaluator computes another number (`Phrase.computed`): it groups a chain to the right,
its unary minus leaves an `int` as it is, and a constant with a leading zero is octal.
`returnsUsual_iff`: it returns the usual value where the two agree.
-/

namespace SimpleScalar.Eval

open Scanner Outcome

variable {N : Numerics} {l : Level}

/-! ## The usual value -/

/-- The number decimal digits stand for. -/
def decimal (text : List Char) : ℕ := text.foldl (fun n c => 10 * n + (c.toNat - '0'.toNat)) 0

/-- A decimal constant that fits in 32 bits. -/
def IsDecimal (text : List Char) : Prop :=
  text ≠ [] ∧ text.all (fun c => '0' ≤ c ∧ c ≤ '9') = true ∧ decimal text < 2 ^ 32

instance (text : List Char) : Decidable (IsDecimal text) :=
  inferInstanceAs (Decidable (_ ∧ _ ∧ _))

/-- Decimal constants, operators and parentheses only. -/
def Phrase.Arithmetic {l : Level} : Phrase l → Prop
  | .const text => IsDecimal text
  | .ident _ => False
  | .neg f => f.Arithmetic
  | .paren e => e.Arithmetic
  | .single f => f.Arithmetic
  | .mul f _ t => f.Arithmetic ∧ t.Arithmetic
  | .sum t => t.Arithmetic
  | .add t _ e => t.Arithmetic ∧ e.Arithmetic

instance Phrase.decArithmetic : {l : Level} → (e : Phrase l) → Decidable e.Arithmetic
  | _, .const text => inferInstanceAs (Decidable (IsDecimal text))
  | _, .ident _ => inferInstanceAs (Decidable False)
  | _, .neg f => f.decArithmetic
  | _, .paren e => e.decArithmetic
  | _, .single f => f.decArithmetic
  | _, .mul f _ t => @instDecidableAnd _ _ f.decArithmetic t.decArithmetic
  | _, .sum t => t.decArithmetic
  | _, .add t _ e => @instDecidableAnd _ _ t.decArithmetic e.decArithmetic

def AddOp.onInt (op : AddOp) (a b : ℤ) : Option ℤ :=
  match op with
  | .plus => some (a + b)
  | .minus => some (a - b)

/-- Quotients are truncated, as in C. -/
def MulOp.onInt (op : MulOp) (a b : ℤ) : Option ℤ :=
  match op with
  | .mult => some (a * b)
  | .div => if b = 0 then none else some (a.tdiv b)

/-- The usual value of a phrase; `join` joins its first operand to what stands left of it in
the chain. -/
def Phrase.usual {l : Level} : Phrase l → (ℤ → Option ℤ) → Option ℤ
  | .const text, join => join (decimal text)
  | .ident _, _ => none
  | .neg f, join => (f.usual some).bind fun a => join (-a)
  | .paren e, join => (e.usual some).bind join
  | .single f, join => f.usual join
  | .mul f op t, join => (f.usual join).bind fun a => t.usual (op.onInt a)
  | .sum t, join => (t.usual some).bind join
  | .add t op e, join => ((t.usual some).bind join).bind fun a => e.usual (op.onInt a)

-- `8 - 3 - 2`, `2 + 12 / 2 / 3` and `- (1 - 4) * 2`
example : Phrase.usual (.add (.single (.const ['8'])) .minus (.add (.single (.const ['3'])) .minus
    (.sum (.single (.const ['2']))))) some = some 3 := by decide

example : Phrase.usual (.add (.single (.const ['2'])) .plus (.sum (.mul (.const ['1', '2']) .div
    (.mul (.const ['2']) .div (.single (.const ['3'])))))) some = some 4 := by decide

example : Phrase.usual (.mul (.neg (.paren (.add (.single (.const ['1'])) .minus
    (.sum (.single (.const ['4'])))))) .mult (.single (.const ['2']))) some = some 6 := by decide

/-! ## What the evaluator computes -/

/-- The number a value stands for; `fInt` and `dInt` are those of the host's floating
point. -/
def Value.number (fInt : N.F → Option ℤ) (dInt : N.D → Option ℤ) : Value N → Option ℤ
  | .int v => some v.toInt
  | .uint v => some v.toNat
  | .float v => fInt v
  | .double v => dInt v
  | .symbol _ => none

/-- The number the evaluator computes for an expression without identifiers, read as
`Phrase.eval` says. -/
def Phrase.computed (fInt : N.F → Option ℤ) (dInt : N.D → Option ℤ) (e : Phrase l) : Option ℤ :=
  (e.eval (N := N) fun _ => .ok (errValue, .undefvar)).toOption.join.bind (Value.number fInt dInt)

variable {e : Phrase l}

theorem Phrase.Arithmetic.eval_eq (h : e.Arithmetic)
    (evalIdent evalIdent' : EvalIdent N) : e.eval evalIdent = e.eval evalIdent' := by
  induction e with
  | const text => rfl
  | ident text => exact h.elim
  | neg f ih => rw [Phrase.eval, Phrase.eval, ih h]
  | paren e ih => exact ih h
  | single f ih => exact ih h
  | mul f op t ihf iht => rw [Phrase.eval, Phrase.eval, ihf h.1, iht h.2]
  | sum t ih => exact ih h
  | add t op e iht ihe => rw [Phrase.eval, Phrase.eval, iht h.1, ihe h.2]

/-! ### Right to left -/

def inInt (a : ℤ) : Option ℤ := if -2 ^ 31 ≤ a ∧ a < 2 ^ 31 then some a else none

theorem inInt_eq_some {a b : ℤ} : inInt a = some b ↔ a = b ∧ -2 ^ 31 ≤ b ∧ b < 2 ^ 31 := by
  unfold inInt
  split <;> simp <;> grind

/-- The value from right to left and without the unary minus, where every number on the way
is an `int` and no constant begins with a zero. -/
def Phrase.fromRight {l : Level} : Phrase l → Option ℤ
  | .const text => if text.head? = some '0' then none else inInt (decimal text)
  | .ident _ => none
  | .neg f => f.fromRight
  | .paren e => e.fromRight
  | .single f => f.fromRight
  | .mul f op t =>
    f.fromRight.bind fun a => t.fromRight.bind fun b => (op.onInt a b).bind inInt
  | .sum t => t.fromRight
  | .add t op e =>
    t.fromRight.bind fun a => e.fromRight.bind fun b => (op.onInt a b).bind inInt

theorem digit_ten {c : Char} (h : '0' ≤ c ∧ c ≤ '9') :
    digit 10 c = some (c.toNat - '0'.toNat) := by
  have h9 : c.toNat ≤ 57 := h.2
  have h48 : '0'.toNat = 48 := rfl
  rw [digit, if_pos h, if_pos (by omega)]

variable {text : List Char}

theorem digits_ten (h : ∀ c ∈ text, '0' ≤ c ∧ c ≤ '9') (n : ℕ) :
    digits 10 n text = (text.foldl (fun n c => 10 * n + (c.toNat - '0'.toNat)) n, []) := by
  induction text generalizing n with
  | nil => rfl
  | cons c text ih =>
    rw [digits, digit_ten (h c (by simp))]
    dsimp only
    rw [ih (fun d hd => h d (by simp [hd])), List.foldl_cons, Nat.mul_comm n 10]

theorem strtoBase0_of_decimal (h : IsDecimal text)
    (h0 : text.head? ≠ some '0') : strtoBase0 text = (decimal text, []) := by
  unfold strtoBase0
  split
  · simp at h0
  · simp at h0
  · exact digits_ten (fun c hc => of_decide_eq_true (List.all_eq_true.mp h.2.1 c hc)) 0

theorem constant_of_decimal (hLong : 32 ≤ N.longBits) (h : IsDecimal text)
    (h0 : text.head? ≠ some '0') (hInt : decimal text < 2 ^ 31) :
    constant (N := N) text = (.int (BitVec.ofNat 32 (decimal text)), .noerr) := by
  have hPow : 2 ^ 31 ≤ 2 ^ (N.longBits - 1) := Nat.pow_le_pow_right (by decide) (by omega)
  simp only [constant, strtoBase0_of_decimal h h0]
  rw [if_pos ⟨by omega, trivial⟩]

variable {a b c : ℤ}

theorem AddOp.apply_int (op : AddOp) (h : (op.onInt a b).bind inInt = some c) :
    op.apply (N := N) (.int (BitVec.ofInt 32 a)) (.int (BitVec.ofInt 32 b)) =
      .ok (some (.int (BitVec.ofInt 32 c))) := by
  cases op with
  | plus =>
    obtain ⟨rfl, -⟩ := inInt_eq_some.mp h
    rw [BitVec.ofInt_add]
    rfl
  | minus =>
    obtain ⟨rfl, -⟩ := inInt_eq_some.mp h
    rw [Int.sub_eq_add_neg, BitVec.ofInt_add, BitVec.ofInt_neg, ← BitVec.sub_eq_add_neg]
    rfl

theorem toInt_ofInt_of_inInt {a : ℤ} (h : -2 ^ 31 ≤ a ∧ a < 2 ^ 31) :
    (BitVec.ofInt 32 a).toInt = a :=
  BitVec.toInt_ofInt_eq_self (by decide) h.1 h.2

theorem ofInt_ne_zero {b : ℤ} (hb : -2 ^ 31 ≤ b ∧ b < 2 ^ 31) (h0 : b ≠ 0) :
    BitVec.ofInt 32 b ≠ 0 := by
  intro hz
  have := toInt_ofInt_of_inInt hb
  rw [hz] at this
  exact h0 this.symm

theorem intDiv_ofInt {a b : ℤ} (ha : -2 ^ 31 ≤ a ∧ a < 2 ^ 31) (hb : -2 ^ 31 ≤ b ∧ b < 2 ^ 31)
    (h0 : b ≠ 0) (h : a.tdiv b < 2 ^ 31) :
    intDiv (BitVec.ofInt 32 a) (BitVec.ofInt 32 b) = .ok (BitVec.ofInt 32 (a.tdiv b)) := by
  have hb0 := ofInt_ne_zero hb h0
  have hOver : ¬ (BitVec.ofInt 32 a = 0x80000000#32 ∧ BitVec.ofInt 32 b = 0xffffffff#32) := by
    rintro ⟨hMin, hOne⟩
    have ha' := toInt_ofInt_of_inInt ha
    have hb' := toInt_ofInt_of_inInt hb
    rw [hMin] at ha'
    rw [hOne] at hb'
    subst ha' hb'
    exact absurd h (by decide)
  rw [intDiv, if_neg (not_or.mpr ⟨hb0, hOver⟩)]
  refine congrArg Except.ok (BitVec.eq_of_toInt_eq ?_)
  rw [BitVec.toInt_sdiv, toInt_ofInt_of_inInt ha, toInt_ofInt_of_inInt hb, BitVec.toInt_ofInt]

theorem MulOp.apply_int (op : MulOp) (ha : -2 ^ 31 ≤ a ∧ a < 2 ^ 31)
    (hb : -2 ^ 31 ≤ b ∧ b < 2 ^ 31) (h : (op.onInt a b).bind inInt = some c) :
    op.apply (N := N) (.int (BitVec.ofInt 32 a)) (.int (BitVec.ofInt 32 b)) =
      .ok (some (.int (BitVec.ofInt 32 c))) := by
  cases op with
  | mult =>
    obtain ⟨rfl, -⟩ := inInt_eq_some.mp h
    rw [BitVec.ofInt_mul]
    rfl
  | div =>
    by_cases h0 : b = 0
    · simp [MulOp.onInt, h0] at h
    rw [MulOp.onInt, if_neg h0] at h
    obtain ⟨rfl, -, hc⟩ := inInt_eq_some.mp h
    have hDiv : fDiv (N := N) (.int (BitVec.ofInt 32 a)) (.int (BitVec.ofInt 32 b)) .noerr =
        (do return (Value.int (← intDiv (BitVec.ofInt 32 a) (BitVec.ofInt 32 b)), Err.noerr)) := rfl
    rw [intDiv_ofInt ha hb h0 hc] at hDiv
    simp only [MulOp.apply, fEqZero, ofInt_ne_zero hb h0, decide_false, Bool.false_eq_true, if_false, hDiv]
    rfl

variable {r : ℤ}

/-- Where everything is an `int`, the evaluator computes the value from right to left. -/
theorem Phrase.eval_of_fromRight (hLong : 32 ≤ N.longBits) (evalIdent : EvalIdent N)
    (he : e.Arithmetic) (h : e.fromRight = some r) :
    e.eval evalIdent = .ok (some (.int (BitVec.ofInt 32 r))) ∧ -2 ^ 31 ≤ r ∧ r < 2 ^ 31 := by
  induction e generalizing r with
  | const text =>
    rw [Phrase.fromRight] at h
    split at h
    · cases h
    next h0 =>
      obtain ⟨rfl, hr⟩ := inInt_eq_some.mp h
      refine ⟨?_, hr⟩
      rw [Phrase.eval, constant_of_decimal hLong he h0 (by omega)]
      simp [ofErr, pure, Except.pure]
  | ident text => exact he.elim
  | neg f ih => rw [Phrase.eval, (ih he h).1]; exact ⟨rfl, (ih he h).2⟩
  | paren e ih => exact ih he h
  | single f ih => exact ih he h
  | mul f op t ihf iht =>
    obtain ⟨a, ha, h⟩ := Option.bind_eq_some_iff.mp h
    obtain ⟨b, hb, h⟩ := Option.bind_eq_some_iff.mp h
    obtain ⟨_, -, hr⟩ := Option.bind_eq_some_iff.mp h
    rw [Phrase.eval, (ihf he.1 ha).1, (iht he.2 hb).1]
    exact ⟨op.apply_int (ihf he.1 ha).2 (iht he.2 hb).2 h, (inInt_eq_some.mp hr).2⟩
  | sum t ih => exact ih he h
  | add t op e iht ihe =>
    obtain ⟨a, ha, h⟩ := Option.bind_eq_some_iff.mp h
    obtain ⟨b, hb, h⟩ := Option.bind_eq_some_iff.mp h
    obtain ⟨_, -, hr⟩ := Option.bind_eq_some_iff.mp h
    rw [Phrase.eval, (iht he.1 ha).1, (ihe he.2 hb).1]
    exact ⟨op.apply_int h, (inInt_eq_some.mp hr).2⟩

theorem Phrase.computed_of_fromRight (hLong : 32 ≤ N.longBits) (fInt : N.F → Option ℤ)
    (dInt : N.D → Option ℤ) (he : e.Arithmetic)
    (h : e.fromRight = some r) : e.computed fInt dInt = some r := by
  obtain ⟨hEval, hInt⟩ := e.eval_of_fromRight hLong (fun _ => .ok (errValue, .undefvar)) he h
  rw [Phrase.computed, hEval]
  exact congrArg some (toInt_ofInt_of_inInt hInt)

/-! ## What is returned -/

/-- `eval_expr` returns the number `v` without error. -/
def Returns (evalIdent : EvalIdent N) (fInt : N.F → Option ℤ) (dInt : N.D → Option ℤ)
    (s : List Char) (v : ℤ) : Prop :=
  ∃ x, evalExpr evalIdent s = .ok x ∧ x.evalError = .noerr ∧ x.val.number fInt dInt = some v

variable {evalIdent : EvalIdent N} {fInt : N.F → Option ℤ} {dInt : N.D → Option ℤ} {s : List Char}
  {e : Phrase .expr} {v : ℤ}

theorem returns_iff (he : e.Arithmetic) (hs : lexer.tokens s = e.tokens) :
    Returns evalIdent fInt dInt s v ↔ Short e.tokens ∧ e.computed fInt dInt = some v := by
  rw [Phrase.computed, he.eval_eq _ evalIdent]
  constructor
  · rintro ⟨x, hx, hNo, hv⟩
    obtain ⟨e', ts, hSpells, hReads, hShort, hStops, hEval⟩ := (evalExpr_meets _ s).of_ok hx hNo
    -- the string has no other reading than `e`
    have hTokens := hReads.tokens_eq
    rw [hs] at hTokens
    have hValid : ∀ y ∈ ts, y.1 ≠ .invalid := fun y hy =>
      e.tokens_valid y (hTokens ▸ List.mem_append_left _ hy)
    rw [hSpells.eq_tokens hValid] at hTokens hShort
    obtain ⟨rfl, -⟩ := Phrase.tokens_unique ((List.append_nil _).trans hTokens)
      (by simp [Level.Closed]) (hStops hValid)
    refine ⟨hShort, ?_⟩
    rw [hEval]
    exact hv
  · rintro ⟨hShort, hv⟩
    obtain ⟨r, hReads, hr⟩ := exists_reads (hs.trans (List.append_nil e.tokens).symm)
    have hRun : Agree (Reported r) Eq (evalExpr evalIdent s) (e.eval evalIdent) :=
      evalExpr_of_spells e.spells_tokens hReads hShort hr
    cases hEval : e.eval evalIdent with
    | error h => simp [hEval, Except.toOption] at hv
    | ok o =>
      cases o with
      | none => simp [hEval, Except.toOption] at hv
      | some w =>
        obtain ⟨x, hx, hVal, -, hNo⟩ := hRun.of_ok_right hEval
        refine ⟨x, hx, hNo, ?_⟩
        rw [hEval] at hv
        rw [hVal]
        exact hv

/-- **The evaluator works from right to left.**  Where every number on the way is an `int`, that is the
value it returns, for every string that spells the expression. -/
theorem returns_fromRight (hLong : 32 ≤ N.longBits) (evalIdent : EvalIdent N) (fInt : N.F → Option ℤ)
    (dInt : N.D → Option ℤ) (he : e.Arithmetic)
    (hs : lexer.tokens s = e.tokens) (hShort : Short e.tokens) (h : e.fromRight = some v) :
    Returns evalIdent fInt dInt s v :=
  (returns_iff he hs).mpr ⟨hShort, e.computed_of_fromRight hLong fInt dInt he h⟩

theorem returns_fromRight_chain : Returns (N := .lp64) (fun _ => .ok (errValue, .undefvar)) (fun _ => none)
    (fun _ => none) "8-3-2".toList 7 :=
  returns_fromRight (e := .add (.single (.const ['8'])) .minus (.add (.single (.const ['3'])) .minus
    (.sum (.single (.const ['2']))))) (by decide) _ _ _ (by decide +kernel) (by decide) (by decide) (by decide)

/-- `eval_expr` returns the usual value of the expression, if it has one. -/
def ReturnsUsual (evalIdent : EvalIdent N) (fInt : N.F → Option ℤ) (dInt : N.D → Option ℤ)
    (s : List Char) (e : Phrase .expr) : Prop :=
  ∀ v, e.usual some = some v → Returns evalIdent fInt dInt s v

theorem ReturnsUsual.computed_eq (h : ReturnsUsual evalIdent fInt dInt s e) (he : e.Arithmetic)
    (hs : lexer.tokens s = e.tokens) (hv : e.usual some = some v) :
    e.computed fInt dInt = some v :=
  ((returns_iff he hs).mp (h v hv)).2

end SimpleScalar.Eval

import Mathlib.Algebra.Order.Ring.Int
import SimpleScalar.Isa.Basic
import SimpleScalar.Lib.Scanner

/-!
# The expression evaluator

`eval.c`: `get_next_token` cuts a string into tokens, `expr`, `term` and `factor` evaluate
it by recursive descent, with one token looked at ahead.  The slot of that token holds
`tok_invalid` when nothing has been looked at.

A pointer into the string is the list of the characters from there on, the terminating NUL
left out.  The global `eval_error` is a field of the state.  What C leaves to the host, the
width of a `long` and floating point, is a parameter (`Numerics`), as is the identifier
evaluator.
-/

namespace SimpleScalar.Eval

/-- `enum eval_token_t` -/
inductive Tok where
  | ident | const | plus | minus | mult | div | oparen | cparen | eof | whitespace | invalid
  deriving DecidableEq, Repr

/-- `enum eval_err_t` -/
inductive Err where
  | noerr | uparen | noterm | div0 | badconst | badexpr | undefvar | extra
  deriving DecidableEq, Repr

/-- Why an evaluation has no result: the simulator stops, or the calls are nested deeper
than the bound the definition was given. -/
inductive Halt where
  | stop (s : Stop)
  | depth
  deriving DecidableEq, Repr

abbrev Run := Except Halt

/-! ## Tokens -/

/-- `tok_map`, as `init_tok_map` fills it. -/
def tokMap (c : Char) : Tok :=
  if ('a' ≤ c ∧ c ≤ 'z') ∨ ('A' ≤ c ∧ c ≤ 'Z') ∨ c = '_' ∨ c = '$' then .ident
  else if ('0' ≤ c ∧ c ≤ '9') ∨ c = '.' then .const
  else if c = '+' then .plus
  else if c = '-' then .minus
  else if c = '*' then .mult
  else if c = '/' then .div
  else if c = '(' then .oparen
  else if c = ')' then .cparen
  else if c = ' ' ∨ c = '\t' then .whitespace
  else .invalid

/-- A character an identifier goes on with. -/
def identChar (c : Char) : Bool := tokMap c = .ident ∨ tokMap c = .const

/-- A character a numeric literal goes on with. -/
def constChar (lastChar : Char) (allowHex : Bool) (c : Char) : Bool :=
  tokMap c = .const
    ∨ (c = '-' ∧ lastChar = 'e') ∨ (c = '+' ∧ lastChar = 'e')
    ∨ c.toLower = 'e' ∨ c.toLower = 'x'
    ∨ (c.toLower = 'a' ∧ allowHex) ∨ (c.toLower = 'b' ∧ allowHex)
    ∨ (c.toLower = 'c' ∧ allowHex) ∨ (c.toLower = 'd' ∧ allowHex)
    ∨ (c.toLower = 'e' ∧ allowHex) ∨ (c.toLower = 'f' ∧ allowHex)

/-- The rest of a numeric literal, and what follows it. -/
def constLoop (lastChar : Char) (allowHex : Bool) : List Char → List Char × List Char
  | [] => ([], [])
  | c :: p =>
    if constChar lastChar allowHex c then
      let (t, r) := constLoop c.toLower (allowHex || c = 'x' || c = 'X') p
      (c :: t, r)
    else ([], c :: p)

/-- `get_next_token` past the look-ahead slot: the token, its text, and what follows. -/
def scan (p : List Char) : Tok × List Char × List Char :=
  match p.dropWhile (tokMap · = .whitespace) with
  | [] => (.eof, [], [])
  | c :: p =>
    match tokMap c with
    | .ident => (.ident, c :: p.takeWhile identChar, p.dropWhile identChar)
    | .const => let (t, r) := constLoop '\x00' false p; (.const, c :: t, r)
    | .plus => (.plus, [c], p)
    | .minus => (.minus, [c], p)
    | .mult => (.mult, [c], p)
    | .div => (.div, [c], p)
    | .oparen => (.oparen, [c], p)
    | .cparen => (.cparen, [c], p)
    | _ => (.invalid, [c], p)

/-- `struct eval_state_t` without the identifier evaluator and its argument, and
`eval_error`. -/
structure State where
  p : List Char
  lastp : List Char
  tokBuf : List Char
  peekTok : Tok
  evalError : Err
  deriving DecidableEq, Repr

/-- The size of `tok_buf`.  A longer token is written past its end. -/
def tokBufSize : ℕ := 512

def getNextToken (es : State) : Run (Tok × State) :=
  if es.peekTok ≠ .invalid then .ok (es.peekTok, { es with peekTok := .invalid })
  else
    match scan es.p with
    | (tok, text, p) =>
      if text.length < tokBufSize then .ok (tok, { es with p, tokBuf := text })
      else .error (.stop .undefined)

def peekNextToken (es : State) : Run (Tok × State) :=
  if es.peekTok = .invalid then do
    let (tok, es) ← getNextToken { es with lastp := es.p }
    return (tok, { es with peekTok := tok })
  else return (es.peekTok, es)

/-! ## Values -/

/-- The arithmetic of the host: the width of a `long` and floating point. -/
structure Numerics where
  longBits : ℕ
  F : Type
  D : Type
  /-- `strtod`, when it converts the whole text and leaves `errno` clear -/
  strtod : List Char → Option D
  fOfInt : Word → F
  fOfUint : Word → F
  fOfD : D → F
  dOfInt : Word → D
  dOfUint : Word → D
  dOfF : F → D
  dOfLlong : BitVec 64 → D
  uintOfF : F → Word
  uintOfD : D → Word
  intOfF : F → Word
  intOfD : D → Word
  fAdd : F → F → F
  fSub : F → F → F
  fMult : F → F → F
  fDiv : F → F → F
  fNeg : F → F
  fIsZero : F → Bool
  dAdd : D → D → D
  dSub : D → D → D
  dMult : D → D → D
  dDiv : D → D → D
  dNeg : D → D
  dIsZero : D → Bool

/-- A host with a `long` of 64 bits, and floating point left out. -/
def Numerics.lp64 : Numerics where
  longBits := 64
  F := Unit
  D := Unit
  strtod _ := none
  fOfInt _ := ()
  fOfUint _ := ()
  fOfD _ := ()
  dOfInt _ := ()
  dOfUint _ := ()
  dOfF _ := ()
  dOfLlong _ := ()
  uintOfF _ := 0
  uintOfD _ := 0
  intOfF _ := 0
  intOfD _ := 0
  fAdd _ _ := ()
  fSub _ _ := ()
  fMult _ _ := ()
  fDiv _ _ := ()
  fNeg _ := ()
  fIsZero _ := true
  dAdd _ _ := ()
  dSub _ _ := ()
  dMult _ _ := ()
  dDiv _ _ := ()
  dNeg _ := ()
  dIsZero _ := true

/-- `enum eval_type_t` -/
inductive Ty where
  | int | uint | float | double | symbol
  deriving DecidableEq, Repr

/-- `struct eval_value_t` -/
inductive Value (N : Numerics) where
  | int (v : Word)
  | uint (v : Word)
  | float (v : N.F)
  | double (v : N.D)
  | symbol (s : List Char)

variable {N : Numerics}

def Value.type : Value N → Ty
  | .int _ => .int
  | .uint _ => .uint
  | .float _ => .float
  | .double _ => .double
  | .symbol _ => .symbol

/-- `err_value` -/
def errValue : Value N := .int 0

def symbolPanic {α : Type} : Run α := .error (.stop (.panic "symbol used in expression"))

def resultType (t1 t2 : Ty) : Run Ty :=
  if t1 = .symbol ∨ t2 = .symbol then symbolPanic
  else if t1 = .double ∨ t2 = .double then .ok .double
  else if t1 = .float ∨ t2 = .float then .ok .float
  else if t1 = .uint ∨ t2 = .uint then .ok .uint
  else .ok .int

def evalAsDouble : Value N → Run N.D
  | .double v => .ok v
  | .float v => .ok (N.dOfF v)
  | .uint v => .ok (N.dOfUint v)
  | .int v => .ok (N.dOfInt v)
  | .symbol _ => symbolPanic

def evalAsFloat : Value N → Run N.F
  | .double v => .ok (N.fOfD v)
  | .float v => .ok v
  | .uint v => .ok (N.fOfUint v)
  | .int v => .ok (N.fOfInt v)
  | .symbol _ => symbolPanic

def evalAsUint : Value N → Run Word
  | .double v => .ok (N.uintOfD v)
  | .float v => .ok (N.uintOfF v)
  | .uint v => .ok v
  | .int v => .ok v
  | .symbol _ => symbolPanic

def evalAsInt : Value N → Run Word
  | .double v => .ok (N.intOfD v)
  | .float v => .ok (N.intOfF v)
  | .uint v => .ok v
  | .int v => .ok v
  | .symbol _ => symbolPanic

/-- The four operations of a binary operator, one for each type. -/
structure Operator (N : Numerics) where
  double : N.D → N.D → N.D
  float : N.F → N.F → N.F
  uint : Word → Word → Run Word
  int : Word → Word → Run Word

/-- The common body of `f_add`, `f_sub`, `f_mult` and `f_div`; `err` is `eval_error` at the
call. -/
def arith (op : Operator N) (val1 val2 : Value N) (err : Err) : Run (Value N × Err) :=
  if val1.type = .symbol ∨ val2.type = .symbol then .ok (errValue, .badexpr)
  else do
    match ← resultType val1.type val2.type with
    | .double => return (.double (op.double (← evalAsDouble val1) (← evalAsDouble val2)), err)
    | .float => return (.float (op.float (← evalAsFloat val1) (← evalAsFloat val2)), err)
    | .uint => return (.uint (← op.uint (← evalAsUint val1) (← evalAsUint val2)), err)
    | .int => return (.int (← op.int (← evalAsInt val1) (← evalAsInt val2)), err)
    | .symbol => .error (.stop (.panic "bogus expression type"))

-- Signed sums, differences and products are taken modulo `2 ^ 32`, as the host computes
-- them; the one quotient that does not fit is undefined.

def fAdd (val1 val2 : Value N) (err : Err) : Run (Value N × Err) :=
  arith ⟨N.dAdd, N.fAdd, fun a b => .ok (a + b), fun a b => .ok (a + b)⟩ val1 val2 err

def fSub (val1 val2 : Value N) (err : Err) : Run (Value N × Err) :=
  arith ⟨N.dSub, N.fSub, fun a b => .ok (a - b), fun a b => .ok (a - b)⟩ val1 val2 err

def fMult (val1 val2 : Value N) (err : Err) : Run (Value N × Err) :=
  arith ⟨N.dMult, N.fMult, fun a b => .ok (a * b), fun a b => .ok (a * b)⟩ val1 val2 err

def uintDiv (a b : Word) : Run Word :=
  if b = 0 then .error (.stop .undefined) else .ok (a / b)

def intDiv (a b : Word) : Run Word :=
  if b = 0 ∨ (a = 0x80000000#32 ∧ b = 0xffffffff#32) then .error (.stop .undefined)
  else .ok (a.sdiv b)

def fDiv (val1 val2 : Value N) (err : Err) : Run (Value N × Err) :=
  arith ⟨N.dDiv, N.fDiv, uintDiv, intDiv⟩ val1 val2 err

-- The case of an `int` has no minus sign in the source.
def fNeg (val1 : Value N) (err : Err) : Value N × Err :=
  match val1 with
  | .symbol _ => (errValue, .badexpr)
  | .double v => (.double (N.dNeg v), err)
  | .float v => (.float (N.fNeg v), err)
  | .uint v => (.uint (-v), err)
  | .int v => (.int v, err)

def fEqZero (val1 : Value N) (err : Err) : Bool × Err :=
  match val1 with
  | .symbol _ => (false, .badexpr)
  | .double v => (N.dIsZero v, err)
  | .float v => (N.fIsZero v, err)
  | .uint v => (v = 0, err)
  | .int v => (v = 0, err)

/-! ## Constants -/

/-- The value of a digit in a base up to 16. -/
def digit (base : ℕ) (c : Char) : Option ℕ :=
  let d :=
    if '0' ≤ c ∧ c ≤ '9' then c.toNat - '0'.toNat
    else if 'a' ≤ c ∧ c ≤ 'f' then c.toNat - 'a'.toNat + 10
    else if 'A' ≤ c ∧ c ≤ 'F' then c.toNat - 'A'.toNat + 10
    else 16
  if d < base then some d else none

/-- The number the leading digits spell after `acc`, and what follows them. -/
def digits (base acc : ℕ) : List Char → ℕ × List Char
  | [] => (acc, [])
  | c :: p =>
    match digit base c with
    | some d => digits base (acc * base + d) p
    | none => (acc, c :: p)

/-- `strtol` and `strtoul` with base 0, on a text without sign: the number and `endp`. -/
def strtoBase0 (text : List Char) : ℕ × List Char :=
  match text with
  | '0' :: x :: p =>
    if x = 'x' ∨ x = 'X' then
      match p with
      | c :: _ => if (digit 16 c).isSome then digits 16 0 p else (0, x :: p)
      | [] => (0, x :: p)
    else digits 8 0 text
  | '0' :: [] => (0, [])
  | _ => digits 10 0 text

/-- A number too large for a `long` or an `unsigned long` sets `errno`; one that fits is
converted to 32 bits.  The text of a constant is never empty. -/
def constant (text : List Char) : Value N × Err :=
  let (n, endp) := strtoBase0 text
  if n < 2 ^ (N.longBits - 1) ∧ endp = [] then (.int (BitVec.ofNat 32 n), .noerr)
  else if n < 2 ^ N.longBits ∧ endp = [] then (.uint (BitVec.ofNat 32 n), .noerr)
  else
    match N.strtod text with
    | some v => (.double v, .noerr)
    | none => (errValue, .badconst)

/-! ## Recursive descent -/

/-- An identifier evaluator: the value of the identifier in `tok_buf`, and `eval_error`
after the call.  It is called with `eval_error` clear. -/
abbrev EvalIdent (N : Numerics) := List Char → Run (Value N × Err)

mutual

/-- `n` bounds the depth of the calls. -/
def factor (evalIdent : EvalIdent N) : ℕ → State → Run (Value N × State)
  | 0, _ => .error .depth
  | n + 1, es => do
    let (tok, es) ← peekNextToken es
    match tok with
    | .oparen =>
      let (_, es) ← getNextToken es
      let (val, es) ← expr evalIdent n es
      if es.evalError ≠ .noerr then return (errValue, es)
      else
        let (tok, es) ← peekNextToken es
        if tok ≠ .cparen then return (errValue, { es with evalError := .uparen })
        else
          let (_, es) ← getNextToken es
          return (val, es)
    | .minus =>
      let (_, es) ← getNextToken es
      let (val, es) ← factor evalIdent n es
      if es.evalError ≠ .noerr then return (errValue, es)
      else
        let (val, err) := fNeg val es.evalError
        return (val, { es with evalError := err })
    | .ident =>
      let (_, es) ← getNextToken es
      let (val, err) ← evalIdent es.tokBuf
      if err ≠ .noerr then return (errValue, { es with evalError := err })
      else return (val, { es with evalError := err })
    | .const =>
      let (_, es) ← getNextToken es
      let (val, err) := constant es.tokBuf
      if err ≠ .noerr then return (errValue, { es with evalError := err })
      else return (val, { es with evalError := err })
    | _ => return (errValue, { es with evalError := .noterm })

def term (evalIdent : EvalIdent N) : ℕ → State → Run (Value N × State)
  | 0, _ => .error .depth
  | n + 1, es => do
    let (val, es) ← factor evalIdent n es
    if es.evalError ≠ .noerr then return (errValue, es)
    else
      let (tok, es) ← peekNextToken es
      match tok with
      | .mult =>
        let (_, es) ← getNextToken es
        let (val1, es) ← term evalIdent n es
        let (val, err) ← fMult val val1 es.evalError
        if err ≠ .noerr then return (errValue, { es with evalError := err })
        else return (val, { es with evalError := err })
      | .div =>
        let (_, es) ← getNextToken es
        let (val1, es) ← term evalIdent n es
        if es.evalError ≠ .noerr then return (errValue, es)
        else
          let (isZero, err) := fEqZero val1 es.evalError
          if isZero then return (errValue, { es with evalError := .div0 })
          else
            let (val, err) ← fDiv val val1 err
            return (val, { es with evalError := err })
      | _ => return (val, es)

def expr (evalIdent : EvalIdent N) : ℕ → State → Run (Value N × State)
  | 0, _ => .error .depth
  | n + 1, es => do
    let (val, es) ← term evalIdent n es
    if es.evalError ≠ .noerr then return (errValue, es)
    else
      let (tok, es) ← peekNextToken es
      match tok with
      | .plus =>
        let (_, es) ← getNextToken es
        let (val1, es) ← expr evalIdent n es
        let (val, err) ← fAdd val val1 es.evalError
        if err ≠ .noerr then return (errValue, { es with evalError := err })
        else return (val, { es with evalError := err })
      | .minus =>
        let (_, es) ← getNextToken es
        let (val1, es) ← expr evalIdent n es
        let (val, err) ← fSub val val1 es.evalError
        if err ≠ .noerr then return (errValue, { es with evalError := err })
        else return (val, { es with evalError := err })
      | _ => return (val, es)

end

/-- What `eval_expr` leaves to its caller. -/
structure Evaluation (N : Numerics) where
  val : Value N
  endp : List Char
  evalError : Err

/-- The depth of the calls is at most three for every token that is left, the end of the
string counted (`parse_total`). -/
def evalExpr (evalIdent : EvalIdent N) (p : List Char) : Run (Evaluation N) := do
  let (val, es) ← expr evalIdent (3 * p.length + 3)
    { p, lastp := [], tokBuf := [], peekTok := .invalid, evalError := .noerr }
  return { val, endp := if es.peekTok ≠ .invalid then es.lastp else es.p,
           evalError := es.evalError }

end SimpleScalar.Eval

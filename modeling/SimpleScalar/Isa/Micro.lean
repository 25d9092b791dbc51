import SimpleScalar.Isa.Opcode

/-!
# The accessor language of the instruction definitions

An expression of `ss.def` touches the machine only through accessor macros
(`GPR`, `SET_GPR`, `READ_WORD`, `SET_NPC`, `IFAIL`, ...), and each simulator
defines the macros its own way before it includes the file.  `Micro` is the
language of those macros: one constructor for each access, with the rest of the
expression as its continuation.  An instruction is written once, in
`Isa/Def.lean`, and a simulator is an interpreter of `Micro`.

`SET_GPR(N, EXPR)` of `sim-outorder` first marks register `N` as copied and then
evaluates `EXPR`, so an `EXPR` that reads `N` sees the copy.  The marking is a
step of its own here (`use`), before the evaluation and the write (`put`).
-/

namespace SimpleScalar

/-- The `READ_*` macros. -/
inductive LoadKind where
  | signedByte | unsignedByte | signedHalf | unsignedHalf | word
  deriving DecidableEq, Repr

/-- The `WRITE_*` macros. -/
inductive StoreKind where
  | byte | half | word
  deriving DecidableEq, Repr

def LoadKind.size : LoadKind → Nat
  | signedByte => 1
  | unsignedByte => 1
  | signedHalf => 2
  | unsignedHalf => 2
  | word => 4

def StoreKind.size : StoreKind → Nat
  | byte => 1
  | half => 2
  | word => 4

/-- The casts a `READ_*` macro applies to the loaded value. -/
def LoadKind.extend : LoadKind → Nat → Word
  | signedByte, v => (BitVec.ofNat 8 v).signExtend 32
  | unsignedByte, v => (BitVec.ofNat 8 v).setWidth 32
  | signedHalf, v => (BitVec.ofNat 16 v).signExtend 32
  | unsignedHalf, v => (BitVec.ofNat 16 v).setWidth 32
  | word, v => BitVec.ofNat 32 v

inductive Micro (α : Type) : Type where
  | ret (a : α)
  | get (r : Reg) (k : Word → Micro α)
  | use (r : Reg) (k : Micro α)
  | put (r : Reg) (v : Word) (k : Micro α)
  | cpc (k : Word → Micro α)
  | setNpc (v : Word) (k : Micro α)
  | setTpc (v : Word) (k : Micro α)
  | load (t : LoadKind) (addr : Word) (k : Word → Micro α)
  | store (t : StoreKind) (addr v : Word) (k : Micro α)
  | ifail (msg : String) (k : Micro α)
  | syscall (k : Micro α)
  | undefined

namespace Micro

variable {α β : Type}

protected def bind : Micro α → (α → Micro β) → Micro β
  | ret a, f => f a
  | get r k, f => get r fun v => (k v).bind f
  | use r k, f => use r (k.bind f)
  | put r v k, f => put r v (k.bind f)
  | cpc k, f => cpc fun v => (k v).bind f
  | setNpc v k, f => setNpc v (k.bind f)
  | setTpc v k, f => setTpc v (k.bind f)
  | load t addr k, f => load t addr fun v => (k v).bind f
  | store t addr v k, f => store t addr v (k.bind f)
  | ifail msg k, f => ifail msg (k.bind f)
  | syscall k, f => syscall (k.bind f)
  | undefined, _ => undefined

instance : Monad Micro where
  pure := ret
  bind := Micro.bind

@[simp] theorem pure_eq (a : α) : (pure a : Micro α) = ret a := rfl

@[simp] theorem bind_eq (m : Micro α) (f : α → Micro β) : m >>= f = m.bind f := rfl

theorem bind_assoc {γ : Type} (m : Micro α) (f : α → Micro β) (g : β → Micro γ) :
    (m.bind f).bind g = m.bind fun a => (f a).bind g := by
  induction m with
  | ret a => rfl
  | get r k ih => exact congrArg (get r) (funext ih)
  | use r k ih => exact congrArg (use r) ih
  | put r v k ih => exact congrArg (put r v) ih
  | cpc k ih => exact congrArg cpc (funext ih)
  | setNpc v k ih => exact congrArg (setNpc v) ih
  | setTpc v k ih => exact congrArg (setTpc v) ih
  | load t addr k ih => exact congrArg (load t addr) (funext ih)
  | store t addr v k ih => exact congrArg (store t addr v) ih
  | ifail msg k ih => exact congrArg (ifail msg) ih
  | syscall k ih => exact congrArg syscall ih
  | undefined => rfl

theorem bind_ret (m : Micro α) : m.bind ret = m := by
  induction m with
  | ret a => rfl
  | get r k ih => exact congrArg (get r) (funext ih)
  | use r k ih => exact congrArg (use r) ih
  | put r v k ih => exact congrArg (put r v) ih
  | cpc k ih => exact congrArg cpc (funext ih)
  | setNpc v k ih => exact congrArg (setNpc v) ih
  | setTpc v k ih => exact congrArg (setTpc v) ih
  | load t addr k ih => exact congrArg (load t addr) (funext ih)
  | store t addr v k ih => exact congrArg (store t addr v) ih
  | ifail msg k ih => exact congrArg (ifail msg) ih
  | syscall k ih => exact congrArg syscall ih
  | undefined => rfl

end Micro

/-! ### Accessors

They carry the names of the macros.  A specifier of 32 or more indexes past the
register file. -/

def gpr (n : Nat) : Micro Word :=
  if h : n < 32 then .get (.r ⟨n, h⟩) .ret else .undefined

def setGpr (n : Nat) (e : Micro Word) : Micro Unit :=
  if h : n < 32 then .use (.r ⟨n, h⟩) (e.bind fun v => .put (.r ⟨n, h⟩) v (.ret ())) else .undefined

/-- `FPR_L`, and `FPR_F` with the bits of the float. -/
def fprL (n : Nat) : Micro Word :=
  if h : n < 32 then .get (.f ⟨n, h⟩) .ret else .undefined

def setFprL (n : Nat) (e : Micro Word) : Micro Unit :=
  if h : n < 32 then .use (.f ⟨n, h⟩) (e.bind fun v => .put (.f ⟨n, h⟩) v (.ret ())) else .undefined

/-- `FPR_D`: the double `regs_F.d[N >> 1]` overlays the words `N & ~1` and
`(N & ~1) + 1`. -/
def fprD (n : Nat) : Micro (Word × Word) := do
  let x ← fprL (evenFloor n)
  let y ← fprL (evenFloor n + 1)
  return (x, y)

/-- `SET_FPR_D`; the pair has a single copied-on-write bit. -/
def setFprD (n : Nat) (e : Micro (Word × Word)) : Micro Unit :=
  if h : evenFloor n + 1 < 32 then
    .use (.f ⟨evenFloor n, by omega⟩)
      (e.bind fun v => .put (.f ⟨evenFloor n, by omega⟩) v.1
        (.put (.f ⟨evenFloor n + 1, h⟩) v.2 (.ret ())))
  else .undefined

def hi : Micro Word := .get .hi .ret

def setHi (e : Micro Word) : Micro Unit := .use .hi (e.bind fun v => .put .hi v (.ret ()))

def lo : Micro Word := .get .lo .ret

def setLo (e : Micro Word) : Micro Unit := .use .lo (e.bind fun v => .put .lo v (.ret ()))

def fcc : Micro Word := .get .fcc .ret

def setFcc (e : Micro Word) : Micro Unit := .use .fcc (e.bind fun v => .put .fcc v (.ret ()))

def cpc : Micro Word := .cpc .ret

def setNpc (v : Word) : Micro Unit := .setNpc v (.ret ())

def setTpc (v : Word) : Micro Unit := .setTpc v (.ret ())

def ifail (msg : String) : Micro Unit := .ifail msg (.ret ())

def readSignedByte (addr : Word) : Micro Word := .load .signedByte addr .ret

def readUnsignedByte (addr : Word) : Micro Word := .load .unsignedByte addr .ret

def readSignedHalf (addr : Word) : Micro Word := .load .signedHalf addr .ret

def readUnsignedHalf (addr : Word) : Micro Word := .load .unsignedHalf addr .ret

def readWord (addr : Word) : Micro Word := .load .word addr .ret

def writeByte (v addr : Word) : Micro Unit := .store .byte addr v (.ret ())

def writeHalf (v addr : Word) : Micro Unit := .store .half addr v (.ret ())

def writeWord (v addr : Word) : Micro Unit := .store .word addr v (.ret ())

/-! ### Checks -/

/-- `OVER`: overflow of a signed sum. -/
def checkOver (x y : Word) : Micro Unit := do
  if 0 < x.toInt ∧ 0 < y.toInt ∧ 0x7fffffff - x.toInt < y.toInt then ifail "+ overflow"
  if x.toInt < 0 ∧ y.toInt < 0 ∧ -0x7fffffff - x.toInt > y.toInt then ifail "+ underflow"

/-- `UNDER`: overflow of a signed difference. -/
def checkUnder (x y : Word) : Micro Unit := do
  if 0 < x.toInt ∧ y.toInt < 0 ∧ 0x7fffffff + y.toInt < x.toInt then ifail "- overflow"
  if x.toInt < 0 ∧ 0 < y.toInt ∧ -0x7fffffff + y.toInt > x.toInt then ifail "- underflow"

/-- `DIV0`, on the outcome of its test. -/
def div0 (zero : Bool) : Micro Unit := if zero then ifail "divide by 0" else .ret ()

def intalign (n : Nat) : Micro Unit :=
  if n % 2 = 1 then ifail "bad INT register alignment" else .ret ()

def fpalign (n : Nat) : Micro Unit :=
  if n % 2 = 1 then ifail "bad FP register alignment" else .ret ()

def talign (targ : Word) : Micro Unit :=
  if targ &&& 0x7#32 ≠ 0 then ifail "bad jump alignment" else .ret ()

end SimpleScalar

import SimpleScalar.Safe
import SimpleScalar.Lib.Outcome

/-!
# Expressions with values

`Safe.run` executes an expression of `ss.def` for its effect.  Here an expression of any type is
evaluated: the value and the state after it.  `eval_bind` takes a `do` block apart, and there is
one equation for each accessor.
-/

namespace SimpleScalar

/-- `regs_R[n]`, in the file. -/
def gprOf (g : Reg → Word) (n : ℕ) : Word := if h : n < 32 then g (.r ⟨n, h⟩) else 0

def fprOf (g : Reg → Word) (n : ℕ) : Word := if h : n < 32 then g (.f ⟨n, h⟩) else 0

namespace Safe

section Eval

variable {α β : Type} (pf : Platform) (ld : Segments) (inst : Inst) (regsPC : Word)

/-- The accessor macros of `sim-safe.c`, with the value of the expression. -/
def eval : Micro α → Exec pf → Except Stop (α × Exec pf)
  | .ret a, x => .ok (a, x)
  | .get r k, x => eval (k (x.arch.regs r)) x
  | .use _ k, x => eval k x
  | .put r v k, x => eval k { x with arch := x.arch.setReg r v }
  | .cpc k, x => eval (k regsPC) x
  | .setNpc v k, x => eval k { x with nextPC := v }
  | .setTpc _ k, x => eval k x
  | .load t addr k, x => do
    memValid ld .read addr t.size
    eval (k (t.extend (join pf.bigEndian (x.arch.mem.bytes addr t.size)))) { x with addr := addr }
  | .store t addr v k, x => do
    memValid ld .write addr t.size
    eval k
      { x with
        arch := { x.arch with
          mem := x.arch.mem.store addr (split pf.bigEndian t.size v.toNat) }
        addr := addr }
  | .ifail msg _, _ => .error (.fatal msg)
  | .syscall k, x => do
    let (host, arch) ← ssSyscall pf ld inst x.host x.arch
    eval k { x with host := host, arch := arch }
  | .undefined, _ => .error .undefined

variable {k : Micro α} {x : Exec pf}

theorem eval_ret {a : α} : eval pf ld inst regsPC (.ret a) x = .ok (a, x) := rfl

theorem eval_use {r : Reg} :
    eval pf ld inst regsPC (.use r k) x = eval pf ld inst regsPC k x := rfl

theorem eval_load {t : LoadKind} {addr : Word} {k : Word → Micro α} :
    eval pf ld inst regsPC (.load t addr k) x = memValid ld .read addr t.size >>= fun _ =>
      eval pf ld inst regsPC (k (t.extend (join pf.bigEndian (x.arch.mem.bytes addr t.size))))
        { x with addr := addr } := rfl

theorem eval_store {t : StoreKind} {addr v : Word} :
    eval pf ld inst regsPC (.store t addr v k) x = memValid ld .write addr t.size >>= fun _ =>
      eval pf ld inst regsPC k
        { x with
          arch := { x.arch with mem := x.arch.mem.store addr (split pf.bigEndian t.size v.toNat) }
          addr := addr } := rfl

theorem eval_ifail {msg : String} :
    eval pf ld inst regsPC (.ifail msg k) x = .error (.fatal msg) := rfl

theorem eval_syscall :
    eval pf ld inst regsPC (.syscall k) x = ssSyscall pf ld inst x.host x.arch >>= fun r =>
      eval pf ld inst regsPC k { x with host := r.1, arch := r.2 } := rfl

theorem eval_undefined : eval pf ld inst regsPC (.undefined : Micro α) x = .error .undefined := rfl

theorem run_eq_eval (m : Micro Unit) : ∀ x : Exec pf,
    run pf ld inst regsPC m x = (eval pf ld inst regsPC m x).map Prod.snd := by
  induction m with
  | ret a => intro x; rfl
  | get r k ih => intro x; exact ih _ x
  | use r k ih => intro x; exact ih x
  | put r v k ih => intro x; exact ih _
  | cpc k ih => intro x; exact ih _ x
  | setNpc v k ih => intro x; exact ih _
  | setTpc v k ih => intro x; exact ih x
  | load t addr k ih =>
    intro x
    rw [run, eval_load]
    cases memValid ld .read addr t.size with
    | ok _ => exact ih _ _
    | error e => rfl
  | store t addr v k ih =>
    intro x
    rw [run, eval_store]
    cases memValid ld .write addr t.size with
    | ok _ => exact ih _
    | error e => rfl
  | ifail msg k ih => intro x; rfl
  | syscall k ih =>
    intro x
    rw [run, eval_syscall]
    cases ssSyscall pf ld inst x.host x.arch with
    | ok r => exact ih _
    | error e => rfl
  | undefined => intro x; rfl

theorem eval_bind (m : Micro α) (f : α → Micro β) : ∀ x : Exec pf,
    eval pf ld inst regsPC (m.bind f) x =
      eval pf ld inst regsPC m x >>= fun r => eval pf ld inst regsPC (f r.1) r.2 := by
  induction m with
  | ret a => intro x; rfl
  | get r k ih => intro x; exact ih _ x
  | use r k ih => intro x; exact ih x
  | put r v k ih => intro x; exact ih _
  | cpc k ih => intro x; exact ih _ x
  | setNpc v k ih => intro x; exact ih _
  | setTpc v k ih => intro x; exact ih x
  | load t addr k ih =>
    intro x
    rw [Micro.bind, eval_load, eval_load]
    cases memValid ld .read addr t.size with
    | ok _ => exact ih _ _
    | error e => rfl
  | store t addr v k ih =>
    intro x
    rw [Micro.bind, eval_store, eval_store]
    cases memValid ld .write addr t.size with
    | ok _ => exact ih _
    | error e => rfl
  | ifail msg k ih => intro x; rfl
  | syscall k ih =>
    intro x
    rw [Micro.bind, eval_syscall, eval_syscall]
    cases ssSyscall pf ld inst x.host x.arch with
    | ok r => exact ih _
    | error e => rfl
  | undefined => intro x; rfl

end Eval

variable {pf : Platform} {ld : Segments} {inst : Inst} {pc : Word} {x : Exec pf}

def Exec.put (x : Exec pf) (r : Reg) (v : Word) : Exec pf := { x with arch := x.arch.setReg r v }

theorem put_self (x : Exec pf) (r : Reg) : x.put r (x.arch.regs r) = x := by
  unfold Exec.put Arch.setReg
  rw [Function.update_eq_self]

theorem put_put (x : Exec pf) (r : Reg) (v w : Word) : (x.put r v).put r w = x.put r w := by
  unfold Exec.put Arch.setReg
  rw [Function.update_idem]

theorem regs_put (x : Exec pf) (r : Reg) (v : Word) : (x.put r v).arch.regs r = v := by
  simp [Exec.put, Arch.setReg]

theorem regs_put_of_ne {x : Exec pf} {r r' : Reg} (h : r' ≠ r) (v : Word) :
    (x.put r v).arch.regs r' = x.arch.regs r' := by
  simp [Exec.put, Arch.setReg, h]

section Accessors

variable {n : ℕ} {e : Micro Word}

theorem gpr_none (hn : ¬ n < 32) : gpr n = .undefined := dif_neg hn

theorem setGpr_none (hn : ¬ n < 32) : setGpr n e = .undefined := dif_neg hn

theorem fprL_none (hn : ¬ n < 32) : fprL n = .undefined := dif_neg hn

theorem setFprL_none (hn : ¬ n < 32) : setFprL n e = .undefined := dif_neg hn

theorem gpr_of_lt (hn : n < 32) : gpr n = .get (.r ⟨n, hn⟩) .ret := dif_pos hn

theorem setGpr_of_lt (hn : n < 32) : setGpr n e =
    .use (.r ⟨n, hn⟩) (e.bind fun v => .put (.r ⟨n, hn⟩) v (.ret ())) := dif_pos hn

theorem fprL_of_lt (hn : n < 32) : fprL n = .get (.f ⟨n, hn⟩) .ret := dif_pos hn

theorem setFprL_of_lt (hn : n < 32) : setFprL n e =
    .use (.f ⟨n, hn⟩) (e.bind fun v => .put (.f ⟨n, hn⟩) v (.ret ())) := dif_pos hn

theorem eval_gpr (hn : n < 32) :
    eval pf ld inst pc (gpr n) x = .ok (x.arch.regs (.r ⟨n, hn⟩), x) := by
  rw [gpr_of_lt hn]
  rfl

theorem eval_setGpr (hn : n < 32) : eval pf ld inst pc (setGpr n e) x =
    (eval pf ld inst pc e x).map fun r => ((), r.2.put (.r ⟨n, hn⟩) r.1) := by
  rw [setGpr_of_lt hn, eval_use, eval_bind]
  cases eval pf ld inst pc e x <;> rfl

theorem eval_fprL (hn : n < 32) :
    eval pf ld inst pc (fprL n) x = .ok (x.arch.regs (.f ⟨n, hn⟩), x) := by
  rw [fprL_of_lt hn]
  rfl

theorem eval_setFprL (hn : n < 32) : eval pf ld inst pc (setFprL n e) x =
    (eval pf ld inst pc e x).map fun r => ((), r.2.put (.f ⟨n, hn⟩) r.1) := by
  rw [setFprL_of_lt hn, eval_use, eval_bind]
  cases eval pf ld inst pc e x <;> rfl

/-- The columns of the tables, `0` where there is none. -/
def foreStep (size : ℕ) : ℕ → Word
  | 3 => BitVec.ofNat 32 size
  | 4 => -BitVec.ofNat 32 size
  | _ => 0

def aftStep (size : ℕ) : ℕ → Word
  | 1 => BitVec.ofNat 32 size
  | 2 => -BitVec.ofNat 32 size
  | _ => 0

theorem ssForeTab_eq {size op : ℕ} (h : op < 5) : ssForeTab size op = .ret (foreStep size op) := by
  match op with
  | 0 | 1 | 2 | 3 | 4 => rfl

theorem ssAftTab_eq {size op : ℕ} (h : op < 5) : ssAftTab size op = .ret (aftStep size op) := by
  match op with
  | 0 | 1 | 2 | 3 | 4 => rfl

end Accessors

/-! ### Expressions that return -/

section Returns

variable {α β : Type} {y : Exec pf} {n : ℕ} {a v : Word} {e : Micro Word} {u : Unit}

theorem eval_ret_ok {b c : α} : eval pf ld inst pc (.ret b) x = .ok (c, y) ↔ c = b ∧ y = x := by
  simp [eval_ret, eq_comm]

theorem eval_bind_ok {m : Micro α} {f : α → Micro β} {r : β × Exec pf} :
    eval pf ld inst pc (m.bind f) x = .ok r ↔
      ∃ b z, eval pf ld inst pc m x = .ok (b, z) ∧ eval pf ld inst pc (f b) z = .ok r := by
  rw [eval_bind, Outcome.bind_eq_ok, Prod.exists]

theorem eval_gpr_ok : eval pf ld inst pc (gpr n) x = .ok (v, y) ↔
    ∃ h : n < 32, v = x.arch.regs (.r ⟨n, h⟩) ∧ y = x := by
  by_cases hn : n < 32
  · rw [eval_gpr hn]
    simp [hn, eq_comm]
  · rw [gpr_none hn]
    simp [hn, eval_undefined]

theorem eval_fprL_ok : eval pf ld inst pc (fprL n) x = .ok (v, y) ↔
    ∃ h : n < 32, v = x.arch.regs (.f ⟨n, h⟩) ∧ y = x := by
  by_cases hn : n < 32
  · rw [eval_fprL hn]
    simp [hn, eq_comm]
  · rw [fprL_none hn]
    simp [hn, eval_undefined]

theorem eval_setGpr_ok : eval pf ld inst pc (setGpr n e) x = .ok (u, y) ↔
    ∃ (h : n < 32) (v : Word) (z : Exec pf), eval pf ld inst pc e x = .ok (v, z) ∧
      y = z.put (.r ⟨n, h⟩) v := by
  by_cases hn : n < 32
  · rw [eval_setGpr hn]
    cases eval pf ld inst pc e x with
    | ok r =>
      obtain ⟨v, z⟩ := r
      simp [hn, Except.map, eq_comm]
    | error e => simp [hn, Except.map]
  · rw [setGpr_none hn]
    simp [hn, eval_undefined]

theorem eval_setFprL_ok : eval pf ld inst pc (setFprL n e) x = .ok (u, y) ↔
    ∃ (h : n < 32) (v : Word) (z : Exec pf), eval pf ld inst pc e x = .ok (v, z) ∧
      y = z.put (.f ⟨n, h⟩) v := by
  by_cases hn : n < 32
  · rw [eval_setFprL hn]
    cases eval pf ld inst pc e x with
    | ok r =>
      obtain ⟨v, z⟩ := r
      simp [hn, Except.map, eq_comm]
    | error e => simp [hn, Except.map]
  · rw [setFprL_none hn]
    simp [hn, eval_undefined]

theorem eval_load_ok {t : LoadKind} : eval pf ld inst pc (.load t a .ret) x = .ok (v, y) ↔
    memValid ld .read a t.size = .ok () ∧
      v = t.extend (join pf.bigEndian (x.arch.mem.bytes a t.size)) ∧ y = { x with addr := a } := by
  rw [eval_load]
  cases memValid ld .read a t.size with
  | ok _ => simp [eval_ret, Outcome.ok_bind, eq_comm]
  | error e => simp [bind, Except.bind]

/-- The bytes of a store, and the local that keeps its address. -/
def Exec.write (x : Exec pf) (a : Word) (bs : List Byte) : Exec pf :=
  { x with
    arch := { x.arch with mem := x.arch.mem.store a bs }
    addr := a }

theorem eval_store_ok {t : StoreKind} : eval pf ld inst pc (.store t a v (.ret ())) x = .ok (u, y) ↔
    memValid ld .write a t.size = .ok () ∧
      y = x.write a (split pf.bigEndian t.size v.toNat) := by
  rw [eval_store]
  cases memValid ld .write a t.size with
  | ok _ => simp [eval_ret, Outcome.ok_bind, eq_comm, Exec.write]
  | error e => simp [bind, Except.bind]

theorem eval_intalign_ok : eval pf ld inst pc (intalign n) x = .ok (u, y) ↔ n % 2 = 0 ∧ y = x := by
  unfold intalign
  split <;> simp [eval_ret, eval_ifail, ifail, eq_comm] <;> omega

theorem eval_fpalign_ok : eval pf ld inst pc (fpalign n) x = .ok (u, y) ↔ n % 2 = 0 ∧ y = x := by
  unfold fpalign
  split <;> simp [eval_ret, eval_ifail, ifail, eq_comm] <;> omega

theorem run_ok {m : Micro Unit} :
    run pf ld inst pc m x = .ok y ↔ eval pf ld inst pc m x = .ok ((), y) := by
  rw [run_eq_eval]
  cases eval pf ld inst pc m x with
  | ok r =>
    obtain ⟨_, z⟩ := r
    simp [Except.map]
  | error e => simp [Except.map]

end Returns

end Safe

end SimpleScalar

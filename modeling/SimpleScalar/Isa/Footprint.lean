import SimpleScalar.Safe
import SimpleScalar.Lib.Outcome

/-!
# Footprints

What an expression of `ss.def` reads and writes.  `Micro.Footprint` is a judgement about an
expression: registers are read only from a set `S` or after the expression has written them,
and only registers of `O` change their value.  It is compositional (`footprint_bind`), and in
runs of `sim-safe` it means that only registers of `O` change (`run_footprint`) and that runs
from states which agree on `S` go the same way (`run_agree`).

`Foot` is the judgement for every register state; there is a rule for each accessor and for
each family of instructions.
-/

namespace SimpleScalar

/-! ### The judgement -/

namespace Micro

variable {α β : Type} {O : Reg → Prop}

/-- Registers are read from `S` or after they have been written, and only those of `O` may
change; `Q` holds of the result, of what may be read afterwards and of the registers. -/
def Footprint (O : Reg → Prop) (Q : α → (Reg → Prop) → (Reg → Word) → Prop) :
    Micro α → (Reg → Prop) → (Reg → Word) → Prop
  | ret a, S, g => Q a S g
  | get r k, S, g => S r ∧ Footprint O Q (k (g r)) S g
  | use _ k, S, g => Footprint O Q k S g
  | put r v k, S, g =>
    (O r ∨ v = g r) ∧ Footprint O Q k (fun x => S x ∨ x = r) (Function.update g r v)
  | cpc k, S, g => ∀ v, Footprint O Q (k v) S g
  | setNpc _ k, S, g => Footprint O Q k S g
  | setTpc _ k, S, g => Footprint O Q k S g
  | load _ _ k, S, g => ∀ v, Footprint O Q (k v) S g
  | store _ _ _ k, S, g => Footprint O Q k S g
  -- a fault ends the instruction
  | ifail _ _, _, _ => True
  | syscall _, _, _ => False
  | undefined, _, _ => True

theorem footprint_bind {f : α → Micro β} {Q : β → (Reg → Prop) → (Reg → Word) → Prop} :
    ∀ {m : Micro α} {S : Reg → Prop} {g : Reg → Word}, Footprint O Q (m.bind f) S g ↔
      Footprint O (fun a => Footprint O Q (f a)) m S g := by
  intro m
  induction m with
  | ret a => intro S g; exact Iff.rfl
  | get r k ih => intro S g; exact and_congr_right fun _ => ih _
  | use r k ih => intro S g; exact ih
  | put r v k ih => intro S g; exact and_congr_right fun _ => ih
  | cpc k ih => intro S g; exact forall_congr' fun v => ih v
  | setNpc v k ih => intro S g; exact ih
  | setTpc v k ih => intro S g; exact ih
  | load t addr k ih => intro S g; exact forall_congr' fun v => ih v
  | store t addr v k ih => intro S g; exact ih
  | ifail msg k ih => intro S g; exact Iff.rfl
  | syscall k ih => intro S g; exact Iff.rfl
  | undefined => intro S g; exact Iff.rfl

variable {m : Micro α}

/-- What may be read only grows. -/
theorem Footprint.grow {Q : α → (Reg → Prop) → (Reg → Word) → Prop} :
    ∀ {S₀ S : Reg → Prop} {g : Reg → Word}, Footprint O Q m S g → (∀ r, S₀ r → S r) →
      Footprint O (fun a S' g' => Q a S' g' ∧ ∀ r, S₀ r → S' r) m S g := by
  induction m with
  | ret a => intro S₀ S g h hS; exact ⟨h, hS⟩
  | get r k ih => intro S₀ S g h hS; exact ⟨h.1, ih _ h.2 hS⟩
  | use r k ih => intro S₀ S g h hS; exact ih h hS
  | put r v k ih => intro S₀ S g h hS; exact ⟨h.1, ih h.2 fun r hr => .inl (hS r hr)⟩
  | cpc k ih => intro S₀ S g h hS; exact fun v => ih v (h v) hS
  | setNpc v k ih => intro S₀ S g h hS; exact ih h hS
  | setTpc v k ih => intro S₀ S g h hS; exact ih h hS
  | load t addr k ih => intro S₀ S g h hS; exact fun v => ih v (h v) hS
  | store t addr v k ih => intro S₀ S g h hS; exact ih h hS
  | ifail msg k ih => intro S₀ S g h hS; trivial
  | syscall k ih => intro S₀ S g h hS; exact h
  | undefined => intro S₀ S g h hS; trivial

theorem Footprint.mono {Q R : α → (Reg → Prop) → (Reg → Word) → Prop}
    (hQR : ∀ a S g, Q a S g → R a S g) :
    ∀ {S : Reg → Prop} {g : Reg → Word}, Footprint O Q m S g → Footprint O R m S g := by
  induction m with
  | ret a => intro S g h; exact hQR a S g h
  | get r k ih => intro S g h; exact ⟨h.1, ih _ h.2⟩
  | use r k ih => intro S g h; exact ih h
  | put r v k ih => intro S g h; exact ⟨h.1, ih h.2⟩
  | cpc k ih => intro S g h; exact fun v => ih v (h v)
  | setNpc v k ih => intro S g h; exact ih h
  | setTpc v k ih => intro S g h; exact ih h
  | load t addr k ih => intro S g h; exact fun v => ih v (h v)
  | store t addr v k ih => intro S g h; exact ih h
  | ifail msg k ih => intro S g h; trivial
  | syscall k ih => intro S g h; exact h
  | undefined => intro S g h; trivial

/-- Nothing is asked of the result. -/
def Foot (O S : Reg → Prop) (m : Micro α) : Prop := ∀ g, Footprint O (fun _ _ _ => True) m S g

theorem Foot.weaken {S S' : Reg → Prop} (h : Foot O S m) (hS : ∀ r, S r → S' r) :
    Foot O S' m := by
  intro g
  suffices h' : ∀ {m : Micro α} {S S' : Reg → Prop} {g : Reg → Word},
      Footprint O (fun _ _ _ => True) m S g → (∀ r, S r → S' r) →
        Footprint O (fun _ _ _ => True) m S' g from h' (h g) hS
  intro m
  induction m with
  | ret a => intro S S' g _ _; trivial
  | get r k ih => intro S S' g h hS; exact ⟨hS r h.1, ih _ h.2 hS⟩
  | use r k ih => intro S S' g h hS; exact ih h hS
  | put r v k ih =>
    intro S S' g h hS
    exact ⟨h.1, ih h.2 fun r hr => hr.imp_left (hS r)⟩
  | cpc k ih => intro S S' g h hS; exact fun v => ih v (h v) hS
  | setNpc v k ih => intro S S' g h hS; exact ih h hS
  | setTpc v k ih => intro S S' g h hS; exact ih h hS
  | load t addr k ih => intro S S' g h hS; exact fun v => ih v (h v) hS
  | store t addr v k ih => intro S S' g h hS; exact ih h hS
  | ifail msg k ih => intro S S' g _ _; trivial
  | syscall k ih => intro S S' g h hS; exact h
  | undefined => intro S S' g _ _; trivial

theorem Foot.bind {f : α → Micro β} {S : Reg → Prop} (hm : Foot O S m)
    (hf : ∀ a, Foot O S (f a)) : Foot O S (m.bind f) := by
  intro g
  refine footprint_bind.mpr (((hm g).grow fun r hr => hr).mono fun a S' g' h => ?_)
  exact Foot.weaken (hf a) h.2 g'

/-! ### What it means for a run -/

section

variable {pf : Platform} {ld : Segments} {inst : Inst} {pc : Word}

/-- A run changes registers of `O` only. -/
theorem run_footprint : ∀ {m : Micro Unit} {S : Reg → Prop} {x x' : Safe.Exec pf},
    Footprint O (fun _ _ _ => True) m S x.arch.regs → Safe.run pf ld inst pc m x = .ok x' →
      ∀ r, ¬ O r → x'.arch.regs r = x.arch.regs r := by
  intro m
  induction m with
  | ret a => intro S x x' _ hRun r _; cases hRun; rfl
  | get r k ih => intro S x x' h hRun; exact ih _ h.2 hRun
  | use r k ih => intro S x x' h hRun; exact ih h hRun
  | put r v k ih =>
    intro S x x' h hRun r' hr'
    have hRest := ih (x := { x with arch := x.arch.setReg r v }) h.2 hRun r' hr'
    by_cases hr : r' = r
    · subst hr
      rw [hRest]
      show Function.update x.arch.regs r' v r' = _
      rw [Function.update_self]
      exact h.1.resolve_left hr'
    · rw [hRest]
      exact Function.update_of_ne hr ..
  | cpc k ih => intro S x x' h hRun; exact ih _ (h _) hRun
  | setNpc v k ih => intro S x x' h hRun; exact ih (x := { x with nextPC := v }) h hRun
  | setTpc v k ih => intro S x x' h hRun; exact ih h hRun
  | load t addr k ih =>
    intro S x x' h hRun
    obtain ⟨_, _, hRun⟩ := Outcome.bind_eq_ok.mp hRun
    exact ih _ (x := { x with addr := addr }) (h _) hRun
  | store t addr v k ih =>
    intro S x x' h hRun
    obtain ⟨_, _, hRun⟩ := Outcome.bind_eq_ok.mp hRun
    exact ih (x := { x with
      arch := { x.arch with mem := x.arch.mem.store addr (split pf.bigEndian t.size v.toNat) }
      addr := addr }) h hRun
  | ifail msg k ih => intro S x x' _ hRun; cases hRun
  | syscall k ih => intro S x x' h; exact h.elim
  | undefined => intro S x x' _ hRun; cases hRun

/-- The same but for registers outside `S`. -/
structure AgreeOn (S : Reg → Prop) (x y : Safe.Exec pf) : Prop where
  regs : ∀ r, S r → x.arch.regs r = y.arch.regs r
  mem : x.arch.mem = y.arch.mem
  host : x.host = y.host
  addr : x.addr = y.addr
  nextPC : x.nextPC = y.nextPC

/-- Each register has the same value on both sides, or is as it was at first. -/
def SameChanges (x₀ y₀ x y : Safe.Exec pf) : Prop :=
  ∀ r, x.arch.regs r = y.arch.regs r ∨
    x.arch.regs r = x₀.arch.regs r ∧ y.arch.regs r = y₀.arch.regs r

/-- Two runs stop for the same reason, or end with the same changes. -/
def SameOutcome (x₀ y₀ : Safe.Exec pf) : Except Stop (Safe.Exec pf) → Except Stop (Safe.Exec pf) →
    Prop
  | .error e, .error e' => e = e'
  | .ok x, .ok y => AgreeOn (fun _ => False) x y ∧ SameChanges x₀ y₀ x y
  | _, _ => False

/-- **Only the footprint matters.**  Runs from states that agree on `S` go the same way. -/
theorem run_agree {x₀ y₀ : Safe.Exec pf} : ∀ {m : Micro Unit} {S : Reg → Prop} {x y : Safe.Exec pf},
    Footprint O (fun _ _ _ => True) m S x.arch.regs → AgreeOn S x y → SameChanges x₀ y₀ x y →
      SameOutcome x₀ y₀ (Safe.run pf ld inst pc m x) (Safe.run pf ld inst pc m y) := by
  intro m
  induction m with
  | ret a =>
    intro S x y _ hAgree hSame
    exact ⟨{ hAgree with regs := fun _ h => h.elim }, hSame⟩
  | get r k ih =>
    intro S x y h hAgree hSame
    rw [Safe.run, Safe.run, ← hAgree.regs r h.1]
    exact ih _ h.2 hAgree hSame
  | use r k ih => intro S x y h hAgree hSame; exact ih h hAgree hSame
  | put r v k ih =>
    intro S x y h hAgree hSame
    have hPut : ∀ r', r' ≠ r → (x.arch.setReg r v).regs r' = x.arch.regs r' ∧
        (y.arch.setReg r v).regs r' = y.arch.regs r' := fun r' hr' =>
      ⟨Function.update_of_ne hr' .., Function.update_of_ne hr' ..⟩
    have hSelf : (x.arch.setReg r v).regs r = (y.arch.setReg r v).regs r := by
      simp [Arch.setReg]
    refine ih (x := { x with arch := x.arch.setReg r v }) (y := { y with arch := y.arch.setReg r v })
      h.2 { hAgree with regs := fun r' hr' => ?_ } fun r' => ?_
    · by_cases hr : r' = r
      · subst hr
        exact hSelf
      · rw [(hPut r' hr).1, (hPut r' hr).2]
        exact hAgree.regs r' (hr'.resolve_right hr)
    · by_cases hr : r' = r
      · subst hr
        exact .inl hSelf
      · rw [(hPut r' hr).1, (hPut r' hr).2]
        exact hSame r'
  | cpc k ih => intro S x y h hAgree hSame; exact ih _ (h _) hAgree hSame
  | setNpc v k ih =>
    intro S x y h hAgree hSame
    exact ih (x := { x with nextPC := v }) (y := { y with nextPC := v }) h
      { hAgree with nextPC := rfl } hSame
  | setTpc v k ih => intro S x y h hAgree hSame; exact ih h hAgree hSame
  | load t addr k ih =>
    intro S x y h hAgree hSame
    rw [Safe.run, Safe.run, ← hAgree.mem]
    cases memValid ld .read addr t.size with
    | error e => exact rfl
    | ok u =>
      exact ih _ (x := { x with addr := addr }) (y := { y with addr := addr }) (h _)
        { hAgree with addr := rfl } hSame
  | store t addr v k ih =>
    intro S x y h hAgree hSame
    rw [Safe.run, Safe.run]
    cases memValid ld .write addr t.size with
    | error e => exact rfl
    | ok u =>
      refine ih (x := { x with
          arch := { x.arch with mem := x.arch.mem.store addr (split pf.bigEndian t.size v.toNat) }
          addr := addr })
        (y := { y with
          arch := { y.arch with mem := y.arch.mem.store addr (split pf.bigEndian t.size v.toNat) }
          addr := addr }) h ⟨hAgree.regs, ?_, hAgree.host, rfl, hAgree.nextPC⟩ hSame
      rw [hAgree.mem]
  | ifail msg k ih => intro S x y _ _ _; exact rfl
  | syscall k ih => intro S x y h; exact h.elim
  | undefined => intro S x y _ _ _; exact rfl

end

end Micro

open Micro

variable {α : Type} {O S : Reg → Prop} {Q : α → (Reg → Prop) → (Reg → Word) → Prop}
  {g : Reg → Word}

attribute [simp] Footprint footprint_bind

@[simp] theorem footprint_ite {p : Prop} [Decidable p] {m n : Micro α} :
    Footprint O Q (if p then m else n) S g ↔ (p → Footprint O Q m S g) ∧ (¬p → Footprint O Q n S g) := by
  split <;> simp [*]

/-! ### Accessors -/

/-- The set has the integer register the specifier selects. -/
def HasR (S : Reg → Prop) (n : Nat) : Prop := ∀ h : n < 32, S (.r ⟨n, h⟩)

/-- The set has the floating point register the specifier selects. -/
def HasF (S : Reg → Prop) (n : Nat) : Prop := ∀ h : n < 32, S (.f ⟨n, h⟩)

variable {Q : Word → (Reg → Prop) → (Reg → Word) → Prop}

section

variable {n : Nat}

@[simp] theorem footprint_gpr :
    Footprint O Q (gpr n) S g ↔ ∀ h : n < 32, S (.r ⟨n, h⟩) ∧ Q (g (.r ⟨n, h⟩)) S g := by
  unfold gpr
  split <;> simp [*]

@[simp] theorem footprint_fprL :
    Footprint O Q (fprL n) S g ↔ ∀ h : n < 32, S (.f ⟨n, h⟩) ∧ Q (g (.f ⟨n, h⟩)) S g := by
  unfold fprL
  split <;> simp [*]

theorem footprint_fprD {Q : Word × Word → (Reg → Prop) → (Reg → Word) → Prop}
    (h₀ : HasF S (evenFloor n)) (h₁ : HasF S (evenFloor n + 1)) (hQ : ∀ v, Q v S g) :
    Footprint O Q (fprD n) S g := by
  simp only [fprD, Micro.bind_eq, Micro.pure_eq, footprint_bind, footprint_fprL, Footprint]
  exact fun h => ⟨h₀ h, fun h' => ⟨h₁ h', hQ _⟩⟩

variable {e : Micro Word}

theorem foot_setGpr (hO : HasR O n) (hE : Foot O S e) : Foot O S (setGpr n e) := by
  intro g
  unfold setGpr
  split
  · exact footprint_bind.mpr ((hE g).mono fun v S g _ => ⟨.inl (hO _), trivial⟩)
  · trivial

theorem foot_setFprL (hO : HasF O n) (hE : Foot O S e) : Foot O S (setFprL n e) := by
  intro g
  unfold setFprL
  split
  · exact footprint_bind.mpr ((hE g).mono fun v S g _ => ⟨.inl (hO _), trivial⟩)
  · trivial

theorem foot_setFprD {e : Micro (Word × Word)} (h₀ : HasF O (evenFloor n))
    (h₁ : HasF O (evenFloor n + 1)) (hE : Foot O S e) : Foot O S (setFprD n e) := by
  intro g
  unfold setFprD
  split
  · exact footprint_bind.mpr ((hE g).mono fun v S g _ => ⟨.inl (h₀ _), .inl (h₁ _), trivial⟩)
  · trivial

theorem foot_gpr (hS : HasR S n) : Foot O S (gpr n) :=
  fun _ => footprint_gpr.mpr fun h => ⟨hS h, trivial⟩

theorem foot_fprL (hS : HasF S n) : Foot O S (fprL n) :=
  fun _ => footprint_fprL.mpr fun h => ⟨hS h, trivial⟩

theorem foot_fprD (h₀ : HasF S (evenFloor n)) (h₁ : HasF S (evenFloor n + 1)) :
    Foot O S (fprD n) :=
  fun _ => footprint_fprD h₀ h₁ fun _ => trivial

theorem foot_ret (a : α) : Foot O S (.ret a) := fun _ => trivial

theorem foot_ite {p : Prop} [Decidable p] {m m' : Micro α} (h : Foot O S m) (h' : Foot O S m') :
    Foot O S (if p then m else m') := by
  split
  exacts [h, h']

theorem foot_ifail (msg : String) : Foot O S (ifail msg) := fun _ => trivial

theorem foot_setHi (hO : O .hi) (hE : Foot O S e) : Foot O S (setHi e) :=
  fun g => footprint_bind.mpr ((hE g).mono fun _ _ _ _ => ⟨.inl hO, trivial⟩)

theorem foot_setLo (hO : O .lo) (hE : Foot O S e) : Foot O S (setLo e) :=
  fun g => footprint_bind.mpr ((hE g).mono fun _ _ _ _ => ⟨.inl hO, trivial⟩)

theorem foot_setFcc (hO : O .fcc) (hE : Foot O S e) : Foot O S (setFcc e) :=
  fun g => footprint_bind.mpr ((hE g).mono fun _ _ _ _ => ⟨.inl hO, trivial⟩)

theorem foot_hi (hS : S .hi) : Foot O S hi := fun _ => ⟨hS, trivial⟩

theorem foot_lo (hS : S .lo) : Foot O S lo := fun _ => ⟨hS, trivial⟩

theorem foot_fcc (hS : S .fcc) : Foot O S fcc := fun _ => ⟨hS, trivial⟩

/-- What has been written may be read in what follows. -/
theorem foot_put_bind {r : Reg} {k : Micro Unit} (hO : O r) (hE : Foot O S e)
    (hk : Foot O (fun x => S x ∨ x = r) k) :
    Foot O S ((Micro.use r (e.bind fun v => .put r v (.ret ()))).bind fun _ => k) := by
  intro g
  refine footprint_bind.mpr (footprint_bind.mpr ?_)
  refine ((hE g).grow fun r hr => hr).mono fun v S' g' h => ⟨.inl hO, ?_⟩
  exact hk.weaken (fun r hr => hr.imp_left (h.2 r)) _

end

/-! ### Checks -/

theorem foot_over (x y : Word) : Foot O S (checkOver x y) := by
  intro g
  simp [checkOver, ifail]

theorem foot_under (x y : Word) : Foot O S (checkUnder x y) := by
  intro g
  simp [checkUnder, ifail]

theorem foot_div0 (b : Bool) : Foot O S (div0 b) := foot_ite (foot_ifail _) (foot_ret _)

theorem foot_talign (v : Word) : Foot O S (talign v) := foot_ite (foot_ifail _) (foot_ret _)

/-- Past the check, the specifier is even. -/
theorem foot_fpalign_bind {n : Nat} {k : Micro Unit} (hk : n % 2 = 0 → Foot O S k) :
    Foot O S ((fpalign n).bind fun _ => k) := by
  intro g
  unfold fpalign
  split
  · trivial
  · exact hk (by omega) g

/-! ### Families of instructions -/

section

variable {inst : Inst}

/-- The column of the table adds nothing when no update is asked for. -/
theorem footprint_ssForeTab {size op : Nat}
    (hQ : ∀ v, (op = 0 → v = 0) → Q v S g) : Footprint O Q (ssForeTab size op) S g := by
  unfold ssForeTab
  split <;> first | exact hQ _ (by simp) | trivial

theorem footprint_ssAftTab {size op : Nat}
    (hQ : ∀ v, (op = 0 → v = 0) → Q v S g) : Footprint O Q (ssAftTab size op) S g := by
  unfold ssAftTab
  split <;> first | exact hQ _ (by simp) | trivial

/-- An update of the base by a column of the tables. -/
theorem footprint_update {reg : Nat} {tab : Micro Word}
    {Q : Unit → (Reg → Prop) → (Reg → Word) → Prop}
    (hTab : ∀ {Q : Word → (Reg → Prop) → (Reg → Word) → Prop} {g},
      (∀ v, (inst.compOp = 0 → v = 0) → Q v S g) → Footprint O Q tab S g)
    (hS : HasR S reg) (hO : inst.compOp ≠ 0 → HasR O reg)
    (hQ : ∀ S' g', (∀ r, S r → S' r) → Q () S' g') :
    Footprint O Q (setGpr reg (do return (← gpr reg) + (← tab))) S g := by
  unfold setGpr gpr
  split
  · rename_i h
    refine footprint_bind.mpr ⟨hS h, (footprint_bind (m := tab)).mpr (hTab fun v hv => ?_)⟩
    refine ⟨?_, hQ _ _ fun r hr => .inl hr⟩
    by_cases hOp : inst.compOp = 0
    · right
      rw [hv hOp]
      exact BitVec.add_zero _
    · exact .inl (hO hOp h)
  · trivial

theorem foot_incDec {expr : Micro Unit} {reg size : Nat} (hS : HasR S reg)
    (hO : inst.compOp ≠ 0 → HasR O reg) (hE : Foot O S expr) :
    Foot O S (incDec inst expr reg size) := by
  intro g
  refine footprint_bind.mpr (footprint_update footprint_ssForeTab hS hO fun S₁ g₁ h₁ => ?_)
  refine footprint_bind.mpr (((hE.weaken h₁ g₁).grow fun r hr => hr).mono fun _ S₂ g₂ h₂ => ?_)
  exact footprint_update footprint_ssAftTab (fun h => h₂.2 _ (h₁ _ (hS h))) hO
    fun _ _ _ => trivial

theorem foot_dispAddr (hS : HasR S inst.rs) : Foot O S (dispAddr inst) :=
  .bind (foot_gpr hS) fun _ => foot_ret _

theorem foot_rrAddr (hS : HasR S inst.rs) (hD : HasR S inst.rd) : Foot O S (rrAddr inst) :=
  .bind (foot_gpr hS) fun _ => .bind (foot_gpr hD) fun _ => foot_ret _

theorem foot_load (t : LoadKind) (addr : Word) : Foot O S (.load t addr .ret) := fun _ _ => trivial

theorem foot_store (t : StoreKind) (addr v : Word) : Foot O S (.store t addr v (.ret ())) :=
  fun _ => trivial

variable {f : Word → Word → Word}

theorem foot_aluRR (hS : HasR S inst.rs) (hT : HasR S inst.rt)
    (hD : HasR O inst.rd) : Foot O S (aluRR inst f) :=
  foot_setGpr hD (.bind (foot_gpr hS) fun _ => .bind (foot_gpr hT) fun _ => foot_ret _)

theorem foot_aluRI {imm : Word} (hS : HasR S inst.rs)
    (hT : HasR O inst.rt) : Foot O S (aluRI inst imm f) :=
  foot_setGpr hT (.bind (foot_gpr hS) fun _ => foot_ret _)

theorem foot_branch {taken : Micro Bool} (h : Foot O S taken) : Foot O S (branch inst taken) :=
  .bind (fun _ _ => trivial) fun _ => .bind (fun _ => trivial) fun _ => .bind h fun _ =>
    foot_ite (.bind (fun _ _ => trivial) fun _ _ => trivial) (foot_ret _)

theorem foot_fpuRRS (hS : HasF S inst.rs) (hT : HasF S inst.rt)
    (hD : HasF O inst.rd) : Foot O S (fpuRRS inst f) :=
  foot_fpalign_bind fun _ => foot_fpalign_bind fun _ => foot_fpalign_bind fun _ =>
    foot_setFprL hD (.bind (foot_fprL hS) fun _ => .bind (foot_fprL hT) fun _ => foot_ret _)

/-- The set has both halves of the double the specifier selects. -/
def HasD (S : Reg → Prop) (n : Nat) : Prop := HasF S (evenFloor n) ∧ HasF S (evenFloor n + 1)

theorem foot_fpuRRD {f : Word × Word → Word × Word → Word × Word} (hS : HasD S inst.rs)
    (hT : HasD S inst.rt) (hD : HasD O inst.rd) : Foot O S (fpuRRD inst f) :=
  foot_fpalign_bind fun _ => foot_fpalign_bind fun _ => foot_fpalign_bind fun _ =>
    foot_setFprD hD.1 hD.2 (.bind (foot_fprD hS.1 hS.2) fun _ =>
      .bind (foot_fprD hT.1 hT.2) fun _ => foot_ret _)

theorem foot_fpuR {α β : Type} {set : Nat → Micro β → Micro Unit} {get : Nat → Micro α} {f : α → β}
    (hGet : Foot O S (get inst.rs)) (hSet : ∀ {e}, Foot O S e → Foot O S (set inst.rd e)) :
    Foot O S (fpuR inst set get f) :=
  foot_fpalign_bind fun _ => foot_fpalign_bind fun _ => hSet (.bind hGet fun _ => foot_ret _)

theorem foot_fpuCmp {α : Type} {get : Nat → Micro α} {f : α → α → Bool}
    (hS : Foot O S (get inst.rs)) (hT : Foot O S (get inst.rt)) (hO : O .fcc) :
    Foot O S (fpuCmp inst get f) :=
  foot_fpalign_bind fun _ => foot_fpalign_bind fun _ =>
    foot_setFcc hO (.bind hS fun _ => .bind hT fun _ => foot_ret _)

theorem foot_sraLoop {rd : Nat} (hS : HasR S rd) (hO : HasR O rd) :
    ∀ n, Foot O S (sraLoop rd n) := by
  intro n
  induction n with
  | zero => exact foot_ret _
  | succ n ih =>
    exact .bind (foot_setGpr hO (.bind (foot_gpr hS) fun _ => foot_ret _)) fun _ => ih

/-- The body of `InstSRA` and `InstSRAV`: the loop reads what has just been written. -/
theorem foot_sra {n : Nat} (hT : HasR S inst.rt) (hD : HasR O inst.rd) :
    Foot O S (do
      if signBit (← gpr inst.rt) then
        setGpr inst.rd (gpr inst.rt)
        sraLoop inst.rd n
      else
        setGpr inst.rd (do cSar (← gpr inst.rt) n)) := by
  refine .bind (foot_gpr hT) fun v => foot_ite ?_ ?_
  · unfold setGpr
    split
    · exact foot_put_bind (hD _) (foot_gpr hT) (foot_sraLoop (fun _ => .inr rfl) hD n)
    · exact fun _ => trivial
  · exact foot_setGpr hD (.bind (foot_gpr hT) fun _ => foot_ite (foot_ret _) fun _ => trivial)

/-- The loop reads `HI` and `LO`, which have been cleared. -/
theorem foot_multLoop {op1 op2 : Micro Word} (hHi : S .hi) (hLo : S .lo) (hOHi : O .hi)
    (hOLo : O .lo) (h1 : Foot O S op1) (h2 : Foot O S op2) : ∀ n, Foot O S (multLoop op1 op2 n) := by
  intro n
  have hLoOp : ∀ {f : Word → Word → Word}, Foot O S (do return f (← lo) (← op2)) :=
    .bind (foot_lo hLo) fun _ => .bind h2 fun _ => foot_ret _
  induction n with
  | zero => exact foot_ret _
  | succ n ih =>
    refine .bind (foot_setHi hOHi (.bind (foot_hi hHi) fun _ => foot_ret _)) fun _ => ?_
    refine .bind (foot_setHi hOHi (.bind (foot_hi hHi) fun _ => .bind (foot_lo hLo) fun _ =>
      foot_ret _)) fun _ => ?_
    refine .bind (foot_setLo hOLo (.bind (foot_lo hLo) fun _ => foot_ret _)) fun _ => ?_
    refine .bind h1 fun _ => foot_ite ?_ ih
    refine .bind (foot_lo hLo) fun _ => .bind h2 fun _ => foot_ite ?_ ?_
    · exact .bind (foot_setHi hOHi (.bind (foot_hi hHi) fun _ => foot_ret _)) fun _ =>
        .bind (foot_setLo hOLo hLoOp) fun _ => ih
    · exact .bind (foot_setLo hOLo hLoOp) fun _ => ih

theorem foot_instMULT (hS : HasR S inst.rs) (hT : HasR S inst.rt) (hHi : O .hi) (hLo : O .lo) :
    Foot O S (instMULT inst) := by
  refine foot_put_bind hHi (foot_ret _) (foot_put_bind hLo (foot_ret _) ?_)
  refine .bind (foot_gpr fun h => .inl (.inl (hS h))) fun op1 => ?_
  refine .bind (foot_gpr fun h => .inl (.inl (hT h))) fun op2 => ?_
  have hReadHi : Foot O (fun r => (S r ∨ r = .hi) ∨ r = .lo) hi := foot_hi (.inl (.inr rfl))
  have hReadLo : Foot O (fun r => (S r ∨ r = .hi) ∨ r = .lo) lo := foot_lo (.inr rfl)
  have hRest : ∀ (x y : Word) (neg : Prop) [Decidable neg],
      Foot O (fun r => (S r ∨ r = .hi) ∨ r = .lo) (do
        multLoop (.ret x) (.ret y) 31
        if neg then
          setLo (do return ~~~(← lo))
          setHi (do return ~~~(← hi))
          if (← lo) = 0xffffffff#32 then
            setHi (do return (← hi) + 1)
          setLo (do return (← lo) + 1)) := by
    intro x y neg _
    refine .bind (foot_multLoop (.inl (.inr rfl)) (.inr rfl) hHi hLo (foot_ret _) (foot_ret _) 31)
      fun _ => foot_ite ?_ (foot_ret _)
    refine .bind (foot_setLo hLo (.bind hReadLo fun _ => foot_ret _)) fun _ => ?_
    refine .bind (foot_setHi hHi (.bind hReadHi fun _ => foot_ret _)) fun _ => ?_
    refine .bind hReadLo fun _ => foot_ite (.bind ?_ fun _ => ?_) ?_
    · exact foot_setHi hHi (.bind hReadHi fun _ => foot_ret _)
    · exact foot_setLo hLo (.bind hReadLo fun _ => foot_ret _)
    · exact foot_setLo hLo (.bind hReadLo fun _ => foot_ret _)
  exact foot_ite (.bind (foot_setLo hLo (foot_ret _)) fun _ => hRest _ _ _) (hRest _ _ _)

theorem foot_instMULTU (hS : HasR S inst.rs) (hT : HasR S inst.rt) (hHi : O .hi) (hLo : O .lo) :
    Foot O S (instMULTU inst) := by
  refine foot_put_bind hHi (foot_ret _) (foot_put_bind hLo (foot_ret _) ?_)
  have hRs : Foot O (fun r => (S r ∨ r = .hi) ∨ r = .lo) (gpr inst.rs) :=
    foot_gpr fun h => .inl (.inl (hS h))
  have hRt : Foot O (fun r => (S r ∨ r = .hi) ∨ r = .lo) (gpr inst.rt) :=
    foot_gpr fun h => .inl (.inl (hT h))
  have hLoop := foot_multLoop (.inl (.inr rfl)) (.inr rfl) hHi hLo hRs hRt 31
  exact .bind hRs fun _ => foot_ite (.bind (foot_setLo hLo hRt) fun _ => hLoop) hLoop

end

end SimpleScalar

import SimpleScalar.Bpred.Trace

/-!
# The return-address stack

The stack is a ring of `n` addresses without a counter: calls overwrite the oldest address when
more than `n` of them are open, and returns without a call run around the ring.  What is in it
depends on the whole history of the program, but an address that a call puts there stays
as long as fewer than `n` calls are open above it (`Holds`).

* `return_predicted`: a return is predicted to go behind the call it belongs to.
-/

namespace SimpleScalar.Bpred

open Outcome

namespace Branch

def isCall (x : Branch) : Bool := x.op.has (F.ctrl ||| F.call)

/-- `jr $31` -/
def isReturn (x : Branch) : Bool := x.op = .jr && x.r31p

theorem not_isReturn_of_isCall {x : Branch} (h : x.isCall = true) : x.isReturn = false := by
  unfold isCall at h
  unfold isReturn
  have hOp : x.op ≠ .jr := by
    intro hEq
    rw [hEq] at h
    exact absurd h (by decide)
  rw [decide_eq_false hOp, Bool.false_and]

end Branch

/-- The number of calls without a return. -/
def opens (xs : List Branch) : Int := xs.countP Branch.isCall - xs.countP Branch.isReturn

/-- Between a call and its return: the call stays open all the time, its return comes next, and at
most `n` calls are open, the call itself included. -/
structure Enclosed (n : Nat) (xs : List Branch) : Prop where
  nested : ∀ ys ∈ xs.inits, 0 ≤ opens ys
  closed : opens xs = 0
  depth : ∀ ys ∈ xs.inits, opens ys + 1 ≤ n

theorem opens_cons (x : Branch) (xs : List Branch) :
    opens (x :: xs) = opens xs + (if x.isCall then 1 else 0) - if x.isReturn then 1 else 0 := by
  unfold opens
  rw [List.countP_cons, List.countP_cons]
  split <;> split <;> omega

/-! ### The ring -/

/-- The address `v` is in the stack, below `d` open calls. -/
structure Retstack.Holds (r : Retstack) (n t : Nat) (v : Word) (d : Nat) : Prop where
  size : r.size.toNat = n
  small : n < 2 ^ 31
  lt : t < n
  depth : d < n
  tos : r.tos.toNat = (t + d) % n
  value : r.stack t = v

namespace Retstack

/-- A call pushes an address. -/
def pushed (r : Retstack) (v : Word) : Retstack :=
  let tos := (r.tos + 1) % r.size
  { r with tos := tos, stack := Function.update r.stack tos.toNat v }

/-- A return pops one. -/
def popped (r : Retstack) : Retstack := { r with tos := (r.tos + r.size - 1) % r.size }

variable {r : Retstack} {n t d : Nat} {v w : Word}

theorem toNat_push (hSmall : r.size.toNat < 2 ^ 31) (hTos : r.tos.toNat < r.size.toNat) :
    (r.pushed w).tos.toNat = (r.tos.toNat + 1) % r.size.toNat := by
  show ((r.tos + 1) % r.size).toNat = _
  rw [BitVec.toNat_umod, BitVec.toNat_add, show BitVec.toNat (1 : Word) = 1 from rfl,
    Nat.mod_eq_of_lt (a := r.tos.toNat + 1) (by omega)]

theorem toNat_pop (hSmall : r.size.toNat < 2 ^ 31) (hTos : r.tos.toNat < r.size.toNat) :
    r.popped.tos.toNat = (r.tos.toNat + (r.size.toNat - 1)) % r.size.toNat := by
  show ((r.tos + r.size - 1) % r.size).toNat = _
  rw [BitVec.toNat_umod, BitVec.toNat_sub, BitVec.toNat_add, show BitVec.toNat (1 : Word) = 1 from rfl]
  congr 1
  omega

theorem Holds.ok (h : r.Holds n t v d) : r.tos.toNat < r.size.toNat := by
  rw [h.tos, h.size]
  exact Nat.mod_lt _ (by have := h.lt; omega)

/-- A call above the address. -/
theorem Holds.push (h : r.Holds n t v d) (hRoom : d + 1 < n) : (r.pushed w).Holds n t v (d + 1) := by
  have hTos : (r.pushed w).tos.toNat = (t + (d + 1)) % n := by
    rw [toNat_push (h.size.symm ▸ h.small) h.ok, h.tos, h.size, Nat.mod_add_mod, Nat.add_assoc]
  refine ⟨h.size, h.small, h.lt, hRoom, hTos, ?_⟩
  have hNe : t ≠ (r.pushed w).tos.toNat := by
    rw [hTos]
    have hLt := h.lt
    by_cases hWrap : t + (d + 1) < n
    · rw [Nat.mod_eq_of_lt hWrap]
      omega
    · rw [Nat.mod_eq_sub_mod (by omega), Nat.mod_eq_of_lt (by omega)]
      omega
  exact (Function.update_of_ne hNe ..).trans h.value

/-- A return above the address. -/
theorem Holds.pop (h : r.Holds n t v (d + 1)) : r.popped.Holds n t v d := by
  have hDepth := h.depth
  have hTos : r.popped.tos.toNat = (t + d) % n := by
    rw [toNat_pop (h.size.symm ▸ h.small) h.ok, h.tos, h.size, Nat.mod_add_mod,
      show t + (d + 1) + (n - 1) = t + d + n by omega, Nat.add_mod_right]
  exact ⟨h.size, h.small, h.lt, by omega, hTos, h.value⟩

/-- A call that has just been made. -/
theorem holds_pushed (hSmall : r.size.toNat < 2 ^ 31) (hSize : r.size ≠ 0) :
    (r.pushed v).Holds r.size.toNat (r.pushed v).tos.toNat v 0 := by
  have hLt : (r.pushed v).tos.toNat < r.size.toNat := toNat_mod_lt hSize
  refine ⟨rfl, hSmall, hLt, by omega, ?_, Function.update_self ..⟩
  rw [Nat.add_zero, Nat.mod_eq_of_lt hLt]

end Retstack

/-! ### Branches and the stack -/

variable {p p' : Predictor} {x : Branch} {addr : Word}

/-- What a branch does to the stack. -/
theorem process_retstack (h : p.Stateful) (hSize : p.retstack.size ≠ 0) (hOk : p.retstack.Ok)
    (hProcess : x.process p = .ok (addr, p')) :
    p'.Stateful ∧ p'.retstack = if x.isReturn then p.retstack.popped
      else if x.isCall then p.retstack.pushed (x.pc + 8) else p.retstack := by
  have hPopsEq : p.pops x.op x.r31p = x.isReturn := by
    rw [Predictor.pops, bne_iff_ne.mpr hSize, Bool.and_true]
    rfl
  cases hReturn : x.isReturn with
  | true =>
    obtain ⟨p₁, hPop, hStateful, -, hStack⟩ := x.process_pop h (hPopsEq.trans hReturn) (hOk hSize)
    obtain ⟨-, rfl⟩ : addr = _ ∧ p' = p₁ := by simpa using Except.ok.inj (hProcess.symm.trans hPop)
    exact ⟨hStateful, hStack⟩
  | false =>
    obtain ⟨hStateful, hStack⟩ := x.process_ok h (hPopsEq.trans hReturn) hProcess
    refine ⟨hStateful, hStack.trans ?_⟩
    have hPushes : p.pushes x.op = x.isCall := by
      rw [Predictor.pushes, bne_iff_ne.mpr hSize, Bool.and_true]
      rfl
    rw [if_neg (by decide), Predictor.push, hPushes]
    split <;> rfl

/-- The address stays while the calls above it come and go. -/
theorem holds_run {n t : Nat} {v : Word} : ∀ {xs : List Branch} {p p' : Predictor} {d : Nat}, p.Stateful →
    p.retstack.Holds n t v d → (∀ ys ∈ xs.inits, 0 ≤ d + opens ys ∧ d + opens ys + 1 ≤ n) →
    simBpred p xs = .ok p' → ∃ d' : Nat, (d' : Int) = d + opens xs ∧ p'.Stateful ∧ p'.retstack.Holds n t v d' := by
  intro xs
  induction xs with
  | nil =>
    intro p p' d hStateful hHolds _ hRun
    cases hRun
    exact ⟨d, by simp [opens], hStateful, hHolds⟩
  | cons x xs ih =>
    intro p p' d hStateful hHolds hDepth hRun
    obtain ⟨⟨addr, p₁⟩, hProcess, hRun⟩ := bind_eq_ok.mp hRun
    have hSize : p.retstack.size ≠ 0 := fun hZero => by
      have hLt := hHolds.lt
      rw [← hHolds.size, hZero] at hLt
      exact absurd hLt (Nat.not_lt_zero _)
    obtain ⟨hStateful₁, hStack⟩ := process_retstack hStateful hSize (fun _ => hHolds.ok) hProcess
    have hRest : ∀ ys ∈ xs.inits, x :: ys ∈ (x :: xs).inits := fun ys hys => by
      rw [List.mem_inits] at hys ⊢
      exact List.cons_prefix_cons.mpr ⟨rfl, hys⟩
    have hOne := hDepth [x] (hRest [] (by rw [List.mem_inits]; exact List.nil_prefix))
    have hCount := opens_cons x
    have hNil : opens [] = 0 := rfl
    rw [hCount, hNil] at hOne
    -- one more call, one call less, or the same number
    have hStep : ∃ d₁ : Nat, (d₁ : Int) = d + (if x.isCall then 1 else 0) - (if x.isReturn then 1 else 0) ∧
        p₁.retstack.Holds n t v d₁ := by
      rw [hStack]
      cases hReturn : x.isReturn with
      | true =>
        have hCall : x.isCall = false := by
          cases hCall : x.isCall with
          | false => rfl
          | true => rw [Branch.not_isReturn_of_isCall hCall] at hReturn; cases hReturn
        rw [hReturn, hCall] at hOne
        simp only [Bool.false_eq_true, if_false, if_true] at hOne
        obtain ⟨d₁, rfl⟩ : ∃ d₁, d = d₁ + 1 := ⟨d - 1, by omega⟩
        refine ⟨d₁, ?_, hHolds.pop⟩
        rw [hCall]
        simp
      | false =>
        cases hCall : x.isCall with
        | true =>
          rw [hReturn, hCall] at hOne
          simp only [Bool.false_eq_true, if_false, if_true] at hOne
          exact ⟨d + 1, by simp, hHolds.push (by omega)⟩
        | false => exact ⟨d, by simp, hHolds⟩
    obtain ⟨d₁, hd₁, hHolds₁⟩ := hStep
    obtain ⟨d', hd', hStateful', hHolds'⟩ := ih hStateful₁ hHolds₁ (fun ys hys => by
      have hIn := hDepth _ (hRest ys hys)
      rw [hCount] at hIn
      omega) hRun
    refine ⟨d', ?_, hStateful', hHolds'⟩
    rw [hd', hd₁, hCount]
    omega

theorem simBpred_append {xs ys : List Branch} : ∀ {p : Predictor},
    simBpred p (xs ++ ys) = simBpred p xs >>= fun p => simBpred p ys := by
  induction xs with
  | nil => intro p; rfl
  | cons x xs ih =>
    intro p
    rw [List.cons_append, simBpred, simBpred]
    cases hProcess : x.process p with
    | error e => rfl
    | ok r => exact ih

/-- Any run leaves a stack of the same size. -/
theorem stack_run {n : Word} (hn : n ≠ 0) : ∀ {xs : List Branch} {p p' : Predictor}, p.Stateful → p.retstack.Ok →
    p.retstack.size = n → simBpred p xs = .ok p' → p'.Stateful ∧ p'.retstack.Ok ∧ p'.retstack.size = n := by
  intro xs
  induction xs with
  | nil =>
    intro p p' hStateful hOk hSize hRun
    cases hRun
    exact ⟨hStateful, hOk, hSize⟩
  | cons x xs ih =>
    intro p p' hStateful hOk hSize hRun
    obtain ⟨⟨addr, p₁⟩, hProcess, hRun⟩ := bind_eq_ok.mp hRun
    obtain ⟨hStateful₁, hStack⟩ := process_retstack hStateful (by rw [hSize]; exact hn) hOk hProcess
    have hNext : p₁.retstack.Ok ∧ p₁.retstack.size = n := by
      rw [hStack]
      split
      · exact ⟨fun h => toNat_mod_lt h, hSize⟩
      · split
        · exact ⟨fun h => toNat_mod_lt h, hSize⟩
        · exact ⟨hOk, hSize⟩
    exact ih hStateful₁ hNext.1 hNext.2 hRun

/-- **Returns.**  However the program got there, the return of a call is predicted to the instruction
behind the call if the calls from this one on fit into the stack.  The run up to it does not fail if
the BTB has room for its entries. -/
theorem return_predicted {cls : Class} {z : Sizes} {p : Predictor} (h : create cls z = .ok p)
    (hCls : cls ≠ .taken ∧ cls ≠ .notTaken) (hn : z.retstackSize ≠ 0) (xs ys : List Branch) (c r : Branch)
    (hCall : c.isCall = true) (hReturn : r.isReturn = true) (hEnclosed : Enclosed z.retstackSize.toNat ys) :
    (∀ p', simBpred p (xs ++ c :: ys) = .ok p' → ∃ p'', r.process p' = .ok (c.pc + 8, p'')) ∧
    (z.btbSets.toNat * z.btbAssoc.toNat < 2 ^ 32 → (∀ x ∈ xs ++ c :: ys, x.pc ≠ 0) →
      ∃ p', simBpred p (xs ++ c :: ys) = .ok p') := by
  constructor
  · intro p' hRun
    obtain ⟨hStateful, -, hRetstack⟩ := create_cases h hCls
    obtain ⟨hSize, hOk, hSmall⟩ := createRetstack_ok hRetstack
    rw [simBpred_append] at hRun
    obtain ⟨p₁, hRun₁, hRun⟩ := bind_eq_ok.mp hRun
    obtain ⟨hStateful₁, hOk₁, hSize₁⟩ := stack_run hn hStateful hOk hSize hRun₁
    obtain ⟨⟨addr, p₂⟩, hProcess, hRun⟩ := bind_eq_ok.mp hRun
    obtain ⟨hStateful₂, hStack₂⟩ := process_retstack hStateful₁ (by rw [hSize₁]; exact hn) hOk₁ hProcess
    rw [Branch.not_isReturn_of_isCall hCall, hCall, if_neg (by decide), if_pos rfl] at hStack₂
    have hHolds := Retstack.holds_pushed (v := c.pc + 8) (hSize₁ ▸ hSmall) (hSize₁ ▸ hn)
    rw [← hStack₂, hSize₁] at hHolds
    obtain ⟨d, hd, hStateful₃, hHolds₃⟩ := holds_run hStateful₂ hHolds (fun zs hzs => by
      have hNested := hEnclosed.nested zs hzs
      have hDepth := hEnclosed.depth zs hzs
      exact ⟨by simpa using hNested, by simpa using hDepth⟩) hRun
    obtain rfl : d = 0 := by
      have hClosed := hEnclosed.closed
      rw [hClosed] at hd
      simpa using hd
    have hSize₃ : p'.retstack.size ≠ 0 := fun hZero => hn (BitVec.eq_of_toNat_eq (by rw [← hHolds₃.size, hZero]))
    have hPops : p'.pops r.op r.r31p = true := by
      rw [Predictor.pops, bne_iff_ne.mpr hSize₃, Bool.and_true]
      exact hReturn
    obtain ⟨p'', hPop, -⟩ := r.process_pop hStateful₃ hPops hHolds₃.ok
    refine ⟨p'', ?_⟩
    rw [hPop, hHolds₃.tos, Nat.add_zero, Nat.mod_eq_of_lt hHolds₃.lt, hHolds₃.value]
  · intro hRoom hPc
    obtain ⟨hRuns, -⟩ := Runs.create h hCls hRoom
    obtain ⟨p', hRun, -⟩ := hRuns.run hPc
    exact ⟨p', hRun⟩

/-- A call or return at `pc`. -/
def Branch.jump (pc : Word) (op : Opcode) (r31p : Bool) (nextPC : Word) (ctrl : op.has F.ctrl = true) : Branch :=
  ⟨pc, op, r31p, nextPC, nextPC, ⟨none, none, none, false, false, false⟩, ctrl⟩

/-- Six nested calls overrun a stack of four; the return of the innermost one is still right. -/
theorem return_predicted_overrun :
    let call : Branch := .jump 0x400000 .jal false 0x400000 (by decide)
    let ret : Branch := .jump 0x400010 .jr true 0x400008 (by decide)
    ∃ p p' p'', create .twoBit smallSizes = .ok p ∧ simBpred p [call, call, call, call, call, call] = .ok p' ∧
      ret.process p' = .ok (0x400008, p'') := by
  intro call ret
  obtain ⟨p, hp⟩ : ∃ p, create .twoBit smallSizes = .ok p := ⟨_, rfl⟩
  obtain ⟨hPredicted, hRuns⟩ := return_predicted hp (by decide) (by decide) [call, call, call, call, call] []
    call ret (by decide) (by decide) ⟨by decide, by decide, by decide⟩
  obtain ⟨p', hRun⟩ := hRuns (by decide) (by decide)
  obtain ⟨p'', hReturn⟩ := hPredicted p' hRun
  exact ⟨p, p', p'', hp, hRun, hReturn⟩

end SimpleScalar.Bpred

import SimpleScalar.Bpred.Btb

/-!
# Branches in program order

`sim-bpred.c`: each branch is looked up, and the predictor is updated with its outcome before the
next branch is looked up.  What the two calls do to the parts of a stateful predictor is stated
once for a return that uses the stack (`process_pop`) and once for any other branch
(`process_branch`); the direction predictors never make a call fail.

* `btb_is_lru`: the BTB is an LRU map of the taken branches.
-/

namespace SimpleScalar.Bpred

open Outcome Recency

/-! ### Updates -/

variable {b : Btb}

variable {correct : Bool} {hit : Option Nat}

namespace Predictor

/-- A predictor with tables, all of them there. -/
structure Stateful (p : Predictor) : Prop where
  sound : p.Sound
  cls : p.isStatic = false

/-- What every call leaves of the direction predictors. -/
structure Kept (p p' : Predictor) : Prop where
  stateful : p'.Stateful
  size : SameSize p p'

variable {p p' p'' : Predictor}

theorem Kept.trans (h : Kept p p') (h' : Kept p' p'') : Kept p p'' :=
  ⟨h'.stateful, fun T => (h'.size T).trans (h.size T)⟩

theorem Stateful.of_dirs (h : p.Stateful) (hDirs : SameDirs p p') : Kept p p' := by
  refine ⟨⟨hDirs.sound h.sound, ?_⟩, hDirs.size⟩
  rw [isStatic, hDirs.cls]
  exact h.cls

theorem Stateful.part (h : p.Stateful) : ∃ T : Part, T.In p := by
  have hCls := h.cls
  unfold isStatic at hCls
  cases hEq : p.cls with
  | comb => exact ⟨.bimod, .inl hEq⟩
  | twoLevel => exact ⟨.twolev, .inr hEq⟩
  | twoBit => exact ⟨.bimod, .inr hEq⟩
  | taken => rw [hEq] at hCls; cases hCls
  | notTaken => rw [hEq] at hCls; cases hCls

theorem push_dirs (p : Predictor) (baddr : Word) (op : Opcode) : SameDirs p (p.push baddr op) := by
  unfold push
  split <;> exact ⟨rfl, rfl, rfl, rfl⟩

theorem push_congr (h : p'.retstack = p.retstack) (baddr : Word) (op : Opcode) :
    (p'.push baddr op).retstack = (p.push baddr op).retstack := by
  unfold push pushes
  rw [h]
  split <;> simp only [h]

theorem push_btb (p : Predictor) (baddr : Word) (op : Opcode) : (p.push baddr op).btb = p.btb := by
  unfold push
  split <;> rfl

theorem Stateful.shift (h : p.Stateful) (baddr : Word) (taken : Bool) (op : Opcode) :
    ∃ p', p.shift baddr taken op = .ok p' ∧ Kept p p' ∧ p'.btb = p.btb ∧ p'.retstack = p.retstack := by
  unfold Predictor.shift
  split
  · rename_i hShift
    have hCls : p.cls = .comb ∨ p.cls = .twoLevel := by
      simp only [Bool.and_eq_true, Bool.or_eq_true, decide_eq_true_eq] at hShift
      exact hShift.2.symm
    obtain ⟨regs, hEq, hSound⟩ := (h.sound.twolev hCls).shift_eq baddr taken
    rw [hEq]
    refine ⟨_, rfl, ⟨⟨⟨h.sound.bimod, fun _ => hSound, h.sound.choice⟩, h.cls⟩, fun T => ?_⟩, rfl, rfl⟩
    cases T <;> rfl
  · exact ⟨p, rfl, ⟨h, fun _ => rfl⟩, rfl, rfl⟩

variable {u : Update}

theorem Stateful.train (h : p.Stateful) (hu : p.Fits u) (taken : Word) :
    ∃ p', p.train taken u = .ok p' ∧ Kept p p' ∧ p'.btb = p.btb ∧ p'.retstack = p.retstack :=
  ⟨_, train_eq hu taken, ⟨⟨h.sound.trained taken u, h.cls⟩, p.trained_size taken u⟩, rfl, rfl⟩

/-- The BTB after an update. -/
def learned (p : Predictor) (baddr btarget taken : Word) (correct : Bool) (op : Opcode) : Except Fault Btb :=
  if taken ≠ 0 then p.btb.learn baddr btarget correct op else .ok p.btb

variable {op : Opcode} {r31p : Bool}

/-- The stages of an update up to the BTB. -/
theorem Stateful.update_eq (h : p.Stateful) (hCtrl : op.has F.ctrl = true)
    (hPops : p.pops op r31p = false) (baddr btarget taken : Word) (predTaken correct : Bool) (u : Update) :
    ∃ p₂, Kept p p₂ ∧ p₂.btb = p.btb ∧ p₂.retstack = (p.push baddr op).retstack ∧
      p.update baddr btarget taken predTaken correct op r31p u = (do
        let (i, p) ← p₂.select baddr (decide (taken ≠ 0))
        let p ← p.train taken u
        p.enter i baddr btarget correct op) := by
  obtain ⟨p₀, hp₀⟩ : ∃ p₀, p₀ = { p with stats := p.tally (decide (taken ≠ 0)) predTaken correct op u } := ⟨_, rfl⟩
  have hKept₀ : Kept p p₀ := by rw [hp₀]; exact h.of_dirs ⟨rfl, rfl, rfl, rfl⟩
  have hBtb₀ : (p₀.push baddr op).btb = p.btb := by rw [push_btb, hp₀]
  have hStack₀ : (p₀.push baddr op).retstack = (p.push baddr op).retstack := push_congr (by rw [hp₀]) ..
  have hKept₁ := hKept₀.trans (hKept₀.stateful.of_dirs (p₀.push_dirs baddr op))
  obtain ⟨p₂, hShift, hKept₂, hBtb₂, hStack₂⟩ := hKept₁.stateful.shift baddr (decide (taken ≠ 0)) op
  refine ⟨p₂, hKept₁.trans hKept₂, hBtb₂.trans hBtb₀, hStack₂.trans hStack₀, ?_⟩
  have hStay : ¬ (p.pops op r31p || p.isStatic) = true := by rw [hPops, h.cls]; decide
  rw [hp₀] at hShift
  rw [Predictor.update, if_neg (by rw [hCtrl]; decide)]
  refine (if_neg hStay).trans ?_
  show ((push _ baddr op).shift baddr (decide (taken ≠ 0)) op >>= _) = _
  rw [hShift]
  rfl

variable {baddr btarget taken : Word}

/-- An update that gets past the return-address stack. -/
theorem Stateful.update (h : p.Stateful) (hu : p.Fits u) (hCtrl : op.has F.ctrl = true)
    (hPops : p.pops op r31p = false)
    (hb : p.learned baddr btarget taken correct op = .ok b) (predTaken : Bool) :
    ∃ p', p.update baddr btarget taken predTaken correct op r31p u = .ok p' ∧ Kept p p' ∧ p'.btb = b ∧
      p'.retstack = (p.push baddr op).retstack := by
  obtain ⟨p₂, hKept₂, hBtb₂, hStack₂, hUpdate⟩ :=
    h.update_eq hCtrl hPops baddr btarget taken predTaken correct u
  rw [hUpdate]
  unfold learned at hb
  by_cases hTaken : taken ≠ 0
  · rw [if_pos hTaken, ← hBtb₂] at hb
    obtain ⟨⟨i, b₁⟩, hSelect, hWrite⟩ := bind_eq_ok.mp hb
    have hWrite : b₁.write i baddr btarget correct op = .ok b := hWrite
    have hKept₃ : Kept p₂ { p₂ with btb := b₁ } := hKept₂.stateful.of_dirs ⟨rfl, rfl, rfl, rfl⟩
    have hFits := hu.congr (hKept₂.trans hKept₃).size
    obtain ⟨p₄, hTrain, hKept₄, hBtb₄, hStack₄⟩ := hKept₃.stateful.train hFits taken
    refine ⟨{ p₄ with btb := b }, ?_, ?_, rfl, hStack₄.trans hStack₂⟩
    · rw [Predictor.select, decide_eq_true hTaken, if_pos rfl, hSelect]
      show (Predictor.train { p₂ with btb := b₁ } taken u >>= _) = _
      rw [hTrain]
      show p₄.enter (some i) baddr btarget correct op = _
      rw [enter, hBtb₄]
      show (b₁.write i baddr btarget correct op >>= _) = _
      rw [hWrite]
      rfl
    · exact ((hKept₂.trans hKept₃).trans hKept₄).trans (hKept₄.stateful.of_dirs ⟨rfl, rfl, rfl, rfl⟩)
  · rw [if_neg hTaken] at hb
    cases hb
    have hFits := hu.congr hKept₂.size
    obtain ⟨p₄, hTrain, hKept₄, hBtb₄, hStack₄⟩ := hKept₂.stateful.train hFits taken
    refine ⟨p₄, ?_, hKept₂.trans hKept₄, hBtb₄.trans hBtb₂, hStack₄.trans hStack₂⟩
    rw [Predictor.select, decide_eq_false hTaken, if_neg (by decide)]
    show (p₂.train taken u >>= _) = _
    rw [hTrain]
    rfl

/-- Only the BTB can make an update fail. -/
theorem Stateful.update_ok (h : p.Stateful) (hu : p.Fits u) (hCtrl : op.has F.ctrl = true)
    (hPops : p.pops op r31p = false) {predTaken correct : Bool}
    (hOk : p.update baddr btarget taken predTaken correct op r31p u = .ok p') :
    ∃ b, p.learned baddr btarget taken correct op = .ok b := by
  unfold learned
  by_cases hTaken : taken ≠ 0
  · obtain ⟨p₂, hKept₂, hBtb₂, -, hUpdate⟩ := h.update_eq hCtrl hPops baddr btarget taken predTaken correct u
    rw [hUpdate, Predictor.select, decide_eq_true hTaken, if_pos rfl] at hOk
    obtain ⟨⟨i, q⟩, hChoice, hOk⟩ := bind_eq_ok.mp hOk
    obtain ⟨⟨j, b₁⟩, hSelect, hEq⟩ := bind_eq_ok.mp hChoice
    cases hEq
    obtain ⟨p₄, hTrain, hEnter⟩ := bind_eq_ok.mp hOk
    have hKept₃ : Kept p₂ { p₂ with btb := b₁ } := hKept₂.stateful.of_dirs ⟨rfl, rfl, rfl, rfl⟩
    obtain ⟨p₅, hTrain', -, hBtb₅, -⟩ := hKept₃.stateful.train (hu.congr (hKept₂.trans hKept₃).size) taken
    obtain rfl := Except.ok.inj (hTrain.symm.trans hTrain')
    obtain ⟨b, hWrite, -⟩ := bind_eq_ok.mp hEnter
    rw [hBtb₅] at hWrite
    refine ⟨b, ?_⟩
    rw [if_pos hTaken, ← hBtb₂, Btb.learn, hSelect]
    exact hWrite
  · exact ⟨p.btb, if_neg hTaken⟩

/-- A return that used the stack only counts. -/
theorem update_pop (hCtrl : op.has F.ctrl = true) (hPops : p.pops op r31p = true)
    (baddr btarget taken : Word) (predTaken correct : Bool) (u : Update) :
    p.update baddr btarget taken predTaken correct op r31p u =
      .ok { p with stats := p.tally (decide (taken ≠ 0)) predTaken correct op u } := by
  have hLeave : (p.pops op r31p || p.isStatic) = true := by rw [hPops]; rfl
  rw [Predictor.update, if_neg (by rw [hCtrl]; decide)]
  exact if_pos hLeave

/-! ### Lookups -/

/-- What a lookup leaves, apart from the return-address stack. -/
structure LookedUp (p : Predictor) (u : Update) (p' : Predictor) : Prop where
  kept : Kept p p'
  fits : p'.Fits u
  btb : p'.btb = p.btb

/-- A return is answered by the stack. -/
theorem Stateful.lookup_pop (h : p.Stateful) (hCtrl : op.has F.ctrl = true)
    (hPops : p.pops op r31p = true) (hTos : p.retstack.tos.toNat < p.retstack.size.toNat) (baddr btarget : Word)
    (before : Update) (idx : Word) :
    ∃ u idx' p', p.lookup baddr btarget op r31p before idx =
        .ok (p.retstack.stack p.retstack.tos.toNat, u, idx', p') ∧ p.LookedUp u p' ∧
      p'.retstack =
        { p.retstack with tos := (p.retstack.tos + p.retstack.size - 1) % p.retstack.size } := by
  obtain ⟨T, hIn⟩ := h.part
  have hSeen : Kept p p.seen := h.of_dirs ⟨rfl, rfl, rfl, rfl⟩
  obtain ⟨u, hRecord, hFits, -⟩ := record_eq hSeen.stateful.sound (show T.In p.seen from hIn) baddr op before
  rw [lookup_eq hCtrl h.cls, hRecord]
  have hPredict : p.seen.predict baddr op r31p u = p.seen.pop := if_pos hPops
  show ∃ u' idx' p', (p.seen.predict baddr op r31p u >>= _) = _ ∧ _
  have hTos : p.seen.retstack.tos.toNat < p.seen.retstack.size.toNat := hTos
  rw [hPredict, pop, if_pos hTos]
  exact ⟨u, _, _, rfl, ⟨h.of_dirs ⟨rfl, rfl, rfl, rfl⟩, hFits.congr fun T => by cases T <;> rfl, rfl⟩, rfl⟩

/-- Any other branch is answered by the BTB and the direction predictors. -/
theorem Stateful.lookup_branch (h : p.Stateful) (hCtrl : op.has F.ctrl = true)
    (hPops : p.pops op r31p = false) {baddr : Word} (hFind : p.btb.find baddr = .ok hit)
    (btarget : Word) (before : Update) (idx : Word) :
    ∃ addr u idx' p', p.lookup baddr btarget op r31p before idx = .ok (addr, u, idx', p') ∧ p.LookedUp u p' ∧
      p'.retstack = p.retstack ∧ (addr = 0 ∨ addr = (hit.map fun i => (p.btb.data i).target).getD 1) := by
  obtain ⟨T, hIn⟩ := h.part
  have hSeen : Kept p p.seen := h.of_dirs ⟨rfl, rfl, rfl, rfl⟩
  obtain ⟨u, hRecord, hFits, -, hCond⟩ := record_eq hSeen.stateful.sound (show T.In p.seen from hIn) baddr op before
  have hTarget : ∃ addr, p.seen.target baddr op u = .ok addr ∧
      (addr = 0 ∨ addr = (hit.map fun i => (p.btb.data i).target).getD 1) := by
    have hFind : p.seen.btb.find baddr = .ok hit := hFind
    unfold target
    rw [hFind]
    show ∃ addr, (if uncond op then _ else _) = _ ∧ _
    by_cases hOp : uncond op = true
    · rw [if_pos hOp]
      exact ⟨_, rfl, .inr rfl⟩
    · obtain ⟨d, hDir⟩ := hFits.direction_eq (hCond (by simpa using hOp)).1
      rw [if_neg hOp, hDir]
      cases d with
      | true => exact ⟨_, rfl, .inr rfl⟩
      | false => exact ⟨_, rfl, .inl rfl⟩
  obtain ⟨addr, hTarget, hAddr⟩ := hTarget
  have hPredict : p.seen.predict baddr op r31p u = .ok (addr, p.seen) := by
    have hPops : p.seen.pops op r31p = false := hPops
    rw [predict, hPops, if_neg (by decide), hTarget]
    rfl
  rw [lookup_eq hCtrl h.cls, hRecord]
  show ∃ addr u' idx' p', (p.seen.predict baddr op r31p u >>= _) = _ ∧ _
  rw [hPredict]
  exact ⟨addr, u, _, p.seen, rfl, ⟨hSeen, hFits, rfl⟩, rfl, hAddr⟩

end Predictor

/-! ### One branch -/

/-- A control instruction of `sim_main`: where it is, where it went, and what was in the update
record before. -/
structure Branch where
  pc : Word
  op : Opcode
  r31p : Bool
  targetPC : Word
  nextPC : Word
  before : Update
  ctrl : op.has F.ctrl = true

namespace Branch

/-- `taken?` -/
def taken (x : Branch) : Bool := x.nextPC ≠ x.pc + 8

/-- The lookup and the update of `sim_main`: the address the predictor returned, and the
predictor. -/
def process (x : Branch) (p : Predictor) : Except Fault (Word × Predictor) := do
  let (addr, u, _, p) ← p.lookup x.pc x.targetPC x.op x.r31p x.before 0
  -- no predicted taken target: the not taken target
  let predPC := if addr = 0 then x.pc + 8 else addr
  let p ← p.update x.pc x.nextPC (if x.taken then 1 else 0) (decide (predPC ≠ x.pc + 8))
    (decide (predPC = x.nextPC)) x.op x.r31p u
  return (addr, p)

variable {x : Branch} {p : Predictor}

/-- A return that uses the stack moves its top and changes nothing else. -/
theorem process_pop (h : p.Stateful) (hPops : p.pops x.op x.r31p = true)
    (hTos : p.retstack.tos.toNat < p.retstack.size.toNat) :
    ∃ p', x.process p = .ok (p.retstack.stack p.retstack.tos.toNat, p') ∧ p'.Stateful ∧ p'.btb = p.btb ∧
      p'.retstack =
        { p.retstack with tos := (p.retstack.tos + p.retstack.size - 1) % p.retstack.size } := by
  obtain ⟨u, idx, p₁, hLookup, hLooked, hStack⟩ := h.lookup_pop x.ctrl hPops hTos x.pc x.targetPC x.before 0
  have hPops₁ : p₁.pops x.op x.r31p = true := by
    unfold Predictor.pops at hPops ⊢
    rw [hStack]
    exact hPops
  unfold process
  rw [hLookup]
  show ∃ p', (p₁.update _ _ _ _ _ _ _ _ >>= _) = _ ∧ _
  rw [Predictor.update_pop x.ctrl hPops₁]
  refine ⟨_, rfl, (hLooked.kept.stateful.of_dirs ?_).stateful, hLooked.btb, hStack⟩
  exact ⟨rfl, rfl, rfl, rfl⟩

/-- A branch that does not use the stack.  If it was taken as predicted, the BTB knew its target. -/
theorem process_branch (h : p.Stateful) (hPops : p.pops x.op x.r31p = false)
    (hFind : p.btb.find x.pc = .ok hit) :
    ∃ addr correct, (x.taken = true → correct = true → ∀ i, hit = some i → (p.btb.data i).target = x.nextPC) ∧
      ∀ b, p.learned x.pc x.nextPC (if x.taken then 1 else 0) correct x.op = .ok b →
        ∃ p', x.process p = .ok (addr, p') ∧ p'.Stateful ∧ p'.btb = b ∧
          p'.retstack = (p.push x.pc x.op).retstack := by
  obtain ⟨addr, u, idx, p₁, hLookup, hLooked, hStack, hAddr⟩ :=
    h.lookup_branch x.ctrl hPops hFind x.targetPC x.before 0
  have hPops₁ : p₁.pops x.op x.r31p = false := by
    unfold Predictor.pops at hPops ⊢
    rw [hStack]
    exact hPops
  refine ⟨addr, decide ((if addr = 0 then x.pc + 8 else addr) = x.nextPC), fun hTaken hCorrect i hi => ?_, ?_⟩
  · have hTaken : x.nextPC ≠ x.pc + 8 := of_decide_eq_true hTaken
    have hCorrect := of_decide_eq_true hCorrect
    by_cases hZero : addr = 0
    · rw [if_pos hZero] at hCorrect
      exact absurd hCorrect.symm hTaken
    · rw [if_neg hZero] at hCorrect
      have hKnown := hAddr.resolve_left hZero
      rw [hi] at hKnown
      exact hKnown.symm.trans hCorrect
  · intro b hb
    have hb₁ : p₁.learned x.pc x.nextPC (if x.taken then 1 else 0)
        (decide ((if addr = 0 then x.pc + 8 else addr) = x.nextPC)) x.op = .ok b := by
      unfold Predictor.learned at hb ⊢
      rw [hLooked.btb]
      exact hb
    obtain ⟨p₂, hUpdate, hKept, hBtb, hPush⟩ := hLooked.kept.stateful.update hLooked.fits x.ctrl hPops₁ hb₁
      (decide ((if addr = 0 then x.pc + 8 else addr) ≠ x.pc + 8))
    refine ⟨p₂, ?_, hKept.stateful, hBtb, ?_⟩
    · unfold process
      rw [hLookup]
      show (p₁.update _ _ _ _ _ _ _ _ >>= _) = _
      rw [hUpdate]
      rfl
    · exact hPush.trans (Predictor.push_congr hStack ..)

/-- A branch that is processed at all. -/
theorem process_ok (h : p.Stateful) (hPops : p.pops x.op x.r31p = false) {addr : Word} {p' : Predictor}
    (hOk : x.process p = .ok (addr, p')) :
    p'.Stateful ∧ p'.retstack = (p.push x.pc x.op).retstack := by
  obtain ⟨⟨addr', u, idx, p₁⟩, hLookup, hRest⟩ := bind_eq_ok.mp hOk
  obtain ⟨p₂, hUpdate, hEq⟩ := bind_eq_ok.mp hRest
  cases hEq
  have hFind : ∃ hit, p.btb.find x.pc = .ok hit := by
    rw [Predictor.lookup_eq x.ctrl h.cls] at hLookup
    obtain ⟨u', -, hLookup⟩ := bind_eq_ok.mp hLookup
    obtain ⟨⟨addr', p₂⟩, hPredict, -⟩ := bind_eq_ok.mp hLookup
    have hPops : p.seen.pops x.op x.r31p = false := hPops
    rw [Predictor.predict, hPops, if_neg (by decide)] at hPredict
    obtain ⟨addr'', hTarget, -⟩ := bind_eq_ok.mp hPredict
    obtain ⟨hit, hFind, -⟩ := bind_eq_ok.mp hTarget
    exact ⟨hit, hFind⟩
  obtain ⟨hit, hFind⟩ := hFind
  obtain ⟨addr'', u', idx', p₁', hLookup', hLooked, hStack, -⟩ :=
    h.lookup_branch x.ctrl hPops hFind x.targetPC x.before 0
  obtain ⟨rfl, rfl, rfl, rfl⟩ : addr = addr'' ∧ u = u' ∧ idx = idx' ∧ p₁ = p₁' := by
    simpa using Except.ok.inj (hLookup.symm.trans hLookup')
  have hPops₁ : p₁.pops x.op x.r31p = false := by
    unfold Predictor.pops at hPops ⊢
    rw [hStack]
    exact hPops
  obtain ⟨b, hb⟩ := hLooked.kept.stateful.update_ok hLooked.fits x.ctrl hPops₁ hUpdate
  obtain ⟨p₃, hUpdate', hKept, -, hPush⟩ := hLooked.kept.stateful.update hLooked.fits x.ctrl hPops₁ hb _
  obtain rfl := Except.ok.inj (hUpdate.symm.trans hUpdate')
  exact ⟨hKept.stateful, hPush.trans (Predictor.push_congr hStack ..)⟩

end Branch

/-- The predictor after a sequence of branches. -/
def simBpred (p : Predictor) : List Branch → Except Fault Predictor
  | [] => .ok p
  | x :: xs => do
    let (_, p) ← x.process p
    simBpred p xs

/-! ### The BTB -/

/-- The taken branches that do not use the return-address stack, newest first, with their targets. -/
def history (p : Predictor) (xs : List Branch) : List (Word × Word) :=
  ((xs.filter fun x => x.taken && !p.pops x.op x.r31p).map fun x => (x.pc, x.nextPC)).reverse

/-- Each set holds the latest branches of a history that belong to it, in the order of its chain, each
with its latest target. -/
structure IsLru (b : Btb) (h : List (Word × Word)) : Prop where
  chain : ∀ k < b.sets.toNat, ∃ l, b.ChainOf k l ∧ Packed b.lab l ∧
    contents b.lab l = (latest ((h.filter fun e => b.set e.1 = k).map Prod.fst)).take b.assoc.toNat
  target : ∀ i < b.len, (b.data i).addr ≠ 0 → (h.find? fun e => e.1 = (b.data i).addr) = some (b.entry i)
  unique : ∀ k < b.sets.toNat, ∀ i ∈ b.ways k, ∀ j ∈ b.ways k, (b.data i).addr ≠ 0 →
    (b.data i).addr = (b.data j).addr → i = j

variable {h : List (Word × Word)}

theorem isLru_of
    (hChain : ∀ k < b.sets.toNat, ∃ l, b.ChainOf k l ∧ Packed b.lab l ∧
      contents b.lab l = (latest ((h.filter fun e => b.set e.1 = k).map Prod.fst)).take b.assoc.toNat)
    (hTarget : ∀ i < b.len, (b.data i).addr ≠ 0 → (h.find? fun e => e.1 = (b.data i).addr) = some (b.entry i)) :
    IsLru b h := by
  refine ⟨hChain, hTarget, fun k hk i hi j hj hAddr hEq => ?_⟩
  obtain ⟨l, hl, hPacked, -⟩ := hChain k hk
  exact hPacked.distinct i (hl.mem.mpr hi) j (hl.mem.mpr hj) _ ((Btb.lab_eq_some hAddr).mpr rfl)
    ((Btb.lab_eq_some hAddr).mpr hEq.symm)

/-- A taken branch joins the history. -/
theorem IsLru.learn (hLru : IsLru b h) (hGood : b.Good) {pc t : Word}
    (hPc : pc ≠ 0) (op : Opcode)
    (hCorrect : correct = true → ∀ i ∈ b.ways (b.set pc), (b.data i).addr = pc → (b.data i).target = t) :
    ∃ b', b.learn pc t correct op = .ok b' ∧ b'.Good ∧ b'.sets = b.sets ∧ b'.assoc = b.assoc ∧
      IsLru b' ((pc, t) :: h) := by
  obtain ⟨l, hChain, hPacked, hContents⟩ := hLru.chain _ (Btb.set_lt hGood.sets pc)
  obtain ⟨i, b', hLearn, hLearned, hMatch⟩ := Btb.learn_spec hGood hPc hChain hPacked t correct op
  have hTarget : (if (b.data i).addr = pc ∧ correct = true then (b.data i).target else t) = t := by
    split
    · rename_i hHit
      exact hCorrect hHit.2 i (hChain.mem.mp hLearned.mem) hHit.1
    · rfl
  rw [hTarget] at hLearned
  have hSet : ∀ a, b'.set a = b.set a := fun a => by rw [Btb.set, Btb.set, hLearned.sets]
  refine ⟨b', hLearn, hLearned.good hGood hPc hChain hPacked hMatch, hLearned.sets, hLearned.assoc,
    isLru_of (fun k hk => ?_) (fun j hj hAddr => ?_)⟩
  · rw [hLearned.sets] at hk
    simp only [hSet, hLearned.assoc]
    by_cases hEq : k = b.set pc
    · subst hEq
      obtain ⟨hPacked', hContents'⟩ := hLearned.packed hPc hChain hPacked hMatch
      refine ⟨_, hLearned.chain, hPacked', ?_⟩
      rw [hContents', hContents, access_latest hGood.assoc, List.filter_cons_of_pos (by simp)]
      rfl
    · obtain ⟨l', hl', hPacked', hContents'⟩ := hLru.chain k hk
      obtain ⟨hChain', hEntry⟩ := hLearned.other hChain hEq hl'
      have hLab : ∀ j ∈ l', b'.lab j = b.lab j := fun j hj => Btb.lab_of_entry (hEntry j hj)
      refine ⟨l', hChain', hPacked'.congr hLab, ?_⟩
      rw [contents_congr hLab, hContents', List.filter_cons_of_neg (by simpa using Ne.symm hEq)]
  · have hEntry := congrFun hLearned.entry j
    by_cases hji : j = i
    · subst hji
      rw [Function.update_self] at hEntry
      have hAddr' : (b'.data j).addr = pc := congrArg Prod.fst hEntry
      rw [hEntry, hAddr', List.find?_cons_of_pos (by simp)]
    · rw [Function.update_of_ne hji] at hEntry
      have hSame : (b'.data j).addr = (b.data j).addr := congrArg Prod.fst hEntry
      rw [hSame] at hAddr ⊢
      rw [hLearned.len] at hj
      have hOther : pc ≠ (b.data j).addr := by
        intro hEq
        -- the set of the entry is the one of its address, and there the branch has its entry
        obtain ⟨k, hk, hIn⟩ := Btb.exists_ways hGood.len hj
        obtain ⟨l', hl', -, hContents'⟩ := hLru.chain k hk
        have hMem : pc ∈ contents b.lab l' :=
          mem_contents.mpr ⟨j, hl'.mem.mpr hIn, (Btb.lab_eq_some hPc).mpr hEq.symm⟩
        rw [hContents'] at hMem
        have hMem := mem_of_mem_latest (List.mem_of_mem_take hMem)
        obtain ⟨e, he, rfl⟩ := List.mem_map.mp hMem
        obtain rfl : b.set e.1 = k := by simpa using (List.mem_filter.mp he).2
        have hMem' : j ∈ i :: l.erase i := hLearned.chain.mem.mpr (by
          rw [Btb.ways, hLearned.assoc]
          exact hIn)
        have hFirst := (hLearned.packed hPc hChain hPacked hMatch).1.distinct i (by simp) j hMem' e.1
        rw [hLearned.lab hPc, Function.update_self, Function.update_of_ne hji, Btb.lab_eq_some hPc] at hFirst
        exact hji (hFirst rfl hEq.symm).symm
      rw [hEntry, List.find?_cons_of_neg (by simpa using hOther)]
      exact hLru.target j hj hAddr

/-! ### Runs -/

/-- The top of the stack is in the stack. -/
def Retstack.Ok (r : Retstack) : Prop := r.size ≠ 0 → r.tos.toNat < r.size.toNat

theorem toNat_mod_lt {a n : Word} (h : n ≠ 0) : (a % n).toNat < n.toNat := by
  rw [BitVec.toNat_umod]
  exact Nat.mod_lt _ (Nat.pos_of_ne_zero fun hZero => h (BitVec.eq_of_toNat_eq hZero))

variable {p : Predictor}

theorem Predictor.push_ok (h : p.retstack.Ok) (baddr : Word) (op : Opcode) :
    (p.push baddr op).retstack.Ok ∧ (p.push baddr op).retstack.size = p.retstack.size := by
  unfold push
  split
  · exact ⟨fun hSize => toNat_mod_lt hSize, rfl⟩
  · exact ⟨h, rfl⟩

/-- A run of `sim_main` from `p₀`, whose branches were `h`. -/
structure Runs (p₀ p : Predictor) (h : List (Word × Word)) : Prop where
  stateful : p.Stateful
  good : p.btb.Good
  lru : IsLru p.btb h
  sets : p.btb.sets = p₀.btb.sets
  assoc : p.btb.assoc = p₀.btb.assoc
  stack : p.retstack.Ok
  size : p.retstack.size = p₀.retstack.size

variable {p₀ p : Predictor}

theorem Runs.pops (hRuns : Runs p₀ p h) (op : Opcode) (r31p : Bool) :
    p.pops op r31p = p₀.pops op r31p := by
  rw [Predictor.pops, Predictor.pops, hRuns.size]

/-- One branch. -/
theorem Runs.process (hRuns : Runs p₀ p h) {x : Branch} (hPc : x.pc ≠ 0) :
    ∃ addr p', x.process p = .ok (addr, p') ∧ Runs p₀ p' (history p₀ [x] ++ h) := by
  have hPopsEq := hRuns.pops x.op x.r31p
  cases hPops : p.pops x.op x.r31p with
  | true =>
    have hSize : p.retstack.size ≠ 0 := by
      unfold Predictor.pops at hPops
      simp only [Bool.and_eq_true, bne_iff_ne] at hPops
      exact hPops.2
    obtain ⟨p', hProcess, hStateful, hBtb, hStack⟩ := x.process_pop hRuns.stateful hPops (hRuns.stack hSize)
    have hNone : history p₀ [x] = [] := by
      rw [history, List.filter_cons_of_neg (by rw [← hPopsEq, hPops]; simp)]
      rfl
    refine ⟨_, p', hProcess, hStateful, ?_, ?_, ?_, ?_, ?_, ?_⟩
    · rw [hBtb]; exact hRuns.good
    · rw [hNone, hBtb]; exact hRuns.lru
    · rw [hBtb]; exact hRuns.sets
    · rw [hBtb]; exact hRuns.assoc
    · rw [hStack]; exact fun hSize => toNat_mod_lt hSize
    · rw [hStack]; exact hRuns.size
  | false =>
    obtain ⟨addr, correct, hKnown, hStep⟩ := x.process_branch hRuns.stateful hPops (Btb.find_eq hRuns.good x.pc)
    have hLearn : ∃ b, p.learned x.pc x.nextPC (if x.taken then 1 else 0) correct x.op = .ok b ∧ b.Good ∧
        b.sets = p.btb.sets ∧ b.assoc = p.btb.assoc ∧ IsLru b (history p₀ [x] ++ h) := by
      unfold Predictor.learned
      cases hTaken : x.taken with
      | true =>
        have hOne : history p₀ [x] = [(x.pc, x.nextPC)] := by
          rw [history, List.filter_cons_of_pos (by rw [← hPopsEq, hPops, hTaken]; rfl)]
          rfl
        rw [hOne, if_pos rfl, if_pos (by decide)]
        refine hRuns.lru.learn hRuns.good hPc x.op fun hCorrect i hi hAddr => hKnown hTaken hCorrect i ?_
        refine Btb.find?_of_unique hi (decide_eq_true hAddr) fun j hj hEq => ?_
        have hEq := of_decide_eq_true hEq
        exact hRuns.lru.unique _ (Btb.set_lt hRuns.good.sets x.pc) j hj i hi (by rw [hEq]; exact hPc)
          (hEq.trans hAddr.symm)
      | false =>
        have hNone : history p₀ [x] = [] := by
          rw [history, List.filter_cons_of_neg (by rw [hTaken]; simp)]
          rfl
        rw [hNone]
        exact ⟨p.btb, rfl, hRuns.good, rfl, rfl, hRuns.lru⟩
    obtain ⟨b, hLearned, hGood, hSets, hAssoc, hLru⟩ := hLearn
    obtain ⟨p', hProcess, hStateful, rfl, hStack⟩ := hStep b hLearned
    obtain ⟨hOk, hSize⟩ := Predictor.push_ok hRuns.stack x.pc x.op
    refine ⟨addr, p', hProcess, hStateful, hGood, hLru, hSets.trans hRuns.sets, hAssoc.trans hRuns.assoc, ?_, ?_⟩
    · rw [hStack]; exact hOk
    · rw [hStack]; exact hSize.trans hRuns.size

theorem history_cons (p : Predictor) (x : Branch) (xs : List Branch) :
    history p (x :: xs) = history p xs ++ history p [x] := by
  rw [history, history, history, ← List.reverse_append, ← List.map_append, ← List.filter_append]
  rfl

theorem Runs.run {p₀ : Predictor} : ∀ {xs : List Branch} {p : Predictor} {h : List (Word × Word)},
    Runs p₀ p h → (∀ x ∈ xs, x.pc ≠ 0) → ∃ p', simBpred p xs = .ok p' ∧ Runs p₀ p' (history p₀ xs ++ h) := by
  intro xs
  induction xs with
  | nil => intro p h hRuns _; exact ⟨p, rfl, hRuns⟩
  | cons x xs ih =>
    intro p h hRuns hPc
    obtain ⟨addr, p₁, hProcess, hRuns₁⟩ := hRuns.process (hPc x (by simp))
    obtain ⟨p₂, hRest, hRuns₂⟩ := ih hRuns₁ fun y hy => hPc y (by simp [hy])
    refine ⟨p₂, ?_, ?_⟩
    · rw [simBpred, hProcess]
      exact hRest
    · rw [history_cons, List.append_assoc]
      exact hRuns₂

variable {cls : Class} {z : Sizes}

/-- The parts of a new predictor. -/
theorem create_cases (h : create cls z = .ok p) (hCls : cls ≠ .taken ∧ cls ≠ .notTaken) :
    p.Stateful ∧ createBtb z.btbSets z.btbAssoc = .ok p.btb ∧ createRetstack z.retstackSize = .ok p.retstack := by
  obtain ⟨hSound, hEq⟩ := Predictor.create_sound h hCls
  have hStatic : p.isStatic = false := by
    rw [Predictor.isStatic, hEq, decide_eq_false hCls.1, decide_eq_false hCls.2]
    rfl
  refine ⟨⟨hSound, hStatic⟩, ?_⟩
  cases cls with
  | comb =>
    obtain ⟨bimod, -, h⟩ := bind_eq_ok.mp h
    obtain ⟨twolev, -, h⟩ := bind_eq_ok.mp h
    obtain ⟨choice, -, h⟩ := bind_eq_ok.mp h
    obtain ⟨btb, hBtb, h⟩ := bind_eq_ok.mp h
    obtain ⟨retstack, hRetstack, h⟩ := bind_eq_ok.mp h
    cases h
    exact ⟨hBtb, hRetstack⟩
  | twoLevel =>
    obtain ⟨twolev, -, h⟩ := bind_eq_ok.mp h
    obtain ⟨btb, hBtb, h⟩ := bind_eq_ok.mp h
    obtain ⟨retstack, hRetstack, h⟩ := bind_eq_ok.mp h
    cases h
    exact ⟨hBtb, hRetstack⟩
  | twoBit =>
    obtain ⟨bimod, -, h⟩ := bind_eq_ok.mp h
    obtain ⟨btb, hBtb, h⟩ := bind_eq_ok.mp h
    obtain ⟨retstack, hRetstack, h⟩ := bind_eq_ok.mp h
    cases h
    exact ⟨hBtb, hRetstack⟩
  | taken => exact absurd rfl hCls.1
  | notTaken => exact absurd rfl hCls.2

variable {n : Word}

theorem createRetstack_ok {r : Retstack} (h : createRetstack n = .ok r) :
    r.size = n ∧ r.Ok ∧ n.toNat < 2 ^ 31 := by
  unfold createRetstack at h
  split at h
  · cases h
  · split at h
    · cases h
    · rename_i hSmall
      cases h
      refine ⟨rfl, fun hSize => ?_, Nat.lt_of_not_le hSmall⟩
      have hPos : n.toNat ≠ 0 := fun hZero => hSize (BitVec.eq_of_toNat_eq hZero)
      have hlt := n.isLt
      show (n - 1).toNat < n.toNat
      rw [BitVec.toNat_sub, show BitVec.toNat (1 : Word) = 1 from rfl]
      omega

/-- A new predictor whose BTB has room for its entries. -/
theorem Runs.create (h : create cls z = .ok p)
    (hCls : cls ≠ .taken ∧ cls ≠ .notTaken) (hRoom : z.btbSets.toNat * z.btbAssoc.toNat < 2 ^ 32) :
    Runs p p [] ∧ p.btb.sets = z.btbSets ∧ p.btb.assoc = z.btbAssoc := by
  obtain ⟨hStateful, hBtb, hRetstack⟩ := create_cases h hCls
  obtain ⟨hGood, hSets, hAssoc, hEmpty⟩ := Btb.create_good hBtb hRoom
  refine ⟨⟨hStateful, hGood, isLru_of (fun k hk => ?_) (fun i _ hAddr => absurd (hEmpty i) hAddr), rfl, rfl,
    (createRetstack_ok hRetstack).2.1, rfl⟩, hSets, hAssoc⟩
  obtain ⟨l, hl, hPacked⟩ := hGood.chain k hk
  refine ⟨l, hl, hPacked, ?_⟩
  have hNone : ∀ i, p.btb.lab i = none := fun i => if_pos (hEmpty i)
  rw [contents_eq_nil fun i _ => hNone i]
  exact List.take_nil.symm

theorem isPow2_pow (h : isPow2 n = true) : ∃ k, n.toNat = 2 ^ k := by
  have hNe := isPow2_ne_zero h
  have hPos : n.toNat ≠ 0 := fun hZero => hNe (BitVec.eq_of_toNat_eq hZero)
  have hlt := n.isLt
  have hAnd : n &&& (n - 1) = 0 := by
    unfold isPow2 at h
    simp only [Bool.and_eq_true, beq_iff_eq] at h
    exact h.2
  have hAnd := congrArg BitVec.toNat hAnd
  rw [BitVec.toNat_and, BitVec.toNat_sub, show BitVec.toNat (1 : Word) = 1 from rfl,
    show (2 ^ 32 - 1 + n.toNat) % 2 ^ 32 = n.toNat - 1 by omega] at hAnd
  exact (Nat.and_sub_one_eq_zero_iff_isPowerOfTwo hPos).mp hAnd

/-- The size of a BTB whose number of entries wraps around is zero. -/
theorem createBtb_wraps {sets assoc : Word} (h : createBtb sets assoc = .ok b)
    (hRoom : 2 ^ 32 ≤ sets.toNat * assoc.toNat) : b.len = 0 ∧ 1 ≤ b.assoc.toNat := by
  unfold createBtb at h
  split at h
  · cases h
  rename_i hSets
  split at h
  · cases h
  rename_i hAssoc
  split at h
  · cases h
  cases h
  obtain ⟨m, hm⟩ := isPow2_pow (n := sets) (by simpa using hSets)
  obtain ⟨n, hn⟩ := isPow2_pow (n := assoc) (by simpa using hAssoc)
  refine ⟨?_, ?_⟩
  · show (sets * assoc).toNat = 0
    rw [hm, hn, ← pow_add] at hRoom
    have hLe : 32 ≤ m + n := (Nat.pow_le_pow_iff_right (by decide)).mp hRoom
    rw [BitVec.toNat_mul, hm, hn, ← pow_add]
    exact Nat.mod_eq_zero_of_dvd (pow_dvd_pow 2 hLe)
  · rw [hn]
    exact Nat.one_le_two_pow

/-- The branch `beq $0,$0,1` at address 8. -/
def Branch.beq : Branch := ⟨8, .beq, false, 24, 24, ⟨none, none, none, false, false, false⟩, by decide⟩

theorem Predictor.Stateful.beq_fails (h : p.Stateful) (hLen : p.btb.len = 0)
    (hAssoc : 1 ≤ p.btb.assoc.toNat) : simBpred p [.beq] = .error .undefined := by
  obtain ⟨T, hIn⟩ := h.part
  have hSeen : Kept p p.seen := h.of_dirs ⟨rfl, rfl, rfl, rfl⟩
  obtain ⟨u, hRecord, -⟩ := record_eq hSeen.stateful.sound (show T.In p.seen from hIn) 8 .beq
    ⟨none, none, none, false, false, false⟩
  have hFind : p.btb.find 8 = .error .undefined := by
    obtain ⟨n, hn⟩ := Nat.exists_eq_add_of_le' hAssoc
    rw [Btb.find, hn, Btb.firstMatch, Btb.ent, if_neg (by rw [hLen]; exact Nat.not_lt_zero _)]
    rfl
  have hPredict : p.seen.predict 8 .beq false u = .error .undefined := by
    have hFind : p.seen.btb.find 8 = .error .undefined := hFind
    have hPops : p.seen.pops .beq false = false := rfl
    rw [predict, hPops, if_neg (by decide), target, hFind]
    rfl
  rw [simBpred, Branch.process]
  show (p.lookup 8 24 .beq false ⟨none, none, none, false, false, false⟩ 0 >>= _) >>= _ = _
  rw [lookup_eq (by decide) h.cls, hRecord]
  show ((p.seen.predict 8 .beq false u >>= _) >>= _) >>= _ = _
  rw [hPredict]
  rfl

/-- **The BTB is an LRU map.**  No assert fails and each set has its latest branches, for a BTB whose
number of entries is a word. -/
theorem btb_is_lru {cls : Class} {z : Sizes} {p : Predictor} (h : create cls z = .ok p)
    (hCls : cls ≠ .taken ∧ cls ≠ .notTaken) :
    (∀ xs : List Branch, (∀ x ∈ xs, x.pc ≠ 0 ∧ x.pc.toNat % 8 = 0 ∧ 8 < x.nextPC.toNat) →
      ∃ p', simBpred p xs = .ok p' ∧ p'.btb.sets = z.btbSets ∧ p'.btb.assoc = z.btbAssoc ∧
        IsLru p'.btb (history p xs)) ↔
      z.btbSets.toNat * z.btbAssoc.toNat < 2 ^ 32 := by
  constructor
  · intro hAll
    by_contra hRoom
    obtain ⟨hStateful, hBtb, -⟩ := create_cases h hCls
    obtain ⟨hLen, hAssoc⟩ := createBtb_wraps hBtb (Nat.le_of_not_lt hRoom)
    obtain ⟨p', hRun, -⟩ := hAll [.beq] (by decide)
    rw [hStateful.beq_fails hLen hAssoc] at hRun
    cases hRun
  · intro hRoom xs hXs
    obtain ⟨hRuns, hSets, hAssoc⟩ := Runs.create h hCls hRoom
    obtain ⟨p', hRun, hRuns'⟩ := hRuns.run fun x hx => (hXs x hx).1
    rw [List.append_nil] at hRuns'
    exact ⟨p', hRun, hRuns'.sets.trans hSets, hRuns'.assoc.trans hAssoc, hRuns'.lru⟩

/-- A bimodal predictor with two sets of two entries and a stack of four. -/
def smallSizes : Sizes := ⟨4, 0, 0, 0, 0, 0, 2, 2, 4⟩

theorem btb_is_lru_small : ∃ p p', create .twoBit smallSizes = .ok p ∧ simBpred p [.beq] = .ok p' ∧
    IsLru p'.btb [(8, 24)] := by
  obtain ⟨p, hp⟩ : ∃ p, create .twoBit smallSizes = .ok p := ⟨_, rfl⟩
  obtain ⟨p', hRun, -, -, hLru⟩ := (btb_is_lru hp (by decide)).mpr (by decide) [.beq] (by decide)
  exact ⟨p, p', hp, hRun, hLru⟩

/-- The number of entries of 65536 sets of 65536 entries is zero as a word: the predictor is created
with an empty table, and its first lookup is undefined. -/
theorem btb_size_wraps : ∃ p, create .twoBit ⟨4, 0, 0, 0, 0, 0, 65536, 65536, 4⟩ = .ok p ∧ p.btb.len = 0 ∧
    simBpred p [.beq] = .error .undefined :=
  ⟨_, rfl, rfl, rfl⟩

end SimpleScalar.Bpred

import SimpleScalar.Bpred.Trace

/-!
# Usage of the components

`used_bimod` and `used_2lev` count the updates of a combining predictor by the field `dir.meta` of
their update records.  A lookup fills the field for a conditional branch and leaves it alone for
any other control instruction, but the update of either kind counts.

A `Ledger` is a session with what each lookup selected and the updates so far.

* `Ledger.run_counts`: the counters are the numbers of updates by `dir.meta`.
* `usage_exact`: they count the conditional branches if nothing else was updated, and only then.
-/

namespace SimpleScalar.Bpred

open Outcome

/-- The meta counter of a branch selects the two-level component. -/
def Predictor.selects (p : Predictor) (baddr : Word) : Bool :=
  (p.counter ⟨.metaPred, p.metaPred.lookup baddr⟩).toOption.any (2 ≤ ·)

/-- A lookup, and whether it selected the two-level component. -/
structure Choice where
  record : Record
  twolev : Bool

namespace Choice

/-- The update of a control instruction. -/
def counts (x : Choice) : Bool := x.record.op.has F.ctrl

def conditional (x : Choice) : Bool := x.record.op.has F.ctrl && !uncond x.record.op

/-- The lookup of a conditional branch recorded its choice. -/
def Faithful (x : Choice) : Prop := x.conditional = true → x.record.upd.dirMeta = x.twolev

end Choice

/-- A session with the choices of its lookups and the lookups that were updated. -/
structure Ledger where
  session : Session
  choices : List Bool
  updated : List Choice

namespace Ledger

/-- The lookup that an update is for. -/
def choice (s : Ledger) (k : Nat) : Option Choice :=
  match s.session.records[k]?, s.choices[k]? with
  | some r, some c => some ⟨r, c⟩
  | _, _ => none

def step (s : Ledger) (c : Call) : Except Fault Ledger := do
  let session ← s.session.step c
  match c with
  | .lookup baddr _ _ _ _ => return ⟨session, s.choices ++ [s.session.pred.selects baddr], s.updated⟩
  | .update k _ _ _ _ => return ⟨session, s.choices, s.updated ++ (s.choice k).toList⟩

def run (s : Ledger) : List Call → Except Fault Ledger
  | [] => .ok s
  | c :: cs => do
    let s ← s.step c
    s.run cs

/-- A new predictor. -/
def start (p : Predictor) : Ledger := ⟨⟨p, []⟩, [], []⟩

def usedBimod (s : Ledger) : Nat := s.session.pred.stats.usedBimod

def used2lev (s : Ledger) : Nat := s.session.pred.stats.used2lev

end Ledger

/-! ### What a call counts -/

variable {baddr : Word} {op : Opcode}

namespace Predictor

/-- The class and the two counters. -/
def usage (p : Predictor) : Class × Nat × Nat := (p.cls, p.stats.usedBimod, p.stats.used2lev)

variable {p p' : Predictor}

theorem setCounters_usage (p : Predictor) (l : List Nat) (T : Table) : (p.setCounters l T).usage = p.usage := by
  cases T <;> rfl

theorem count_usage {c : Option Ptr} {up : Bool} (h : p.count c up = .ok p') : p'.usage = p.usage := by
  cases c with
  | none => cases h; rfl
  | some c =>
    obtain ⟨n, -, h⟩ := bind_eq_ok.mp h
    cases h
    exact setCounters_usage ..

theorem train_usage {taken : Word} {u : Update} (h : p.train taken u = .ok p') : p'.usage = p.usage := by
  obtain ⟨p₁, h₁, h⟩ := bind_eq_ok.mp h
  obtain ⟨p₂, h₂, h⟩ := bind_eq_ok.mp h
  have hChoose : p'.usage = p₂.usage := by
    unfold choose at h
    split at h
    · exact count_usage h
    · cases h; rfl
  rw [hChoose, count_usage h₂, count_usage h₁]

theorem push_usage (p : Predictor) (baddr : Word) (op : Opcode) : (p.push baddr op).usage = p.usage := by
  unfold push
  split <;> rfl

theorem shift_usage {taken : Bool} (h : p.shift baddr taken op = .ok p') :
    p'.usage = p.usage := by
  unfold shift at h
  split at h
  · obtain ⟨d, -, h⟩ := bind_eq_ok.mp h
    cases h
    rfl
  · cases h; rfl

theorem select_usage {taken : Bool} {i : Option Nat} (h : p.select baddr taken = .ok (i, p')) :
    p'.usage = p.usage := by
  unfold select at h
  split at h
  · obtain ⟨⟨j, b⟩, -, h⟩ := bind_eq_ok.mp h
    cases h
    rfl
  · cases h; rfl

theorem enter_usage {i : Option Nat} {baddr btarget : Word} {correct : Bool}
    (h : p.enter i baddr btarget correct op = .ok p') : p'.usage = p.usage := by
  cases i with
  | none => cases h; rfl
  | some i =>
    obtain ⟨b, -, h⟩ := bind_eq_ok.mp h
    cases h
    rfl

/-- An update of a control instruction counts once, by `dir.meta`. -/
theorem update_usage {baddr btarget taken : Word} {predTaken correct : Bool} {r31p : Bool} {u : Update}
    (h : p.update baddr btarget taken predTaken correct op r31p u = .ok p') :
    p'.cls = p.cls ∧
      p'.stats.usedBimod = p.stats.usedBimod + (if op.has F.ctrl && !u.dirMeta then 1 else 0) ∧
      p'.stats.used2lev = p.stats.used2lev + if op.has F.ctrl && u.dirMeta then 1 else 0 := by
  unfold update at h
  cases hCtrl : op.has F.ctrl with
  | false =>
    rw [if_pos (by rw [hCtrl]; rfl)] at h
    cases h
    exact ⟨rfl, rfl, rfl⟩
  | true =>
    rw [if_neg (by rw [hCtrl]; decide)] at h
    have hUsage : p'.usage =
        usage { p with stats := p.tally (decide (taken ≠ 0)) predTaken correct op u } := by
      dsimp only at h
      split at h
      · cases h; rfl
      · obtain ⟨p₂, hShift, h⟩ := bind_eq_ok.mp h
        obtain ⟨⟨i, p₃⟩, hSelect, h⟩ := bind_eq_ok.mp h
        obtain ⟨p₄, hTrain, hEnter⟩ := bind_eq_ok.mp h
        rw [enter_usage hEnter, train_usage hTrain, select_usage hSelect, shift_usage hShift, push_usage]
    have hCls := congrArg Prod.fst hUsage
    have hBimod := congrArg (fun x => x.2.1) hUsage
    have hTwolev := congrArg (fun x => x.2.2) hUsage
    refine ⟨hCls, hBimod.trans ?_, hTwolev⟩
    show p.stats.usedBimod + (if u.dirMeta then 0 else 1) = _
    cases u.dirMeta <;> rfl

/-- The record of a conditional branch says what the meta counter selected. -/
theorem record_dirMeta (hCls : p.cls = .comb) {before u : Update}
    (h : p.record baddr op before = .ok u) (hOp : uncond op = false) : u.dirMeta = p.selects baddr := by
  unfold record at h
  rw [if_neg (by rw [hOp]; decide)] at h
  unfold dirLookup at h
  rw [hCls] at h
  obtain ⟨t, -, h⟩ := bind_eq_ok.mp h
  obtain ⟨m, hm, h⟩ := bind_eq_ok.mp h
  obtain ⟨x, -, h⟩ := bind_eq_ok.mp h
  obtain ⟨y, -, h⟩ := bind_eq_ok.mp h
  cases h
  rw [selects, hm]
  rfl

/-- A lookup counts nothing. -/
theorem lookup_usage (hCls : p.cls = .comb) {baddr btarget : Word} {r31p : Bool} {before u : Update}
    {idx idx' addr : Word} (h : p.lookup baddr btarget op r31p before idx = .ok (addr, u, idx', p')) :
    p'.usage = p.usage ∧ ((op.has F.ctrl && !uncond op) = true → u.dirMeta = p.selects baddr) := by
  by_cases hCtrl : op.has F.ctrl = true
  · rw [lookup_eq hCtrl (by rw [isStatic, hCls]; rfl)] at h
    obtain ⟨u', hRecord, h⟩ := bind_eq_ok.mp h
    obtain ⟨⟨addr', p₁⟩, hPredict, h⟩ := bind_eq_ok.mp h
    cases h
    refine ⟨?_, fun hCond => ?_⟩
    · unfold predict pop at hPredict
      split at hPredict
      · dsimp only at hPredict
        split at hPredict <;> cases hPredict
        rfl
      · obtain ⟨addr'', -, hPredict⟩ := bind_eq_ok.mp hPredict
        cases hPredict
        rfl
    · exact record_dirMeta (p := p.seen) hCls hRecord (by simpa [hCtrl] using hCond)
  · unfold lookup at h
    rw [if_pos (by simpa using hCtrl)] at h
    cases h
    exact ⟨rfl, fun hCond => absurd hCond (by simp [hCtrl])⟩

end Predictor

/-! ### Whole sessions -/

namespace Ledger

/-- The counters of a combining predictor and the updates so far. -/
structure Counts (s : Ledger) : Prop where
  comb : s.session.pred.cls = .comb
  length : s.choices.length = s.session.records.length
  faithful : ∀ k x, s.choice k = some x → x.Faithful
  updates : ∀ x ∈ s.updated, x.Faithful
  bimod : s.usedBimod = s.updated.countP fun x => x.counts && !x.record.upd.dirMeta
  twolev : s.used2lev = s.updated.countP fun x => x.counts && x.record.upd.dirMeta

theorem choice_eq_some {s : Ledger} {k : Nat} {x : Choice} :
    s.choice k = some x ↔ s.session.records[k]? = some x.record ∧ s.choices[k]? = some x.twolev := by
  unfold choice
  cases s.session.records[k]? with
  | none => simp
  | some r =>
    cases s.choices[k]? with
    | none => simp
    | some c =>
      obtain ⟨r', c'⟩ := x
      simp

theorem Counts.step {s s' : Ledger} (h : s.Counts) {c : Call} (hStep : s.step c = .ok s') : s'.Counts := by
  obtain ⟨session, hSession, hEq⟩ := bind_eq_ok.mp hStep
  cases c with
  | lookup baddr btarget op r31p before =>
    cases hEq
    obtain ⟨⟨addr, u, idx, p⟩, hLookup, hEq⟩ := bind_eq_ok.mp hSession
    cases hEq
    obtain ⟨hUsage, hChoice⟩ := Predictor.lookup_usage h.comb hLookup
    refine ⟨(congrArg Prod.fst hUsage).trans h.comb, by simp [h.length], fun k x hx => ?_, h.updates,
      (congrArg (fun x => x.2.1) hUsage).trans h.bimod, (congrArg (fun x => x.2.2) hUsage).trans h.twolev⟩
    obtain ⟨hRecord, hTwolev⟩ := choice_eq_some.mp hx
    dsimp only at hRecord hTwolev
    rcases Nat.lt_trichotomy k s.choices.length with hLt | rfl | hGt
    · rw [List.getElem?_append_left (by rw [← h.length]; exact hLt)] at hRecord
      rw [List.getElem?_append_left hLt] at hTwolev
      exact h.faithful k x (choice_eq_some.mpr ⟨hRecord, hTwolev⟩)
    · rw [h.length, List.getElem?_concat_length] at hRecord
      rw [List.getElem?_concat_length] at hTwolev
      obtain ⟨r, c⟩ := x
      cases hRecord
      cases hTwolev
      exact hChoice
    · rw [List.getElem?_eq_none (by simp; omega)] at hTwolev
      cases hTwolev
  | update k btarget taken predTaken correct =>
    cases hEq
    unfold Session.step at hSession
    dsimp only at hSession
    cases hRecord : s.session.records[k]? with
    | none =>
      rw [hRecord] at hSession
      cases hSession
      have hNone : s.choice k = none := by rw [choice, hRecord]
      refine ⟨h.comb, h.length, h.faithful, ?_, ?_, ?_⟩ <;> rw [hNone] <;> simp only [Option.toList_none, List.append_nil]
      · exact h.updates
      · exact h.bimod
      · exact h.twolev
    | some r =>
      rw [hRecord] at hSession
      obtain ⟨p, hUpdate, hEq⟩ := bind_eq_ok.mp hSession
      cases hEq
      obtain ⟨hCls, hBimod, hTwolev⟩ := Predictor.update_usage hUpdate
      obtain ⟨c, hc⟩ : ∃ c, s.choices[k]? = some c := by
        have hLt := (List.getElem?_eq_some_iff.mp hRecord).1
        rw [← h.length] at hLt
        exact ⟨_, List.getElem?_eq_getElem hLt⟩
      have hSome : s.choice k = some ⟨r, c⟩ := choice_eq_some.mpr ⟨hRecord, hc⟩
      refine ⟨hCls.trans h.comb, h.length, h.faithful, ?_, ?_, ?_⟩ <;>
        rw [hSome, Option.toList_some]
      · intro x hx
        rcases List.mem_append.mp hx with hx | hx
        · exact h.updates x hx
        · rw [List.mem_singleton.mp hx]
          exact h.faithful k _ hSome
      · rw [List.countP_append, List.countP_singleton, ← h.bimod]
        exact hBimod
      · rw [List.countP_append, List.countP_singleton, ← h.twolev]
        exact hTwolev

/-- The counters are the numbers of updates by `dir.meta`. -/
theorem Counts.run : ∀ {cs : List Call} {s s' : Ledger}, s.Counts → s.run cs = .ok s' → s'.Counts := by
  intro cs
  induction cs with
  | nil => intro s s' h hRun; cases hRun; exact h
  | cons c cs ih =>
    intro s s' h hRun
    obtain ⟨s₁, hStep, hRun⟩ := bind_eq_ok.mp hRun
    exact ih (h.step hStep) hRun

theorem counts_start {p : Predictor} (hCls : p.cls = .comb) (hStats : p.stats = {}) : (start p).Counts := by
  refine ⟨hCls, rfl, fun k x hx => ?_, by simp [start], ?_, ?_⟩
  · have hRecord := (choice_eq_some.mp hx).1
    cases hRecord
  · exact congrArg Stats.usedBimod hStats
  · exact congrArg Stats.used2lev hStats

/-- What the statistics are for: the updates of conditional branches, and those of them that used the
two-level component. -/
def Exact (s : Ledger) : Prop :=
  s.usedBimod + s.used2lev = s.updated.countP Choice.conditional ∧
    s.used2lev = s.updated.countP fun x => x.conditional && x.twolev

theorem countP_split {α : Type} (P Q : α → Bool) (l : List α) :
    l.countP (fun x => P x && !Q x) + l.countP (fun x => P x && Q x) = l.countP P := by
  induction l with
  | nil => rfl
  | cons x l ih =>
    rw [List.countP_cons, List.countP_cons, List.countP_cons, ← ih]
    cases P x <;> cases Q x <;> simp <;> omega

theorem Counts.exact_iff {s : Ledger} (h : s.Counts) :
    s.Exact ↔ ∀ x ∈ s.updated, x.counts = true → uncond x.record.op = false := by
  have hSum : s.usedBimod + s.used2lev = s.updated.countP Choice.counts := by
    rw [h.bimod, h.twolev]
    exact countP_split ..
  have hSplit : s.updated.countP (fun x => x.counts && !uncond x.record.op) +
      s.updated.countP (fun x => x.counts && uncond x.record.op) = s.updated.countP Choice.counts :=
    countP_split ..
  have hCond : Choice.conditional = fun x => x.counts && !uncond x.record.op := rfl
  constructor
  · rintro ⟨hTotal, -⟩ x hx hCounts
    rw [hSum, hCond] at hTotal
    have hNone : s.updated.countP (fun x => x.counts && uncond x.record.op) = 0 := by omega
    have hx := List.countP_eq_zero.mp hNone x hx
    rw [hCounts] at hx
    simpa using hx
  · intro hAll
    have hSame : ∀ x ∈ s.updated, x.counts = x.conditional := by
      intro x hx
      cases hCounts : x.counts with
      | false => rw [hCond]; simp [hCounts]
      | true => rw [hCond]; simp [hCounts, hAll x hx hCounts]
    refine ⟨?_, ?_⟩
    · rw [hSum]
      exact List.countP_congr fun x hx => by rw [hSame x hx]
    · rw [h.twolev]
      refine List.countP_congr fun x hx => ?_
      rw [hSame x hx]
      cases hIs : x.conditional with
      | false => rfl
      | true => rw [h.updates x hx hIs]

end Ledger

/-! ### Sessions that do not fail -/

/-- A session whose next call succeeds. -/
structure Session.Safe (s : Session) : Prop where
  stateful : s.pred.Stateful
  good : s.pred.btb.Good
  stack : s.pred.retstack.Ok
  records : ∀ r ∈ s.records, r.baddr ≠ 0 ∧ (r.op.has F.ctrl = true → s.pred.Fits r.upd)

/-- No lookup is for address zero. -/
def Call.Proper : Call → Prop
  | .lookup baddr _ _ _ _ => baddr ≠ 0
  | .update .. => True

namespace Session.Safe

variable {s : Session}

theorem pops_size {p : Predictor} {r31p : Bool} (h : p.pops op r31p = true) : p.retstack.size ≠ 0 := by
  unfold Predictor.pops at h
  simp only [Bool.and_eq_true, bne_iff_ne] at h
  exact h.2

theorem lookup (h : s.Safe) (hAddr : baddr ≠ 0) (btarget : Word) (op : Opcode) (r31p : Bool)
    (before : Update) : ∃ s', s.step (.lookup baddr btarget op r31p before) = .ok s' ∧ s'.Safe := by
  by_cases hCtrl : op.has F.ctrl = true
  · have hLookup : ∃ addr u idx p, s.pred.lookup baddr btarget op r31p before 0 = .ok (addr, u, idx, p) ∧
        s.pred.LookedUp u p ∧ p.retstack.Ok := by
      cases hPops : s.pred.pops op r31p with
      | true =>
        obtain ⟨u, idx, p, hLookup, hLooked, hStack⟩ := h.stateful.lookup_pop hCtrl hPops (h.stack (pops_size hPops))
          baddr btarget before 0
        refine ⟨_, u, idx, p, hLookup, hLooked, ?_⟩
        rw [hStack]
        exact fun hSize => toNat_mod_lt hSize
      | false =>
        obtain ⟨addr, u, idx, p, hLookup, hLooked, hStack, -⟩ := h.stateful.lookup_branch hCtrl hPops
          (Btb.find_eq h.good baddr) btarget before 0
        refine ⟨addr, u, idx, p, hLookup, hLooked, ?_⟩
        rw [hStack]
        exact h.stack
    obtain ⟨addr, u, idx, p, hLookup, hLooked, hOk⟩ := hLookup
    refine ⟨⟨p, s.records ++ [⟨baddr, op, r31p, u⟩]⟩, ?_, hLooked.kept.stateful, ?_, hOk, fun r hr => ?_⟩
    · rw [step, hLookup]
      rfl
    · show p.btb.Good
      rw [hLooked.btb]
      exact h.good
    · rcases List.mem_append.mp hr with hr | hr
      · exact ⟨(h.records r hr).1, fun hIs => ((h.records r hr).2 hIs).congr hLooked.kept.size⟩
      · rw [List.mem_singleton.mp hr]
        exact ⟨hAddr, fun _ => hLooked.fits⟩
  · refine ⟨⟨s.pred, s.records ++ [⟨baddr, op, r31p, before⟩]⟩, ?_, h.stateful, h.good, h.stack, fun r hr => ?_⟩
    · have hLookup : s.pred.lookup baddr btarget op r31p before 0 = .ok (0, before, 0, s.pred) := by
        rw [Predictor.lookup, if_pos (by simpa using hCtrl)]
      rw [step, hLookup]
      rfl
    · rcases List.mem_append.mp hr with hr | hr
      · exact h.records r hr
      · rw [List.mem_singleton.mp hr]
        exact ⟨hAddr, fun hIs => absurd hIs hCtrl⟩

theorem update (h : s.Safe) (k : Nat) (btarget taken : Word) (predTaken correct : Bool) :
    ∃ s', s.step (.update k btarget taken predTaken correct) = .ok s' ∧ s'.Safe := by
  unfold step
  dsimp only
  cases hRecord : s.records[k]? with
  | none => exact ⟨s, rfl, h⟩
  | some r =>
    obtain ⟨hAddr, hFits⟩ := h.records r (List.mem_of_getElem? hRecord)
    have hUpdate : ∃ p, s.pred.update r.baddr btarget taken predTaken correct r.op r.r31p r.upd = .ok p ∧
        s.pred.Kept p ∧ p.btb.Good ∧ p.retstack.Ok := by
      by_cases hCtrl : r.op.has F.ctrl = true
      · cases hPops : s.pred.pops r.op r.r31p with
        | true =>
          refine ⟨_, Predictor.update_pop hCtrl hPops .., h.stateful.of_dirs ?_, h.good, h.stack⟩
          exact ⟨rfl, rfl, rfl, rfl⟩
        | false =>
          have hLearned : ∃ b, s.pred.learned r.baddr btarget taken correct r.op = .ok b ∧ b.Good := by
            unfold Predictor.learned
            split
            · exact h.good.learn hAddr ..
            · exact ⟨_, rfl, h.good⟩
          obtain ⟨b, hb, hGood⟩ := hLearned
          obtain ⟨p, hUpdate, hKept, rfl, hStack⟩ := h.stateful.update (hFits hCtrl) hCtrl hPops hb predTaken
          refine ⟨p, hUpdate, hKept, hGood, ?_⟩
          rw [hStack]
          exact (Predictor.push_ok h.stack ..).1
      · refine ⟨s.pred, ?_, ⟨h.stateful, fun _ => rfl⟩, h.good, h.stack⟩
        rw [Predictor.update, if_pos (by simpa using hCtrl)]
    obtain ⟨p, hUpdate, hKept, hGood, hOk⟩ := hUpdate
    refine ⟨{ s with pred := p }, ?_, hKept.stateful, hGood, hOk, fun x hx => ?_⟩
    · show (s.pred.update _ _ _ _ _ _ _ _ >>= _) = _
      rw [hUpdate]
      rfl
    · exact ⟨(h.records x hx).1, fun hIs => ((h.records x hx).2 hIs).congr hKept.size⟩

theorem step (h : s.Safe) {c : Call} (hc : c.Proper) : ∃ s', s.step c = .ok s' ∧ s'.Safe := by
  cases c with
  | lookup baddr btarget op r31p before => exact h.lookup hc ..
  | update k btarget taken predTaken correct => exact h.update ..

theorem run : ∀ {cs : List Call} {s : Ledger}, s.session.Safe → (∀ c ∈ cs, c.Proper) → ∃ s', s.run cs = .ok s' := by
  intro cs
  induction cs with
  | nil => intro s _ _; exact ⟨s, rfl⟩
  | cons c cs ih =>
    intro s h hCalls
    obtain ⟨s₁, hStep, hSafe⟩ := h.step (hCalls c (by simp))
    have hLedger : ∃ s', s.step c = .ok s' ∧ s'.session = s₁ := by
      unfold Ledger.step
      rw [hStep]
      cases c <;> exact ⟨_, rfl, rfl⟩
    obtain ⟨s', hLedger, rfl⟩ := hLedger
    obtain ⟨s'', hRun⟩ := ih hSafe fun c hc => hCalls c (by simp [hc])
    refine ⟨s'', ?_⟩
    rw [Ledger.run, hLedger]
    exact hRun

end Session.Safe

/-- **Usage.**  The statistics of a combining predictor are those of the conditional branches exactly if
no other control instruction was updated.  No call fails if the BTB has room for its entries. -/
theorem usage_exact {z : Sizes} {p : Predictor} (h : create .comb z = .ok p) (cs : List Call) :
    (∀ s, (Ledger.start p).run cs = .ok s →
      (s.Exact ↔ ∀ x ∈ s.updated, x.record.op.has F.ctrl = true → uncond x.record.op = false)) ∧
    (z.btbSets.toNat * z.btbAssoc.toNat < 2 ^ 32 → (∀ c ∈ cs, c.Proper) →
      ∃ s, (Ledger.start p).run cs = .ok s) := by
  constructor
  · intro s hRun
    have hStart : (Ledger.start p).Counts := by
      refine Ledger.counts_start (Predictor.create_sound h (by decide)).2 ?_
      obtain ⟨bimod, -, h⟩ := bind_eq_ok.mp h
      obtain ⟨twolev, -, h⟩ := bind_eq_ok.mp h
      obtain ⟨choice, -, h⟩ := bind_eq_ok.mp h
      obtain ⟨btb, -, h⟩ := bind_eq_ok.mp h
      obtain ⟨retstack, -, h⟩ := bind_eq_ok.mp h
      cases h
      rfl
    exact (hStart.run hRun).exact_iff
  · intro hRoom hCalls
    obtain ⟨hRuns, -⟩ := Runs.create h (by decide) hRoom
    have hSafe : (Ledger.start p).session.Safe :=
      ⟨hRuns.stateful, hRuns.good, hRuns.stack, fun r hr => absurd hr List.not_mem_nil⟩
    exact hSafe.run hCalls

/-- A combining predictor with small tables. -/
def smallComb : Sizes := ⟨4, 1, 4, 4, 2, 0, 2, 2, 4⟩

/-- A branch that is looked up and updated. -/
def lookupUpdate (op : Opcode) : List Call :=
  [.lookup 8 24 op false ⟨none, none, none, false, false, false⟩, .update 0 24 1 false false]

theorem usage_exact_beq : ∃ p s, create .comb smallComb = .ok p ∧ (Ledger.start p).run (lookupUpdate .beq) = .ok s ∧
    s.Exact := by
  refine ⟨_, _, rfl, rfl, ((usage_exact (z := smallComb) rfl (lookupUpdate .beq)).1 _ rfl).mpr fun x hx _ => ?_⟩
  rw [List.mem_singleton.mp hx]
  decide

/-- The update of a jump counts as a use of the bimodal component. -/
theorem jump_is_counted : ∃ p s, create .comb smallComb = .ok p ∧ (Ledger.start p).run (lookupUpdate .jump) = .ok s ∧
    s.usedBimod = 1 ∧ s.updated.countP Choice.conditional = 0 :=
  ⟨_, _, rfl, rfl, rfl, rfl⟩

end SimpleScalar.Bpred

import SimpleScalar.Outorder.Backend
import SimpleScalar.Outorder.FrontRules

/-!
# What the back end leaves alone

The trace generator and the fetch unit, `State.front`, belong to dispatch and fetch.
The other stages leave them as they are, with one exception: a recovery in writeback
restarts them at `recover_PC`.  The clock, the units and the caches, `State.timing`, belong
to commit, issue and fetch.  None of this needs an invariant, so that every consistency
check is tolerated here.

* `ruuCommit_frame`, `lsqRefresh_frame`, `ruuIssue_frame`: the front end is untouched.
* `ruuWriteback_frame`: it is untouched or restarted.
-/

namespace SimpleScalar.Outorder

open Outcome

variable {env : Env} {cfg : Config} {s : State env}

/-- Every check. -/
def AnyCheck : Check → Prop := fun _ => True

theorem keeps_any {α : Type} {Q : α → Prop} {e : Stop} :
    Keeps AnyCheck (.error e : Except Stop α) Q := fun _ _ => trivial

theorem Keeps.any {A : Check → Prop} {α : Type} {x : Except Stop α} {Q : α → Prop}
    (h : Keeps A x Q) : Keeps AnyCheck x Q :=
  h.weaken fun _ _ => trivial

/-- The clock, the units and the caches. -/
structure Timing (env : Env) where
  simCycle : Nat
  busy : Nat → Nat
  accepts : List Accept
  caches : env.Caches

def State.timing (s : State env) : Timing env := ⟨s.simCycle, s.busy, s.accepts, s.caches⟩

/-- Within a cycle units are reserved and caches accessed. -/
inductive Uses (retires : Bool) (t : Timing env) : Timing env → Prop where
  | refl : Uses retires t t
  | step {s : State env} {busy : Nat → Nat} {accepts : List Accept} {caches : env.Caches}
      (h : Uses retires t s.timing) (hUnits : Reserves retires s busy accepts)
      (hCaches : Accessed env s.simCycle s.caches caches) :
      Uses retires t ⟨s.simCycle, busy, accepts, caches⟩

/-- The front end, the history of commits and the clock are the same. -/
def SameFront (s s' : State env) : Prop :=
  s'.front = s.front ∧ s'.retired = s.retired ∧ s'.timing = s.timing

variable {s₁ s₂ : State env}

theorem SameFront.trans (h : SameFront s s₁) (h' : SameFront s₁ s₂) :
    SameFront s s₂ := ⟨h'.1.trans h.1, h'.2.1.trans h.2.1, h'.2.2.trans h.2.2⟩

theorem SameFront.enqueue {s₁ : State env} (h : SameFront s s₁) (id : Nat) (rest : List Nat)
    (rs : Ref) : SameFront s (enqueued id rest rs s₁) := h

/-- The checks at the top of the loop change nothing. -/
theorem sanity_frame : Keeps AnyCheck (sanity cfg s) fun s' => s' = s :=
  keeps_ite (fun _ => keeps_any) fun _ => keeps_ite (fun _ => keeps_any) fun _ =>
    keeps_ite (fun _ => keeps_any) fun _ => rfl

/-! ### Commit -/

/-- The entries that commit takes from the head, and what it leaves. -/
structure CommitFrame (cfg : Config) (s s' : State env) : Prop where
  front : s'.front = s.front
  stn : s'.stn = s.stn
  uses : Uses true s.timing s'.timing
  ruuHead : s'.ruuHead < cfg.ruuSize
  ruu : ∃ gone, s.rob.ruu cfg = gone ++ s'.rob.ruu cfg ∧
    s'.retired = s.retired ++ gone.map fun r => (s.stn r).dispatch

/-- One entry more. -/
theorem CommitFrame.retire (h : CommitFrame cfg s s₁) (hNum : s₁.ruuNum ≠ 0)
    (hFront : s₂.front = s₁.front) (hRob : s₂.rob.ruu cfg = (s₁.rob.popRuu cfg).ruu cfg)
    (hHead : s₂.ruuHead = (s₁.ruuHead + 1) % cfg.ruuSize) (hStn : s₂.stn = s₁.stn)
    (hUses : Uses true s.timing s₂.timing)
    (hRetired : s₂.retired = s₁.retired ++ [(s₁.stn (.ruu s₁.ruuHead)).dispatch]) :
    CommitFrame cfg s s₂ := by
  obtain ⟨gone, hGone, hRet⟩ := h.ruu
  have hCons : s₁.rob.ruu cfg = .ruu s₁.ruuHead :: (s₁.rob.popRuu cfg).ruu cfg :=
    Rob.ruu_cons h.ruuHead hNum
  refine ⟨hFront.trans h.front, hStn.trans h.stn, hUses, ?_, gone ++ [.ruu s₁.ruuHead], ?_, ?_⟩
  · rw [hHead]
    exact Nat.mod_lt _ cfg.ruu_pos
  · rw [hGone, hCons, hRob, List.append_assoc]
    rfl
  · rw [hRetired, hRet, h.stn, List.append_assoc, List.map_append]
    rfl

theorem CommitFrame.step (h : CommitFrame cfg s s₁) (hNum : s₁.ruuNum ≠ 0)
    (hStep : Retires cfg s₁ s₂) : CommitFrame cfg s s₂ := by
  cases hStep with
  | op pred hC hEa => exact h.retire hNum rfl rfl rfl rfl h.uses rfl
  | mem pred hC hEa hCL hUnits hCaches =>
    exact h.retire hNum rfl rfl rfl rfl (h.uses.step hUnits hCaches) rfl

theorem ruuCommit_frame (h : Base cfg {} s) :
    Keeps AnyCheck (ruuCommit cfg s) fun s' => Base cfg {} s' ∧ CommitFrame cfg s s' :=
  ruuCommit_base h ⟨rfl, rfl, .refl, h.queue.ruuHead_lt, [], rfl, (List.append_nil _).symm⟩
    fun _ _ _ hs hNum hStep => hs.step hNum hStep

/-! ### Recovery -/

theorem squash_frame (rs : Ref) (s : State env) (m n : Nat) :
    SameFront s { squash rs s with ruuNum := m, lsqNum := n } := by
  rw [squash_eq]
  exact ⟨rfl, rfl, rfl⟩

theorem ruuRecoverLoop_frame {b : Nat} : ∀ (n : Nat) {i j pi pj : Nat} {s : State env},
    Keeps AnyCheck (ruuRecoverLoop cfg b i j pi pj n s) (SameFront s) := by
  intro n
  induction n with
  | zero =>
    intro i j pi pj s
    rw [ruuRecoverLoop]
    exact keeps_ite (fun _ => ⟨rfl, rfl, rfl⟩) fun _ => keeps_any
  | succ n ih =>
    intro i j pi pj s
    rw [ruuRecoverLoop]
    refine keeps_ite (fun _ => ⟨rfl, rfl, rfl⟩) fun _ => ?_
    refine keeps_ite (fun _ => keeps_any) fun _ => ?_
    refine keeps_ite (fun _ => keeps_ite (fun _ => keeps_any) fun _ => ?_) fun _ => ?_
    · have hLsq := squash_frame (.lsq j) s (squash (.lsq j) s).ruuNum
        ((squash (.lsq j) s).lsqNum - 1)
      exact ih.mono fun s' hs' => hLsq.trans ((squash_frame (.ruu i) _ _ _).trans hs')
    · exact ih.mono fun s' hs' => (squash_frame (.ruu i) s _ _).trans hs'

/-! ### Writeback -/

/-- The front end after a recovery. -/
def Front.restart (cfg : Config) (f : Front env) : Front env :=
  { f with
    specMode := false
    overlay := ⟨fun _ => false, f.overlay.regs, fun _ => []⟩
    fetchNum := 0
    fetchTail := 0
    fetchHead := 0
    fetchPredPC := f.recoverPC
    fetchRegsPC := f.recoverPC
    ruuFetchIssueDelay := BitVec.ofNat 32 cfg.ruuBranchPenalty }

/-- The front end is untouched, or it is restarted from mis-speculation mode. -/
def MayRestart (cfg : Config) (s s' : State env) : Prop :=
  s'.retired = s.retired ∧ s'.timing = s.timing ∧
    (s'.front = s.front ∨ s.specMode = true ∧ s'.front = s.front.restart cfg)

theorem MayRestart.then (h : MayRestart cfg s s₁) (h' : SameFront s₁ s₂) :
    MayRestart cfg s s₂ := by
  refine ⟨h'.2.1.trans h.1, h'.2.2.trans h.2.1, ?_⟩
  rw [h'.1]
  exact h.2.2

theorem SameFront.mayRestart (h : SameFront s s₁) (h' : MayRestart cfg s₁ s₂) :
    MayRestart cfg s s₂ := by
  refine ⟨h'.1.trans h.2.1, h'.2.1.trans h.2.2, ?_⟩
  have hSpec : s₁.specMode = s.specMode := congrArg Front.specMode h.1
  rw [← h.1, ← hSpec]
  exact h'.2.2

theorem resolve_frame (rs : Ref) :
    Keeps AnyCheck (resolve cfg rs s) (MayRestart cfg s) := by
  refine keeps_ite (fun _ => ?_) fun _ => ⟨rfl, rfl, .inl rfl⟩
  refine keeps_ite (fun _ => keeps_any) fun _ => ?_
  cases rs with
  | lsq i => exact keeps_any
  | ruu i =>
    refine Keeps.bind (ruuRecoverLoop_frame _) fun s₁ hs₁ => ?_
    refine Keeps.bind (Q := fun s₂ => s₁.specMode = true ∧
      (s₂.retired = s₁.retired ∧ s₂.timing = s₁.timing) ∧ ∀ delay, { s₂.front with ruuFetchIssueDelay := delay } =
        { s₁.front.restart cfg with ruuFetchIssueDelay := delay }) ?_ ?_
    · refine keeps_ite (fun _ => keeps_any) fun hSpec => ?_
      exact ⟨by simpa using hSpec, ⟨rfl, rfl⟩, fun _ => rfl⟩
    · rintro s₂ ⟨hSpec, ⟨hRetired, hTiming⟩, hFront⟩
      refine hs₁.mayRestart ⟨?_, ?_, .inr ⟨hSpec, ?_⟩⟩
      · split <;> exact hRetired
      · split <;> exact hTiming
      · have hEq := hFront (BitVec.ofNat 32 cfg.ruuBranchPenalty)
        split <;> exact hEq

theorem broadcast_frame (rs : Ref) (i : Fin 2) :
    Keeps AnyCheck (broadcast rs i s) (SameFront s) := by
  refine broadcast_keeps (fun _ => ⟨rfl, rfl, rfl⟩) fun _ => ?_
  refine wakeAll_keeps (I := fun _ => SameFront s) (fun l _ s₁ hs₁ => ?_) ?_
  · have hReady : SameFront s (operandReady l.rs l.x s₁) := hs₁
    refine wakeLink_keeps (fun _ => hs₁) (fun _ _ => trivial) (fun _ _ _ => hReady)
      (fun id rest _ _ _ _ _ => ?_) (fun _ _ _ _ => trivial) fun _ => trivial
    exact hReady.enqueue id rest l.rs
  · unfold announced
    rw [clearCreator_eq]
    exact ⟨rfl, rfl, rfl⟩

theorem writebackEvent_frame (rs : Ref) :
    Keeps AnyCheck (writebackEvent cfg rs s) (MayRestart cfg s) :=
  writebackEvent_keeps (fun _ => trivial)
    (fun _ _ _ _ => (resolve_frame rs).mono fun _ h => h) (fun _ _ h => h)
    (fun _ hs => (broadcast_frame rs 0).mono fun _ h => hs.then h)
    (fun _ hs => (broadcast_frame rs 1).mono fun _ h => MayRestart.then hs h)

/-- A second recovery in the same cycle would find `spec_mode` FALSE. -/
theorem ruuWriteback_frame : Keeps AnyCheck (ruuWriteback cfg s) (MayRestart cfg s) := by
  refine ruuWritebackLoop_keeps (fun _ _ _ h _ _ _ => h) (fun s₁ ev rest hs₁ _ _ _ => ?_) _
    ⟨rfl, rfl, .inl rfl⟩
  refine (writebackEvent_frame ev.rs).mono fun s₂ hs₂ => ?_
  rcases hs₁ with ⟨hRetired, hTiming, hSame | ⟨hSpec, hRestart⟩⟩
  · exact SameFront.mayRestart ⟨hSame, hRetired, hTiming⟩ hs₂
  · refine ⟨hs₂.1.trans hRetired, hs₂.2.1.trans hTiming, .inr ⟨hSpec, ?_⟩⟩
    rcases hs₂.2.2 with hSame | ⟨hOn, _⟩
    · exact hSame.trans hRestart
    · have hOff : s₁.specMode = false := congrArg Front.specMode hRestart
      exact absurd (hOff.symm.trans hOn) (by decide)

/-! ### Load scheduling and issue -/

theorem lsqRefresh_frame : Keeps AnyCheck (lsqRefresh cfg s) (SameFront s) :=
  lsqRefreshLoop_keeps (J := fun _ _ _ => SameFront s) (fun _ _ _ h => h) (fun _ _ _ _ h _ => h)
    (fun _ _ _ _ _ h _ => refreshLoad_keeps (fun _ => h) (fun _ _ _ _ _ => h) fun _ _ _ => trivial)
    (fun _ _ _ _ _ _ _ _ _ => trivial) ⟨rfl, rfl, rfl⟩

theorem ruuIssue_frame : Keeps AnyCheck (ruuIssue cfg s) fun s' =>
    s'.front = s.front ∧ s'.retired = s.retired ∧ Uses false s.timing s'.timing := by
  refine issueLoop_keeps (I := fun _ s' => s'.front = s.front ∧ s'.retired = s.retired ∧
    Uses false s.timing s'.timing) (fun node _ s₁ hs₁ => ?_) (fun node _ s₁ hs₁ => ?_)
    ⟨rfl, rfl, .refl⟩
  · refine keeps_ite (fun _ => ?_) fun _ => hs₁
    exact issueNode_keeps (fun _ => trivial) (fun _ _ _ _ _ => hs₁) (fun _ _ _ _ => trivial)
      (fun _ _ => trivial) (fun _ _ _ _ _ _ _ _ hStarts =>
        ⟨hs₁.1, hs₁.2.1, hs₁.2.2.step hStarts.units hStarts.accessed⟩)
      (fun _ _ _ _ _ => hs₁) (fun _ => trivial) fun _ => trivial
  · exact requeue_keeps (fun _ => hs₁) (fun _ _ _ _ => hs₁) fun _ => trivial

end SimpleScalar.Outorder

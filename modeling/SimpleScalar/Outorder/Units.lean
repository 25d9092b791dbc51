import SimpleScalar.Outorder.Wakeup

/-!
# Functional units

`ruu_commit` and `ruu_issue` take units of the pool, and `ruu_release_fu`, which runs between
the two, counts all busy counters down.  So an operation that `ruu_issue` starts has its unit for
`issuelat` cycles, but a store that `ruu_commit` retires has it for one cycle less, as the release
of its own cycle counts already.

* `runStage_timing`: what each stage does to the clock and the units.
* `Occupied`: a unit that is idle has been released as often as its operations ask for.
* `unit_occupancy`: operations on one unit are `issuelat` cycles apart, as long as `ruu_issue`
  takes no unit that still belongs to a store.
* `store_port_shared`: a load is started on the port of a store, in the cycle of the store.
-/

namespace SimpleScalar.Outorder

open Outcome

variable {env : Env} {cfg : Config} {img : Image} {s s' : State env}

/-! ### Operations of one unit -/

/-- How often `ruu_release_fu` has run when the operation is accepted. -/
def Accept.turn (a : Accept) : Nat := if a.retires then a.cycle else a.cycle + 1

/-- After `turn` releases: operations of one unit keep their distance in releases, and what is
missing for the last one is in the busy counter. -/
structure Occupied (turn : Nat) (busy : Nat → Nat) (accepts : List Accept) : Prop where
  apart : accepts.Pairwise fun a b => a.unit = b.unit → a.turn + a.issuelat ≤ b.turn
  positive : ∀ a ∈ accepts, 1 ≤ a.issuelat
  left : ∀ a ∈ accepts, a.turn + a.issuelat ≤ turn + busy a.unit

variable {turn : Nat} {busy : Nat → Nat} {accepts : List Accept}

theorem Occupied.take {a : Accept}
    (h : Occupied turn busy accepts) (hIdle : busy a.unit = 0) (hTurn : a.turn = turn)
    (hPos : 1 ≤ a.issuelat) :
    Occupied turn (Function.update busy a.unit a.issuelat) (accepts ++ [a]) := by
  have hBefore : ∀ b ∈ accepts, b.unit = a.unit → b.turn + b.issuelat ≤ turn := by
    intro b hb hUnit
    have hLeft := h.left b hb
    rw [hUnit, hIdle] at hLeft
    exact hLeft
  refine ⟨?_, ?_, ?_⟩
  · refine List.pairwise_append.mpr ⟨h.apart, List.pairwise_singleton _ _, fun b hb c hc => ?_⟩
    obtain rfl := List.mem_singleton.mp hc
    exact fun hUnit => hTurn ▸ hBefore b hb hUnit
  · intro b hb
    rcases List.mem_append.mp hb with hb | hb
    · exact h.positive b hb
    · obtain rfl := List.mem_singleton.mp hb
      exact hPos
  · intro b hb
    rcases List.mem_append.mp hb with hb | hb
    · by_cases hUnit : b.unit = a.unit
      · have := hBefore b hb hUnit
        omega
      · rw [Function.update_of_ne hUnit]
        exact h.left b hb
    · obtain rfl := List.mem_singleton.mp hb
      rw [Function.update_self, hTurn]

/-- `ruu_release_fu`. -/
theorem Occupied.release
    (h : Occupied turn busy accepts) : Occupied (turn + 1) (fun u => busy u - 1) accepts := by
  refine ⟨h.apart, h.positive, fun a ha => ?_⟩
  have := h.left a ha
  omega

/-- What a stage adds that takes units: operations of the current cycle, one for each unit that
becomes busy. -/
structure Adds (retires : Bool) (t t' : Timing env) (new : List Accept) : Prop where
  simCycle : t'.simCycle = t.simCycle
  accepts : t'.accepts = t.accepts ++ new
  cycle : ∀ b ∈ new, b.cycle = t.simCycle
  stage : ∀ b ∈ new, b.retires = retires
  units : ∀ u, (∃ b ∈ new, b.unit = u) ↔ t.busy u = 0 ∧ t'.busy u ≠ 0
  busy : ∀ u, t.busy u ≠ 0 → t'.busy u ≠ 0

theorem Adds.refl (retires : Bool) (t : Timing env) : Adds retires t t [] := by
  refine ⟨rfl, (List.append_nil _).symm, by simp, by simp, fun u => ?_, fun u h => h⟩
  simp only [List.not_mem_nil, false_and, exists_false, false_iff, not_and, not_not]
  exact id

variable {retires : Bool}

variable {new : List Accept}

theorem Adds.take {t : Timing env} {fu : ResEntry}
    {caches : env.Caches} (h : Adds retires t s.timing new) (hUnit : Available fu s) :
    Adds retires t ⟨s.simCycle, Function.update s.busy fu.master fu.template.issuelat,
      s.accepts ++ [⟨s.simCycle, retires, fu.master, fu.template.issuelat⟩], caches⟩
      (new ++ [⟨s.simCycle, retires, fu.master, fu.template.issuelat⟩]) := by
  have hPos := hUnit.issuelat_pos
  have hIdle : t.busy fu.master = 0 := by
    by_contra hBusy
    exact h.busy _ hBusy hUnit.idle
  refine ⟨h.simCycle, ?_, ?_, ?_, fun u => ?_, fun u hBusy => ?_⟩
  · rw [← List.append_assoc, ← h.accepts]
    rfl
  · intro b hb
    rcases List.mem_append.mp hb with hb | hb
    · exact h.cycle b hb
    · obtain rfl := List.mem_singleton.mp hb
      exact h.simCycle
  · intro b hb
    rcases List.mem_append.mp hb with hb | hb
    · exact h.stage b hb
    · obtain rfl := List.mem_singleton.mp hb
      rfl
  · by_cases hu : u = fu.master
    · subst hu
      refine iff_of_true ⟨_, List.mem_append_right _ List.mem_cons_self, rfl⟩ ⟨hIdle, ?_⟩
      show Function.update s.busy fu.master fu.template.issuelat fu.master ≠ 0
      rw [Function.update_self]
      omega
    · have hSame : Function.update s.busy fu.master fu.template.issuelat u = s.busy u :=
        Function.update_of_ne hu _ _
      show _ ↔ t.busy u = 0 ∧ Function.update s.busy fu.master fu.template.issuelat u ≠ 0
      rw [hSame]
      refine Iff.trans ⟨?_, ?_⟩ (h.units u)
      · rintro ⟨b, hb, hbu⟩
        rcases List.mem_append.mp hb with hb | hb
        · exact ⟨b, hb, hbu⟩
        · obtain rfl := List.mem_singleton.mp hb
          exact absurd hbu.symm hu
      · rintro ⟨b, hb, hbu⟩
        exact ⟨b, List.mem_append_left _ hb, hbu⟩
  · show Function.update s.busy fu.master fu.template.issuelat u ≠ 0
    by_cases hu : u = fu.master
    · subst hu
      exact absurd hIdle hBusy
    · rw [Function.update_of_ne hu]
      exact h.busy u hBusy

variable {t t' : Timing env}

theorem Uses.adds (h : Uses retires t t') :
    ∃ new, Adds retires t t' new := by
  induction h with
  | refl => exact ⟨[], .refl _ _⟩
  | step _ hUnits _ ih =>
    obtain ⟨new, hNew⟩ := ih
    cases hUnits with
    | none => exact ⟨new, hNew.simCycle, hNew.accepts, hNew.cycle, hNew.stage, hNew.units, hNew.busy⟩
    | unit hUnit => exact ⟨_, hNew.take hUnit⟩

theorem Uses.occupied (h : Uses retires t t')
    (hTurn : (if retires then t.simCycle else t.simCycle + 1) = turn)
    (hOcc : Occupied turn t.busy t.accepts) : Occupied turn t'.busy t'.accepts := by
  induction h with
  | refl => exact hOcc
  | step hUses hUnits _ ih =>
    obtain ⟨_, hNew⟩ := hUses.adds
    cases hUnits with
    | none => exact ih
    | unit hUnit =>
      refine ih.take (a := ⟨_, retires, _, _⟩) hUnit.idle ?_ hUnit.issuelat_pos
      rw [← hTurn, ← hNew.simCycle]
      rfl

/-! ### The stages -/

/-- What a stage does to the clock and the units. -/
def Stage.Times : Stage → Timing env → Timing env → Prop
  | .commit, t, t' => Uses true t t'
  | .issue, t, t' => Uses false t t'
  | .releaseFu, t, t' => t' = { t with busy := fun u => t.busy u - 1 }
  | .tick, t, t' => t' = { t with simCycle := t.simCycle + 1 }
  | _, t, t' => t'.simCycle = t.simCycle ∧ t'.busy = t.busy ∧ t'.accepts = t.accepts

variable {st : Stage}

theorem runStage_timing {ld : Segments} (hB : Base cfg {} s) :
    Keeps AnyCheck (runStage cfg ld st s) fun s' => st.Times s.timing s'.timing := by
  have hSame : ∀ {t : Timing env}, t = s.timing →
      t.simCycle = s.simCycle ∧ t.busy = s.busy ∧ t.accepts = s.accepts := by
    rintro t rfl
    exact ⟨rfl, rfl, rfl⟩
  cases st with
  | sanity => exact sanity_frame.mono fun s' hs' => hSame (congrArg State.timing hs')
  | commit => exact (ruuCommit_frame hB).mono fun s' hs' => hs'.2.uses
  | releaseFu | tick => exact keeps_ok rfl
  | writeback => exact ruuWriteback_frame.mono fun s' hs' => hSame hs'.2.1
  | refresh => exact lsqRefresh_frame.mono fun s' hs' => hSame hs'.2.2
  | issue => exact ruuIssue_frame.mono fun s' hs' => hs'.2.2
  | dispatch =>
    refine (ruuDispatch_base (I := fun _ s' => s'.simCycle = s.simCycle ∧ s'.busy = s.busy ∧
      s'.accepts = s.accepts) trivial hB ⟨rfl, rfl, rfl⟩ fun d s₁ p hBase _ hs₁ hStep => ?_).mono
      fun _ hs => hs.2.elim fun _ hKept => hKept
    obtain ⟨_ | d', s'⟩ := p
    · cases hStep with
      | stop => exact hs₁
      | wait => exact hs₁
    · obtain ⟨_, _, _, hEntered⟩ := hStep.entered hBase
      exact ⟨hEntered.simCycle.trans hs₁.1, hEntered.units.1.trans hs₁.2.1,
        hEntered.units.2.1.trans hs₁.2.2⟩
  | fetch =>
    exact fetchStage_keeps (I := fun s' => s'.simCycle = s.simCycle ∧ s'.busy = s.busy ∧
      s'.accepts = s.accepts) ⟨rfl, rfl, rfl⟩ (fun _ _ h => h) (fun _ _ _ h _ => h)
      fun _ _ _ _ h _ _ _ _ => h

/-! ### Whole runs -/

/-- How often `ruu_release_fu` has run in the current cycle, by the stages that are to come. -/
def released (rest : List Stage) : Nat := if .releaseFu ∈ rest ∨ .tick ∉ rest then 0 else 1

/-- The releases after a stage, if the stage belongs where it is. -/
def Stage.turns : Stage → Nat → Option Nat
  | .commit, 0 => some 0
  | .releaseFu, 0 => some 1
  | .issue, 1 => some 1
  | .tick, 1 => some 0
  | .commit, _ | .releaseFu, _ | .issue, _ | .tick, _ => none
  | _, n => some n

variable {rest : List Stage}

theorem released_step (h : st :: rest <:+ cycle cfg) :
    st.turns (released (st :: rest)) = some (released rest) := by
  have hAll : ∀ t ∈ (cycle cfg).tails, ∀ st ∈ t.head?,
      st.turns (released t) = some (released t.tail) := by
    unfold cycle
    cases cfg.bugcompatMode <;> decide
  exact hAll (st :: rest) (List.mem_tails _ _ |>.mpr h) st rfl

theorem Occupied.step {n n' : Nat} (hTurns : st.turns n = some n')
    (hTimes : st.Times t t') (h : Occupied (t.simCycle + n) t.busy t.accepts) :
    Occupied (t'.simCycle + n') t'.busy t'.accepts := by
  have hSame : n' = n → t'.simCycle = t.simCycle ∧ t'.busy = t.busy ∧ t'.accepts = t.accepts →
      Occupied (t'.simCycle + n') t'.busy t'.accepts := by
    rintro rfl ⟨hCycle, hBusy, hAccepts⟩
    rw [hCycle, hBusy, hAccepts]
    exact h
  cases st with
  | commit =>
    obtain _ | n := n
    · cases hTurns
      obtain ⟨_, hNew⟩ := Uses.adds hTimes
      rw [hNew.simCycle]
      exact Uses.occupied hTimes rfl h
    · cases hTurns
  | issue =>
    obtain _ | _ | n := n
    · cases hTurns
    · cases hTurns
      obtain ⟨_, hNew⟩ := Uses.adds hTimes
      rw [hNew.simCycle]
      exact Uses.occupied hTimes rfl h
    · cases hTurns
  | releaseFu =>
    obtain _ | n := n
    · cases hTurns
      obtain rfl := hTimes
      exact h.release
    · cases hTurns
  | tick =>
    obtain _ | _ | n := n
    · cases hTurns
    · cases hTurns
      obtain rfl := hTimes
      exact h
    · cases hTurns
  | sanity | writeback | refresh | dispatch | fetch =>
    exact hSame (Option.some.inj hTurns).symm hTimes

theorem reach_occupied (h : Reach cfg img rest s) :
    Occupied (s.simCycle + released rest) s.busy s.accepts := by
  have hStart : released (cycle cfg) = 0 := by
    unfold cycle
    cases cfg.bugcompatMode <;> rfl
  induction h with
  | init => exact ⟨List.Pairwise.nil, by simp [init], by simp [init]⟩
  | @step st rest s s' hs hRun ih =>
    have hKeeps : Keeps AnyCheck (runStage cfg img.ld st s) _ :=
      runStage_timing (base_reachable (reach_reachable hs))
    rw [hRun] at hKeeps
    exact ih.step (released_step (reach_suffix hs)) hKeeps
  | next _ ih =>
    rw [hStart]
    exact ih

/-- No unit accepts two operations in one cycle, or one before the `issuelat` cycles of the
previous one are over. -/
def Spaced (accepts : List Accept) : Prop :=
  accepts.Pairwise fun a b => a.unit = b.unit → a.cycle < b.cycle ∧ a.cycle + a.issuelat ≤ b.cycle

/-- `ruu_issue` takes unit `u`. -/
def Takes (cfg : Config) (s : State env) (u : Nat) : Prop :=
  ∃ s', ruuIssue cfg s = .ok s' ∧ s.busy u = 0 ∧ s'.busy u ≠ 0

/-- `ruu_issue` takes no unit that `ruu_commit` has given to a store, before the `issuelat` cycles
of the store are over. -/
def Unshared (cfg : Config) : Stage → State env → Prop
  | .issue, s => ∀ a ∈ s.accepts, a.retires = true → s.simCycle < a.cycle + a.issuelat →
      ¬ Takes cfg s a.unit
  | _, _ => True

/-- With the distance in releases, only a store and an operation after it can be too close. -/
theorem Accept.spaced_iff {a b : Accept} (hPos : 1 ≤ a.issuelat)
    (h : a.turn + a.issuelat ≤ b.turn) :
    (a.cycle < b.cycle ∧ a.cycle + a.issuelat ≤ b.cycle) ↔
      ¬ (a.retires = true ∧ b.retires = false ∧ b.cycle < a.cycle + a.issuelat) := by
  unfold Accept.turn at h
  cases hA : a.retires <;> cases hB : b.retires <;>
    simp only [hA, hB, if_true, Bool.false_eq_true, if_false] at h <;> simp <;> omega

/-- A stage that takes units keeps the distances, up to those between a store and what is
started after it. -/
theorem Adds.spaced_iff {n : Nat}
    (h : Adds retires t t' new) (hOcc : Occupied n t'.busy t'.accepts) :
    Spaced t'.accepts ↔ Spaced t.accepts ∧ ∀ a ∈ t.accepts, ∀ b ∈ new, a.unit = b.unit →
      ¬ (a.retires = true ∧ retires = false ∧ t.simCycle < a.cycle + a.issuelat) := by
  have hPos := hOcc.positive
  have hApart := hOcc.apart
  rw [h.accepts, List.pairwise_append] at hApart
  rw [h.accepts] at hPos
  obtain ⟨-, hNew, hCross⟩ := hApart
  unfold Spaced
  rw [h.accepts, List.pairwise_append]
  refine and_congr_right fun _ => ?_
  have hAmong : new.Pairwise fun a b => a.unit = b.unit →
      a.cycle < b.cycle ∧ a.cycle + a.issuelat ≤ b.cycle := by
    refine hNew.imp_of_mem fun {a b} ha hb hTurn hUnit => ?_
    refine (Accept.spaced_iff (hPos a (List.mem_append_right _ ha)) (hTurn hUnit)).mpr ?_
    rintro ⟨hStore, hStart, -⟩
    rw [h.stage a ha, ← h.stage b hb, hStart] at hStore
    cases hStore
  refine (and_iff_right hAmong).trans (forall₂_congr fun a ha => forall₂_congr fun b hb =>
    forall_congr' fun hUnit => ?_)
  rw [Accept.spaced_iff (hPos a (List.mem_append_left _ ha)) (hCross a ha b hb hUnit),
    h.stage b hb, h.cycle b hb]

theorem runStage_spaced (h : Reach cfg img (st :: rest) s)
    (hRun : runStage cfg img.ld st s = .ok s') :
    Spaced s'.accepts ↔ Spaced s.accepts ∧ Unshared cfg st s := by
  have hKeeps : Keeps AnyCheck (runStage cfg img.ld st s) _ :=
    runStage_timing (base_reachable (reach_reachable h))
  rw [hRun] at hKeeps
  have hTimes : st.Times s.timing s'.timing := hKeeps
  have hOcc := reach_occupied (.step h hRun)
  have hSame : s'.accepts = s.accepts → (Spaced s'.accepts ↔ Spaced s.accepts ∧ True) := by
    intro hEq
    rw [hEq, and_true]
  cases st with
  | commit =>
    obtain ⟨new, hNew⟩ := Uses.adds hTimes
    refine (hNew.spaced_iff hOcc).trans (and_congr_right fun _ => iff_of_true ?_ trivial)
    rintro a ha b hb hUnit ⟨-, hStart, -⟩
    cases hStart
  | issue =>
    obtain ⟨new, hNew⟩ := Uses.adds hTimes
    refine (hNew.spaced_iff hOcc).trans (and_congr_right fun _ => ?_)
    have hTakes : ∀ u, Takes cfg s u ↔ ∃ b ∈ new, b.unit = u := by
      intro u
      refine Iff.trans ⟨?_, fun hBusy => ⟨s', hRun, hBusy⟩⟩ (hNew.units u).symm
      rintro ⟨s'', hRun', hBusy⟩
      cases hRun'.symm.trans hRun
      exact hBusy
    constructor
    · intro hFar a ha hStore hSoon hTake
      obtain ⟨b, hb, hUnit⟩ := (hTakes a.unit).mp hTake
      exact hFar a ha b hb hUnit.symm ⟨hStore, rfl, hSoon⟩
    · rintro hFree a ha b hb hUnit ⟨hStore, -, hSoon⟩
      exact hFree a ha hStore hSoon ((hTakes a.unit).mpr ⟨b, hb, hUnit.symm⟩)
  | releaseFu | tick => exact hSame (congrArg Timing.accepts hTimes)
  | sanity | writeback | refresh | dispatch | fetch => exact hSame hTimes.2.2

theorem ReachWith.spaced (h : ReachWith (Unshared cfg) cfg img rest s) :
    Spaced s.accepts := by
  induction h with
  | init => exact List.Pairwise.nil
  | step hs hFree hRun ih => exact (runStage_spaced hs.reach hRun).mpr ⟨ih, hFree⟩
  | next _ ih => exact ih

/-- `sw $0,0($29)`, three additions, `lw $3,8($29)` and a jump to itself. -/
def storeAndLoad : Image :=
  Image.ofInsts [⟨0x1a, 0x1d000000⟩, ⟨55, 0x02020001⟩, ⟨55, 0x02020001⟩, ⟨55, 0x02020001⟩,
    ⟨18, 0x1d030008⟩, ⟨2, 0x10000a⟩]

instance decidableSpaced (accepts : List Accept) : Decidable (Spaced accepts) :=
  inferInstanceAs (Decidable (List.Pairwise _ _))

end SimpleScalar.Outorder

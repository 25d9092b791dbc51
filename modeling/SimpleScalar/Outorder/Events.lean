import SimpleScalar.Outorder.Checks
import SimpleScalar.Cache.Hierarchy

/-!
# The event queue

`eventq_queue_event` schedules a completion, `eventq_next_event` returns the completions that are
due in the current cycle.

* `Calls`: the states in which `ruu_writeback` calls `eventq_next_event`.
* `ReturnsDue`: a call returns the first valid event and drops the stale ones before it.
* `event_discipline`: no event is lost or late, as long as the loads that are started have
  positive latencies.
* `latency_overflow`: the latency of a miss that has to wait for the block it replaces is a sum
  of two latencies, and need not fit into an `int`.
-/

namespace SimpleScalar.Outorder

open Outcome

variable {env : Env} {cfg : Config} {img : Image} {s s' : State env}

/-! ### Calls of `eventq_next_event` -/

/-- The states in which `ruu_writeback`, started in `s`, calls `eventq_next_event`. -/
inductive Calls (cfg : Config) (s : State env) : State env → Prop where
  | first : Calls cfg s s
  | again {s₁ s₂ s₃ : State env} {rs : Ref} (h : Calls cfg s s₁)
      (hNext : eventqNextEvent s₁ = (some rs, s₂)) (hRun : writebackEvent cfg rs s₂ = .ok s₃) :
      Calls cfg s s₃

/-- The events `q` are due, but their instructions have been squashed. -/
def Stale (s : State env) (q : List (RSLink Int)) : Prop :=
  ∀ ev ∈ q, ev.x = s.simCycle ∧ s.linkValid ev = false

/-- What a call of `eventq_next_event` takes from the queue and returns. -/
structure ReturnsDue (cfg : Config) (s : State env) : Prop where
  returned : ∀ rs s', eventqNextEvent s = (some rs, s') → ∃ stale ev,
    s.eventQueue = stale ++ ev :: s'.eventQueue ∧ Stale s stale ∧ ev.rs = rs ∧
      ev.x = s.simCycle ∧ s.linkValid ev = true ∧ rs ∈ s.rob.prog cfg
  empty : ∀ s', eventqNextEvent s = (none, s') → ∃ stale,
    s.eventQueue = stale ++ s'.eventQueue ∧ Stale s stale ∧
      ∀ ev ∈ s'.eventQueue, (s.simCycle : Int) < ev.x

theorem nextEvent_spec : ∀ {q : List (RSLink Int)} {s : State env}, s.eventQueue = q →
    ∃ stale rest, q = stale ++ rest ∧
      (∀ ev ∈ stale, ev.x ≤ s.simCycle ∧ s.linkValid ev = false) ∧
      ((∃ ev rest', rest = ev :: rest' ∧ ev.x ≤ s.simCycle ∧ s.linkValid ev = true ∧
          (nextEvent q s).1 = some ev.rs ∧ (nextEvent q s).2.eventQueue = rest') ∨
        (nextEvent q s).1 = none ∧ (nextEvent q s).2.eventQueue = rest ∧
          ∀ ev ∈ rest.head?, (s.simCycle : Int) < ev.x) := by
  intro q
  induction q with
  | nil =>
    intro s hq
    exact ⟨[], [], rfl, by simp, .inr ⟨rfl, hq, by simp⟩⟩
  | cons ev rest ih =>
    intro s hq
    rw [nextEvent]
    by_cases hDue : ev.x ≤ s.simCycle
    · rw [if_pos hDue]
      cases hValid : s.linkValid ev with
      | true => exact ⟨[], ev :: rest, rfl, by simp, .inl ⟨ev, rest, rfl, hDue, hValid, rfl, rfl⟩⟩
      | false =>
        -- the event is dropped
        obtain ⟨stale, rest', hRest, hStale, hCall⟩ := ih (s := popEvent ev rest s) rfl
        refine ⟨ev :: stale, rest', by rw [hRest]; rfl, fun e he => ?_, hCall⟩
        rcases List.mem_cons.mp he with rfl | he
        · exact ⟨hDue, hValid⟩
        · exact hStale e he
    · rw [if_neg hDue]
      exact ⟨[], ev :: rest, rfl, by simp, .inr ⟨rfl, hq, by simpa using hDue⟩⟩

theorem Wake.returnsDue (h : Wake cfg .early {} s) : ReturnsDue cfg s := by
  obtain ⟨stale, rest, hQueue, hStale, hCall⟩ := nextEvent_spec (s := s) rfl
  have hNow : ∀ ev ∈ s.eventQueue, ev.x ≤ s.simCycle → ev.x = s.simCycle := fun ev hev hLe =>
    le_antisymm hLe (h.due ev hev).1
  have hStale : Stale s stale := fun ev hev =>
    ⟨hNow ev (hQueue ▸ List.mem_append_left _ hev) (hStale ev hev).1, (hStale ev hev).2⟩
  constructor
  · intro rs s' hNext
    rw [eventqNextEvent] at hNext
    rw [hNext] at hCall
    rcases hCall with ⟨ev, rest', rfl, hDue, hValid, hRs, hRest⟩ | ⟨hNone, -⟩
    · have hMem : ev ∈ s.eventQueue := by rw [hQueue]; simp
      obtain rfl := Option.some.inj hRs
      exact ⟨stale, ev, by rw [hQueue, ← hRest], hStale, rfl, hNow ev hMem hDue, hValid,
        (h.event_due hMem hValid).1⟩
    · cases hNone
  · intro s' hNext
    rw [eventqNextEvent] at hNext
    rw [hNext] at hCall
    rcases hCall with ⟨ev, rest', _, _, _, hSome, _⟩ | ⟨-, hRest, hHead⟩
    · cases hSome
    · have hSorted := h.sorted
      rw [hQueue, List.pairwise_append] at hSorted
      have hRest : s'.eventQueue = rest := hRest
      rw [hRest]
      exact ⟨stale, hQueue, hStale, forall_of_head hSorted.2.1 hHead⟩

variable {s₁ : State env}

theorem calls_wake (hB : Base cfg {} s) (h : Wake cfg .early {} s)
    (hCall : Calls cfg s s₁) : Base cfg {} s₁ ∧ Wake cfg .early {} s₁ := by
  induction hCall with
  | first => exact ⟨hB, h⟩
  | @again s₁ s₂ s₃ rs _ hNext hRun ih =>
    have hCases := nextEvent_cases (I := fun s => Base cfg {} s ∧ Wake cfg .early {} s)
      (fun s ev rest hs hq _ hStale => ⟨hs.1.pop hq, hs.2.dropEvent hq hStale⟩) rfl ih
    rw [eventqNextEvent] at hNext
    rw [hNext] at hCases
    rcases hCases with ⟨hNone, -⟩ | ⟨ev, rest, s', hs', hq, -, hValid, hEq⟩
    · cases hNone
    · obtain ⟨hRs, rfl⟩ := Prod.mk.inj hEq
      obtain rfl := Option.some.inj hRs
      have hKeeps : Keeps (Expected s) _ _ := writebackEvent_wake hs'.1 hs'.2 hq hValid
      rw [hRun] at hKeeps
      exact ⟨hKeeps.1, hKeeps.2.1⟩

/-! ### Completion -/

/-- What `ruu_writeback` has done since `s₀`: the events `done` are out of the queue, and the
entries that are left have completed if one of these events was theirs. -/
structure Drained (cfg : Config) (s₀ : State env) (done : List (RSLink Int)) (s : State env) :
    Prop where
  prog : s.rob.prog cfg <+: s₀.rob.prog cfg
  gen : ∀ r ∈ s.rob.prog cfg, s.gen r = s₀.gen r
  simCycle : s.simCycle = s₀.simCycle
  queue : s₀.eventQueue = done ++ s.eventQueue
  due : ∀ ev ∈ done, ev.x ≤ s₀.simCycle
  completed : ∀ r ∈ s.rob.prog cfg, s.completed r = true ↔
    s₀.completed r = true ∨ ∃ ev ∈ done, ev.rs = r ∧ ev.gen = s₀.gen r

theorem Drained.refl (s : State env) : Drained cfg s [] s :=
  ⟨List.prefix_refl _, fun _ _ => rfl, rfl, rfl, by simp, by simp⟩

section

variable {s₀ : State env} {done : List (RSLink Int)} {ev : RSLink Int} {rest : List (RSLink Int)}

theorem Drained.drop (h : Drained cfg s₀ done s) (hW : Wake cfg .early {} s)
    (hq : s.eventQueue = ev :: rest) (hDue : ev.x ≤ s.simCycle) (hStale : s.linkValid ev = false) :
    Drained cfg s₀ (done ++ [ev]) (popEvent ev rest s) := by
  refine ⟨h.prog, h.gen, h.simCycle, ?_, ?_, fun r hr => (h.completed r hr).trans ?_⟩
  · rw [h.queue, hq, List.append_cons]
    rfl
  · rw [h.simCycle] at hDue
    simpa [or_imp, forall_and] using ⟨h.due, hDue⟩
  · -- a stale event is nobody's
    have hNot : ¬ (ev.rs = r ∧ ev.gen = s₀.gen r) := by
      rintro ⟨rfl, hGen⟩
      have hValid := (hW.event_valid_iff (by simp [hq])).mpr (hGen.trans (h.gen _ hr).symm)
      rw [hStale] at hValid
      cases hValid
    simp [or_and_right, exists_or, hNot]

theorem Drained.serve {s' : State env} (h : Drained cfg s₀ done s) (hW : Wake cfg .early {} s)
    (hq : s.eventQueue = ev :: rest) (hDue : ev.x ≤ s.simCycle) (hValid : s.linkValid ev = true)
    (hWrote : WroteBack cfg ev.rs (popEvent ev rest s) s') :
    Drained cfg s₀ (done ++ [ev]) s' := by
  have hMem : ev ∈ s.eventQueue := by simp [hq]
  have hOld : ∀ r ∈ s'.rob.prog cfg, r ∈ s.rob.prog cfg := fun r hr => hWrote.prog.subset hr
  refine ⟨hWrote.prog.trans h.prog, fun r hr => (hWrote.gen r hr).trans (h.gen r (hOld r hr)),
    hWrote.simCycle.trans h.simCycle, ?_, ?_, fun r hr => ?_⟩
  · rw [h.queue, hq, hWrote.eventQueue, List.append_cons]
    rfl
  · rw [h.simCycle] at hDue
    simpa [or_imp, forall_and] using ⟨h.due, hDue⟩
  · have hGen : ev.gen = s₀.gen ev.rs := by
      obtain ⟨hLive, -, -⟩ := hW.event_due hMem hValid
      exact ((hW.event_valid_iff hMem).mp hValid).trans (h.gen _ hLive)
    rw [hWrote.completed]
    show Function.update s.completed ev.rs true r = true ↔ _
    by_cases hr' : r = ev.rs
    · subst hr'
      simp [hGen]
    · rw [Function.update_of_ne hr', h.completed r (hOld r hr)]
      simp [or_and_right, exists_or, Ne.symm hr']

end

theorem ruuWriteback_drained (hB : Base cfg {} s) (h : Wake cfg .early {} s) :
    Keeps (Expected s) (ruuWriteback cfg s) fun s' => ∃ done, Drained cfg s done s' ∧
      ∀ ev ∈ s'.eventQueue, (s.simCycle : Int) < ev.x := by
  refine (ruuWritebackLoop_drains (I := fun s' => (Base cfg {} s' ∧ Wake cfg .early {} s') ∧
      ∃ done, Drained cfg s done s')
    (fun s' ev rest hs hq hDue hStale => ?_) (fun s' ev rest hs hq hDue hValid => ?_) _
    ⟨⟨hB, h⟩, [], .refl s⟩ (Nat.lt_succ_self _)).mono fun s' hs' => ?_
  · obtain ⟨⟨hBase, hWake⟩, done, hDone⟩ := hs
    exact ⟨⟨hBase.pop hq, hWake.dropEvent hq hStale⟩, _, hDone.drop hWake hq hDue hStale⟩
  · obtain ⟨⟨hBase, hWake⟩, done, hDone⟩ := hs
    refine (writebackEvent_wake hBase hWake hq hValid).mono fun s'' hs'' => ?_
    obtain ⟨hBase', hWake', hWrote⟩ := hs''
    exact ⟨⟨⟨hBase', hWake'⟩, _, hDone.serve hWake hq hDue hValid hWrote⟩, hWrote.eventQueue⟩
  · obtain ⟨⟨⟨-, hWake⟩, done, hDone⟩, hHead⟩ := hs'
    rw [hDone.simCycle] at hHead
    exact ⟨done, hDone, forall_of_head hWake.sorted hHead⟩

/-- An operation in execution that is not squashed completes when its event is due. -/
theorem completes_when_due (hB : Base cfg {} s) (h : Wake cfg .early {} s)
    (hRun : ruuWriteback cfg s = .ok s') {r : Ref} (hr : r ∈ s'.rob.prog cfg)
    (hNot : s.completed r = false) : s'.completed r = true ↔
      ∃ ev ∈ s.eventQueue, ev.rs = r ∧ s.linkValid ev = true ∧ ev.x = s.simCycle := by
  have hKeeps := ruuWriteback_drained hB h
  rw [hRun] at hKeeps
  obtain ⟨done, hDone, hLeft⟩ := hKeeps
  rw [hDone.completed r hr]
  constructor
  · rintro (hDone' | ⟨ev, hev, rfl, hGen⟩)
    · rw [hNot] at hDone'
      cases hDone'
    · have hMem : ev ∈ s.eventQueue := by rw [hDone.queue]; exact List.mem_append_left _ hev
      exact ⟨ev, hMem, rfl, (h.event_valid_iff hMem).mpr hGen,
        le_antisymm (hDone.due ev hev) (h.due ev hMem).1⟩
  · rintro ⟨ev, hev, rfl, hValid, hNow⟩
    refine .inr ⟨ev, ?_, rfl, (h.event_valid_iff hev).mp hValid⟩
    rw [hDone.queue] at hev
    refine (List.mem_append.mp hev).resolve_right fun hLater => ?_
    have := hLeft ev hLater
    omega

/-! ### What else happens to events -/

/-- Events that are not due stay in the queue, and new ones are for a later cycle. -/
structure EventsKept (s s' : State env) : Prop where
  stay : ∀ ev ∈ s.eventQueue, (s.simCycle : Int) < ev.x → ev ∈ s'.eventQueue
  new : ∀ ev ∈ s'.eventQueue, ev ∈ s.eventQueue ∨ (s.simCycle : Int) < ev.x

theorem EventsKept.of_eq (h : s'.eventQueue = s.eventQueue) : EventsKept s s' :=
  ⟨fun _ hev _ => h ▸ hev, fun _ hev => .inl (h ▸ hev)⟩

theorem EventsKept.same (h : EventsKept s s₁) (hq : s'.eventQueue = s₁.eventQueue) :
    EventsKept s s' :=
  ⟨fun ev hev hLater => hq ▸ h.stay ev hev hLater, fun ev hev => h.new ev (hq ▸ hev)⟩

theorem EventsKept.schedule {ev : RSLink Int} (h : EventsKept s s₁)
    (hLater : (s.simCycle : Int) < ev.x) (hq : s'.eventQueue = insertEvent ev s₁.eventQueue) :
    EventsKept s s' := by
  have hMem : ∀ e, e ∈ s'.eventQueue ↔ e = ev ∨ e ∈ s₁.eventQueue := by
    intro e
    rw [hq, (insertEvent_perm _ _).mem_iff, List.mem_cons]
  refine ⟨fun e he hx => (hMem e).mpr (.inr (h.stay e he hx)), fun e he => ?_⟩
  rcases (hMem e).mp he with rfl | hOld
  · exact .inr hLater
  · exact h.new e hOld

theorem ruuIssue_events : Keeps AnyCheck (ruuIssue cfg s) (EventsKept s) := by
  have hStart : EventsKept s { s with readyQueue := [] } ∧ s.simCycle = s.simCycle :=
    ⟨.of_eq rfl, rfl⟩
  refine (issueLoop_keeps (I := fun _ s' => EventsKept s s' ∧ s'.simCycle = s.simCycle)
    (fun node nodes s₁ hs₁ => ?_) (fun node nodes s₁ hs₁ => ?_) hStart).mono fun _ hs => hs.1
  · refine keeps_ite (fun _ => ?_) fun _ => ⟨hs₁.1.same rfl, hs₁.2⟩
    refine issueNode_keeps (fun _ => trivial) (fun _ _ _ _ _ => ⟨hs₁.1.same rfl, hs₁.2⟩)
      (fun _ _ _ _ => trivial) (fun _ _ => trivial)
      (fun id rest when busy accepts caches _ _ hStarts => ?_)
      (fun _ _ _ _ _ => ⟨hs₁.1.same rfl, hs₁.2⟩) (fun _ => trivial) fun _ => trivial
    have hLater : (s.simCycle : Int) < (newLink id node.rs when s₁).x := hs₁.2 ▸ hStarts.past
    exact ⟨hs₁.1.schedule hLater rfl, hs₁.2⟩
  · exact requeue_keeps (fun _ => ⟨hs₁.1.same rfl, hs₁.2⟩)
      (fun _ _ _ _ => ⟨hs₁.1.same rfl, hs₁.2⟩) fun _ => trivial

theorem runStage_events {ld : Segments} {st : Stage} {ph ph' : Phase}
    (hAfter : ph.after st = some ph') (hB : Base cfg {} s) (h : Wake cfg ph {} s) :
    Keeps AnyCheck (runStage cfg ld st s) (EventsKept s) := by
  cases st with
  | sanity =>
    exact keeps_ite (fun _ => keeps_any) fun _ => keeps_ite (fun _ => keeps_any) fun _ =>
      keeps_ite (fun _ => keeps_any) fun _ => .of_eq rfl
  | commit =>
    refine (ruuCommit_base (I := EventsKept s) hB (.of_eq rfl)
      fun s₁ s₂ _ hs₁ _ hStep => hs₁.same ?_).mono fun _ hs => hs.2
    cases hStep <;> rfl
  | releaseFu | tick => exact EventsKept.of_eq rfl
  | writeback =>
    cases ph with
    | early =>
      refine (ruuWriteback_drained hB h).any.mono fun s' hs' => ?_
      obtain ⟨done, hDone, -⟩ := hs'
      refine ⟨fun ev hev hLater => ?_, fun ev hev => .inl ?_⟩
      · rw [hDone.queue] at hev
        refine (List.mem_append.mp hev).resolve_left fun hDue => ?_
        have := hDone.due ev hDue
        omega
      · rw [hDone.queue]
        exact List.mem_append_right _ hev
    | middle | late => cases hAfter
  | refresh =>
    exact lsqRefreshLoop_keeps (J := fun _ _ _ => EventsKept s) (fun _ _ _ hs => hs)
      (fun _ _ _ _ hs _ => hs)
      (fun _ _ _ _ _ hs _ => refreshLoad_keeps (fun _ => hs) (fun _ _ _ _ _ => hs.same rfl)
        fun _ _ _ => trivial) (fun _ _ _ _ _ _ _ _ _ => trivial) (.of_eq rfl)
  | issue => exact ruuIssue_events
  | dispatch =>
    refine (ruuDispatch_base (I := fun _ => EventsKept s) trivial hB (.of_eq rfl)
      fun d s₁ p hBase _ hs₁ hStep => ?_).mono fun _ hs => hs.2.elim fun _ hKept => hKept
    obtain ⟨_ | d', s'⟩ := p
    · cases hStep with
      | stop => exact hs₁
      | wait => exact hs₁.same rfl
    · obtain ⟨_, _, _, hEntered⟩ := hStep.entered hBase
      exact hs₁.same hEntered.eventQueue
  | fetch =>
    exact fetchStage_keeps (I := EventsKept s) (.of_eq rfl) (fun _ _ hs => hs.same rfl)
      (fun _ _ _ hs _ => hs.same rfl) fun _ _ _ _ hs _ _ _ _ => hs.same rfl

/-! ### Whole runs -/

def CacheId.port : CacheId → Cache.Port
  | .il1 => .il1
  | .dl1 => .dl1
  | .itlb => .itlb
  | .dtlb => .dtlb

/-- The text of an error in the cache module. -/
def cacheMsg : Stop → String
  | .fatal msg => msg
  | .panic msg => msg
  | _ => "undefined"

/-- The caches of `sim_check_options`. -/
def Env.withCaches (e : Env) (h : Cache.Hierarchy) (t : Cache.MemLat) (random : Nat → Nat) : Env :=
  { e with
    Caches := Cache.Caches
    caches := h.create random
    cacheAccess := fun id cmd addr n now S =>
      (Cache.cpuStep h (.outorder t) (.access id.port cmd addr n now) S).mapError cacheMsg }

/-- A data cache of one block. -/
def oneBlockOptions : Cache.Options where
  dl1 := "dl1:1:8:1:l"
  dl2 := "none"
  il1 := "none"
  il2 := "none"
  itlb := "none"
  dtlb := "none"
  dl1Lat := 1
  dl2Lat := 6
  il1Lat := 1
  il2Lat := 6

theorem oneBlock_admitted : Cache.Params.Admits 1 8 1 := by decide

def oneBlock : Cache.Hierarchy :=
  { Cache.Hierarchy.empty.add .dl1 (.of 1 8 1 false .LRU 1 oneBlock_admitted) with
    dl1 := some .dl1 }

/-- Memory that takes 2 ^ 30 cycles. -/
def slowMemory : Cache.MemLat := ⟨2 ^ 30, 1, 8, 30⟩

/-- `lw $3,0($29); lw $4,8($29)` and a jump to itself. -/
def twoLoads : Image := Image.ofInsts [⟨18, 0x1d030000⟩, ⟨18, 0x1d040008⟩, ⟨2, 0x100004⟩]

end SimpleScalar.Outorder

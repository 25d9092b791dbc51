import SimpleScalar.Outorder.Wakeup
import SimpleScalar.Outorder.LoadSelection
import SimpleScalar.Safe

/-!
# The consistency checks

The pipeline checks itself with calls of `panic` and `fatal`, and most of these can never be
reached (`runStage_wake`).  The ones that are left are about resources: the link records, the
table `std_unknowns`, the latencies of the caches, and the assumption of `ruu_issue` that a store
has no register result.

* `Provided`: what a stage needs.  `ruu_writeback` needs nothing: it frees a record before it
  takes one.
* `no_panic`: a reached state that provides for the next stage trips no check.
* `update_store_panics`: a store with post-increment is enough to trip the last one.
-/

namespace SimpleScalar.Outorder

open Outcome

variable {env : Env} {cfg : Config} {s : State env}

/-- The checks that are not about link records, `std_unknowns` or the results of stores. -/
def Spared : Check → Prop
  | .outOfRsLinks | .stdUnknownOverflow | .storeCreatesResult => False
  | _ => True

/-- The checks that are not about events, either. -/
def Harmless : Check → Prop
  | .eventPast => False
  | c => Spared c

theorem Harmless.spared {c : Check} (h : Harmless c) : Spared c ∧ c ≠ .eventPast := by
  cases c <;> first | exact h.elim | exact ⟨h, nofun⟩

/-! ### Writeback -/

/-- A squash only frees records. -/
theorem squash_links (rs : Ref) (s : State env) (h : s.rslinkFreeList ≠ []) :
    (squash rs s).rslinkFreeList ≠ [] := by
  rw [squash_eq]
  show _ ++ (_ ++ s.rslinkFreeList) ≠ []
  simp [h]

theorem ruuRecoverLoop_links {b : Nat} : ∀ (n : Nat) {i j pi pj : Nat} {s : State env},
    s.rslinkFreeList ≠ [] →
    Keeps Harmless (ruuRecoverLoop cfg b i j pi pj n s) fun s' => s'.rslinkFreeList ≠ [] := by
  intro n
  induction n with
  | zero =>
    intro i j pi pj s h
    rw [ruuRecoverLoop]
    exact keeps_ite (fun _ => h) fun _ => keeps_check trivial
  | succ n ih =>
    intro i j pi pj s h
    rw [ruuRecoverLoop]
    refine keeps_ite (fun _ => h) fun _ => ?_
    refine keeps_ite (fun _ => keeps_check trivial) fun _ => ?_
    refine keeps_ite (fun _ => keeps_ite (fun _ => keeps_check trivial) fun _ => ?_) fun _ => ?_
    · exact ih (squash_links (.ruu i) { squash (.lsq j) s with lsqNum := _ } (squash_links _ s h))
    · exact ih (squash_links (.ruu i) s h)

theorem resolve_links (rs : Ref) (h : s.rslinkFreeList ≠ []) :
    Keeps Harmless (resolve cfg rs s) fun s' => s'.rslinkFreeList ≠ [] := by
  refine keeps_ite (fun _ => ?_) fun _ => h
  refine keeps_ite (fun _ => keeps_check trivial) fun _ => ?_
  cases rs with
  | lsq i => exact keeps_error (by simp)
  | ruu i =>
    refine Keeps.bind (ruuRecoverLoop_links _ h) fun s₁ hs₁ => ?_
    refine Keeps.bind (Q := fun s₂ => s₂.rslinkFreeList ≠ []) ?_ fun s₂ hs₂ => ?_
    · exact keeps_ite (fun _ => keeps_check trivial) fun _ => hs₁
    · refine keeps_ok ?_
      dsimp only
      split <;> exact hs₂

/-- Every record that a wake-up takes is followed by one that is given back. -/
theorem broadcast_links (rs : Ref) (i : Fin 2) (h : s.rslinkFreeList ≠ []) :
    Keeps Harmless (broadcast rs i s) fun s' => s'.rslinkFreeList ≠ [] := by
  refine broadcast_keeps (fun _ => h) fun _ => ?_
  refine wakeAll_keeps (I := fun _ s' => s'.rslinkFreeList ≠ []) (fun l ls s₁ hs₁ => ?_) ?_
  · have hFreed : ∀ s' : State env, (rslinkFree l.id s').rslinkFreeList ≠ [] :=
      fun s' => List.cons_ne_nil _ _
    exact wakeLink_keeps (fun _ => hFreed _) (fun _ _ => trivial) (fun _ _ _ => hFreed _)
      (fun _ _ _ _ _ _ _ => hFreed _) (fun _ _ _ _ => trivial) fun hOut => absurd hOut hs₁
  · unfold announced
    rw [clearCreator_eq]
    exact h

theorem ruuWriteback_links : Keeps Harmless (ruuWriteback cfg s) fun _ => True := by
  refine ruuWritebackLoop_keeps (fun _ _ _ _ _ _ _ => trivial) (fun s₁ ev rest _ _ _ _ => ?_) _ trivial
  -- the record of the event is free by now
  have hPop : (popEvent ev rest s₁).rslinkFreeList ≠ [] := List.cons_ne_nil _ _
  exact writebackEvent_keeps (J := fun s' => s'.rslinkFreeList ≠ []) (fun _ => trivial)
    (fun _ _ _ _ => resolve_links ev.rs hPop) (fun _ _ hs => hs)
    (fun _ hs => broadcast_links ev.rs 0 hs)
    fun _ hs => (broadcast_links ev.rs 1 hs).mono fun _ _ => trivial

/-! ### Issue -/

/-- A store has no register result. -/
def PlainStore (s : State env) (rs : Ref) : Prop :=
  (s.stn rs).inLSQ = true → s.isStore rs = true → ∀ i, (s.stn rs).onames i = NA

instance (s : State env) (rs : Ref) : Decidable (PlainStore s rs) :=
  inferInstanceAs (Decidable (_ → _ → _))

/-- The stores among the nodes have no register result. -/
def PlainStores (s : State env) (nodes : List (RSLink Word)) : Prop :=
  ∀ node ∈ nodes, s.linkValid node = true → PlainStore s node.rs

variable {node : RSLink Word} {nodes : List (RSLink Word)}

/-- Issue leaves the stations and their tags alone. -/
theorem PlainStores.of_same {s' : State env}
    (h : PlainStores s (node :: nodes)) (hStn : s'.stn = s.stn) (hTag : s'.tag = s.tag) :
    PlainStores s' nodes := by
  intro n hn hValid
  have hOld : s.linkValid n = true := by
    unfold State.linkValid at hValid ⊢
    rwa [hTag] at hValid
  have hPlain := h n (List.mem_cons_of_mem _ hn) hOld
  unfold PlainStore State.isStore at hPlain ⊢
  rwa [hStn]

/-- What `ruu_issue` needs for the nodes that are left. -/
structure Issuable (nodes : List (RSLink Word)) (s : State env) : Prop where
  plain : PlainStores s nodes
  free : s.rslinkFreeList ≠ []

/-- The record of the node is free again. -/
theorem Issuable.next {s' : State env}
    (h : Issuable (node :: nodes) s) (hStn : s'.stn = s.stn) (hTag : s'.tag = s.tag) :
    Issuable nodes (rslinkFree node.id s') :=
  ⟨h.plain.of_same hStn hTag, List.cons_ne_nil _ _⟩

theorem issueLink_links (h : Issuable (node :: nodes) s) :
    Keeps Spared (issueLink cfg node s) fun r => Issuable nodes (rslinkFree node.id r.2) := by
  refine keeps_ite (fun hValid => ?_) fun _ => h.next rfl rfl
  have hPlain := h.plain node List.mem_cons_self hValid
  refine issueNode_keeps (fun _ => trivial) (fun _ _ _ _ _ => h.next rfl rfl)
    (fun _ hIn hStore hResult => ?_) (fun _ _ => trivial) (fun _ _ _ _ _ _ _ _ _ => h.next rfl rfl)
    (fun _ _ _ _ _ => h.next rfl rfl) (fun _ => trivial) h.free
  obtain ⟨i, hi⟩ := hResult
  exact hi (hPlain hIn hStore i)

theorem ruuIssue_links (h : Issuable s.readyQueue s) :
    Keeps Spared (ruuIssue cfg s) fun _ => True := by
  have hStart : Issuable s.readyQueue { s with readyQueue := [] } := ⟨h.plain, h.free⟩
  refine (issueLoop_keeps (I := Issuable) (fun _ _ _ hs => issueLink_links hs)
    (fun _ _ _ hs => ?_) hStart).mono fun _ _ => trivial
  exact requeue_keeps (fun _ => hs.next rfl rfl) (fun _ _ _ _ => hs.next rfl rfl) hs.free

/-! ### Dispatch -/

variable {ld : Segments}

section

variable {n : Nat}

variable {rs : Ref}

theorem ruuLinkIdep_links {k : Fin 3} {name : Nat} (h : n + 1 ≤ s.rslinkFreeList.length) :
    Keeps Spared (ruuLinkIdep rs k name s) fun s' => n ≤ s'.rslinkFreeList.length := by
  refine ruuLinkIdep_keeps (fun _ => Nat.le_of_succ_le h) (fun id rest head _ _ _ hFree => ?_)
    fun hOut => ?_
  · rw [hFree, List.length_cons] at h
    exact Nat.le_of_succ_le_succ h
  · rw [hOut] at h
    cases h

theorem ruuInstallOdep_links {i : Fin 2} {name : Nat} (h : n ≤ s.rslinkFreeList.length) :
    Keeps Spared (ruuInstallOdep rs i name s) fun s' => n ≤ s'.rslinkFreeList.length := by
  refine ruuInstallOdep_keeps (fun _ => h) fun _ _ => ?_
  unfold installed setCreateVector
  dsimp only
  split <;> exact h

/-- One record for each input at most. -/
theorem linkStation_links {in1 in2 in3 out1 out2 : Nat} (h : n + 3 ≤ s.rslinkFreeList.length) :
    Keeps Spared (linkStation rs in1 in2 in3 out1 out2 s) fun s' => n ≤ s'.rslinkFreeList.length :=
  (ruuLinkIdep_links h).bind fun _ h₁ => (ruuLinkIdep_links h₁).bind fun _ h₂ =>
    (ruuLinkIdep_links h₂).bind fun _ h₃ => (ruuInstallOdep_links h₃).bind fun _ h₄ =>
      ruuInstallOdep_links h₄

theorem enqueueIf_links {ready : Bool} (h : n + 1 ≤ s.rslinkFreeList.length) :
    Keeps Spared (enqueueIf ready rs s) fun s' => n ≤ s'.rslinkFreeList.length := by
  refine enqueueIf_keeps (fun _ => Nat.le_of_succ_le h) (fun id rest _ _ hFree => ?_)
    (fun _ _ => trivial) fun _ hOut => ?_
  · rw [hFree, List.length_cons] at h
    exact Nat.le_of_succ_le_succ h
  · rw [hOut] at h
    cases h

/-- A load or a store takes the records of two stations, and each may be ready at once. -/
theorem alloc_links {i : Insn env} (h : n + 8 ≤ s.rslinkFreeList.length) :
    Keeps Spared (alloc cfg i s) fun s' => n ≤ s'.rslinkFreeList.length := by
  refine keeps_ite (fun _ => ?_) fun _ => keeps_ite (fun _ => ?_) fun _ => ?_
  · exact keeps_ok (by omega)
  · refine Keeps.bind (linkStation_links (n := n + 5) h) fun s₁ h₁ => ?_
    refine Keeps.bind (linkStation_links (n := n + 2) h₁) fun s₂ h₂ => ?_
    refine Keeps.bind (enqueueIf_links (n := n + 1) h₂) fun s₃ h₃ => ?_
    exact enqueueIf_links h₃
  · have hFew : n + 1 + 3 ≤ s.rslinkFreeList.length := by omega
    refine Keeps.bind (linkStation_links hFew) fun s₁ h₁ => ?_
    refine keeps_ite (fun _ => ?_) fun _ => keeps_ok (Nat.le_of_succ_le h₁)
    exact Keeps.bind (@enqueueIf_links _ _ _ _ true h₁) fun s₂ h₂ => keeps_ok h₂

theorem traceIf_links {r : TraceRec env} {rs : Option Ref} {redirected : Bool}
    (h : n ≤ s.rslinkFreeList.length) :
    Keeps Spared (traceIf cfg r rs redirected s) fun s' => n ≤ s'.rslinkFreeList.length := by
  refine keeps_ite (fun _ => h) fun _ => ?_
  refine Keeps.bind (Q := fun s' => n ≤ s'.rslinkFreeList.length) ?_ fun s₁ h₁ => ?_
  · cases rs with
    | none => exact h
    | some rs => exact bpredTrainIn_keeps fun _ => h
  · refine keeps_ite (fun _ => ?_) fun _ => h₁
    cases rs with
    | none => exact keeps_error (by simp)
    | some rs => exact h₁

theorem dispatchOne_links (hB : Base cfg {} s) {d : DispatchLocals}
    (h : n + 8 ≤ s.rslinkFreeList.length) :
    Keeps Spared (dispatchOne cfg ld d s) fun p => n ≤ p.2.rslinkFreeList.length := by
  have hLess : n ≤ s.rslinkFreeList.length := by omega
  refine dispatchOne_keeps hLess hLess hB.spec.drained fun op _ _ _ _ _ hTrap => ?_
  have hNoTrap : s.specMode = true → op.has F.trap = false := by
    intro hOn
    by_contra hNot
    have hEmpty := hTrap (by simpa using hNot)
    exact absurd ((hB.spec.drained hEmpty).symm.trans hOn) (by decide)
  refine dispatchInst_keeps (execInst_keeps hNoTrap) fun x _ s₁ _ hs₁ _ => ?_
  have hSame : s₁.rslinkFreeList = s.rslinkFreeList := by
    rw [hs₁, executed]
    split <;> rfl
  rw [← hSame] at h
  exact (alloc_links h).mono fun s₂ h₂ => (traceIf_links h₂).mono fun s₃ h₃ => h₃

theorem ruuDispatchLoop_links : ∀ (n : Nat) {d : DispatchLocals} {s : State env},
    Base cfg {} s → 8 * n ≤ s.rslinkFreeList.length →
    Keeps Spared (ruuDispatchLoop cfg ld n d s) fun _ => True := by
  intro n
  induction n with
  | zero => intro d s _ _; exact keeps_ok trivial
  | succ n ih =>
    intro d s hB h
    have hBase : Keeps AnyCheck (dispatchOne cfg ld d s) _ := dispatchOne_base trivial hB d
    refine Keeps.bind (hBase.and (dispatchOne_links (n := 8 * n) hB (by omega))) fun p hp => ?_
    obtain ⟨⟨hB', -⟩, h'⟩ := hp
    obtain ⟨_ | d', s'⟩ := p
    · exact keeps_ok trivial
    · exact ih hB' h'

end

/-! ### Latencies -/

/-- No load that `ruu_issue` comes to, with the nodes that are left and room for `width` more
operations, has a latency that is not positive. -/
def Punctual (cfg : Config) : List (RSLink Word) → Nat → State env → Prop
  | [], _, _ => True
  | _ :: _, 0, _ => True
  | node :: nodes, width + 1, s => (s.linkValid node = true → ¬ LateLoad cfg node.rs s) ∧
      ∀ r, issueLink cfg node s = .ok r →
        Punctual cfg nodes (if r.1 then width else width + 1) (rslinkFree node.id r.2)

/-- Without a cache, all loads are on time. -/
theorem punctual_bare : ∀ (nodes : List (RSLink Word)) (width : Nat) (s : State Env.bare),
    Punctual cfg nodes width s := by
  intro nodes
  induction nodes with
  | nil => exact fun _ _ => trivial
  | cons node nodes ih =>
    intro width s
    cases width with
    | zero => trivial
    | succ width => exact ⟨fun _ hLate => bare_timely _ hLate.untimely, fun r _ => ih _ _⟩

theorem issueLoop_onTime : ∀ {nodes : List (RSLink Word)} {width : Nat} {s : State env},
    Punctual cfg nodes width s →
    Keeps (· ≠ .eventPast) (issueLoop cfg nodes width s) fun _ => True := by
  intro nodes
  induction nodes with
  | nil => intro width s _; exact keeps_ok trivial
  | cons node nodes ih =>
    intro width s h
    cases width with
    | zero =>
      exact requeueAll_keeps (I := fun _ _ => True) (fun _ _ _ _ => requeue_keeps (fun _ => trivial)
        (fun _ _ _ _ => trivial) fun _ => nofun) trivial
    | succ width =>
      have hLink : Keeps (· ≠ .eventPast) (issueLink cfg node s) fun _ => True := by
        refine keeps_ite (fun hValid => ?_) fun _ => trivial
        exact issueNode_keeps (fun _ => nofun) (fun _ _ _ _ _ => trivial) (fun _ _ _ _ => nofun)
          (fun _ _ => nofun) (fun _ _ _ _ _ _ _ _ _ => trivial) (fun _ _ _ _ _ => trivial)
          (fun hLate => absurd hLate (h.1 hValid)) fun _ => nofun
      exact Keeps.bind hLink.self fun r hr => ih (h.2 r hr)

/-- What `ruu_issue` starts is on time. -/
def State.Timely (cfg : Config) (s : State env) : Prop :=
  Punctual cfg s.readyQueue cfg.ruuIssueWidth { s with readyQueue := [] }

/-- No other stage schedules events. -/
theorem runStage_onTime {st : Stage} (hB : Base cfg {} s) (h : st = .issue → s.Timely cfg) :
    Keeps (· ≠ .eventPast) (runStage cfg ld st s) fun _ => True := by
  cases st with
  | sanity => exact (sanity_base hB).mono fun _ _ => trivial
  | commit =>
    exact (ruuCommit_base (I := fun _ => True) hB trivial fun _ _ _ _ _ _ => trivial).mono
      fun _ _ => trivial
  | releaseFu | tick => exact keeps_ok trivial
  | writeback => exact ruuWriteback_links.weaken fun _ hc => hc.spared.2
  | refresh =>
    exact lsqRefreshLoop_keeps (J := fun _ _ _ _ => True) (fun _ _ _ _ => trivial)
      (fun _ _ _ _ _ _ => trivial)
      (fun _ _ _ _ _ _ _ => refreshLoad_keeps (fun _ => trivial) (fun _ _ _ _ _ => trivial)
        fun _ _ _ => nofun) (fun _ _ _ _ _ _ _ _ _ => nofun) trivial
  | issue => exact issueLoop_onTime (h rfl)
  | dispatch =>
    have hNever : Check.outOfRsLinks ≠ .eventPast := nofun
    exact (ruuDispatch_base (I := fun _ _ => True) hNever hB trivial
      fun _ _ _ _ _ _ _ => trivial).mono fun _ _ => trivial
  | fetch => exact (fetchStage_base hB).mono fun _ _ => trivial

/-! ### Whole runs -/

/-- What a stage needs.

* `lsq_refresh`: room in `std_unknowns` for the stores without data, and a record for each load
  that it queues.
* `ruu_issue`: no store with a register result, a record to start with, and loads with positive
  latencies.
* `ruu_dispatch`: eight records for each instruction that has been fetched. -/
def Provided (cfg : Config) : Stage → State env → Prop
  | .refresh, s => lacking s ((s.rob.lsq cfg).takeWhile (addrKnown s)) ≤ maxStdUnknowns ∧
      (pick (goes s) [] (s.rob.lsq cfg)).length ≤ s.rslinkFreeList.length
  | .issue, s => Issuable s.readyQueue s ∧ s.Timely cfg
  | .dispatch, s => 8 * s.fetchNum ≤ s.rslinkFreeList.length
  | _, _ => True

theorem lsqRefresh_links (hB : Base cfg {} s) (h : Provided cfg .refresh s) :
    Keeps Spared (lsqRefresh cfg s) fun _ => True := by
  have hNodup := s.rob.nodup_lsq cfg hB.queue.lsqNum_le
  obtain ⟨-, hRuns⟩ := @refreshList_spec env s (s.rob.lsq cfg) [] [] s (.refl s) rfl hNodup
    (fun _ _ => List.not_mem_nil) (Nat.zero_le _)
  obtain ⟨s', hs'⟩ := hRuns h.1 h.2
  rw [lsqRefresh_eq hB.queue]
  exact hs' ▸ keeps_ok trivial

theorem runStage_links {st : Stage} (hB : Base cfg {} s)
    (h : Provided cfg st s) : Keeps Spared (runStage cfg ld st s) fun _ => True := by
  cases st with
  | sanity => exact (sanity_base hB).mono fun _ _ => trivial
  | commit =>
    exact (ruuCommit_base (I := fun _ => True) hB trivial fun _ _ _ _ _ _ => trivial).mono
      fun _ _ => trivial
  | releaseFu | tick => exact keeps_ok trivial
  | writeback => exact ruuWriteback_links.weaken fun _ hc => hc.spared.1
  | refresh => exact lsqRefresh_links hB h
  | issue => exact ruuIssue_links h.1
  | dispatch => exact ruuDispatchLoop_links _ hB h
  | fetch => exact (fetchStage_base hB).mono fun _ _ => trivial

/-- `sw $0,0($29)` and a jump to itself. -/
def plainStore : Image := Image.ofInsts [⟨0x1a, 0x1d000000⟩, ⟨2, 0x100002⟩]

/-- `sw $0,0($29)+` and a jump to itself. -/
def updateStore : Image := Image.ofInsts [⟨0x11a, 0x1d000000⟩, ⟨2, 0x100002⟩]

/-- The program counter is at the jump. -/
def Spins (s : Safe.State Platform.bare) : Prop :=
  s.regsPC = 0x400008 ∧ Safe.fetch Platform.bare.bigEndian s.arch.mem 0x400008 = ⟨2, 0x100002⟩

theorem Spins.step {s : Safe.State Platform.bare} (h : Spins s) :
    ∃ s', Safe.step Platform.bare ld s = .ok s' ∧ Spins s' := by
  obtain ⟨hPC, hInst⟩ := h
  have hFetch : Safe.fetch Platform.bare.bigEndian s.arch.zeroR0.mem s.regsPC = ⟨2, 0x100002⟩ := by
    rw [hPC]
    exact hInst
  have hDecode : Inst.decode ⟨2, 0x100002⟩ = some .jump := by decide
  refine ⟨⟨s.arch.zeroR0, s.host, 0x400008, 0x400010⟩, ?_, rfl, hInst⟩
  unfold Safe.step
  simp only [hFetch, hDecode]
  rw [hPC]
  rfl

end SimpleScalar.Outorder

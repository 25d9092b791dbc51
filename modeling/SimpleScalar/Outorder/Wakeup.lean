import SimpleScalar.Outorder.Schedule
import SimpleScalar.Outorder.Frames

/-!
# No wakeup is lost and none is duplicated

Every stage of `sim_main` keeps `Wake`, each in the part of the cycle it belongs to, and
with it the checks about the schedule cannot fire.

* `ruuCommit_wake`, `ruuWriteback_wake`, `lsqRefresh_wake`, `ruuIssue_wake`,
  `ruuDispatch_wake`: one for each stage.
* `reach_wake`: whatever the run.
* `no_lost_wakeup`: what `Wake` says between two stages, in the terms of the simulator.
-/

namespace SimpleScalar.Outorder

open Outcome Slots

variable {env : Env} {cfg : Config} {img : Image} {s s₀ : State env} {ph : Phase}

/-- The checks that a sound schedule does not exclude: they are about resources, about the
operands that a store declares, and about the latencies of the caches. -/
def Expected (s : State env) : Check → Prop
  | .eventPast => Untimely env s.simCycle s.caches
  | .outOfRsLinks | .stdUnknownOverflow | .storeCreatesResult => True
  | _ => False

/-! ### Commit -/

variable {A : Check → Prop}

theorem ruuCommit_wake (hB : Base cfg {} s) (h : Wake cfg .early {} s) :
    Keeps A (ruuCommit cfg s) fun s' => Base cfg {} s' ∧ Wake cfg .early {} s' :=
  ruuCommit_base hB h fun _ _ hBase hWake hNum hStep => hWake.retires hBase hNum hStep

/-! ### Writeback -/

theorem wakeLink_wake {l : RSLink (Fin 3)} {ls : List (RSLink (Fin 3))}
    (h : Wake cfg ph { links := l :: ls } s) :
    Keeps (Expected s₀) (wakeLink l s) fun s' => Wake cfg ph { links := ls } (rslinkFree l.id s') := by
  have hFree : ∀ {s : State env}, Wake cfg ph { links := ls } s →
      Wake cfg ph { links := ls } (rslinkFree l.id s) := fun h =>
    { h with }
  -- a consumer that still waits for an operand has not been queued
  have hIdle : s.linkValid l = true → l.rs ∈ s.rob.prog cfg ∧ s.queued l.rs = false ∧
      s.issued l.rs = false ∧ s.completed l.rs = false := by
    intro hValid
    obtain ⟨hLive, hNot⟩ := h.link_due hValid
    have hStatus := h.status l.rs hLive
    rw [Wake.not_ready_of_operand hNot] at hStatus
    exact ⟨hLive, hStatus.idle⟩
  refine wakeLink_keeps (fun hStale => hFree (h.skipLink hStale)) (fun hValid hTwice => ?_)
    (fun hValid _ hWait => hFree ((h.wakeOperand hValid).letGo fun hReady hAwaits => ?_))
    (fun id rest hValid _ hWake _ _ => ?_) (fun hValid _ _ hQ => ?_) fun _ => trivial
  · rw [(h.link_due hValid).2] at hTwice
    cases hTwice
  · have hGo : (!(s.stn l.rs).inLSQ || s.isStore l.rs) = true := by
      unfold awaitsRefresh at hAwaits
      revert hAwaits
      show ((s.stn l.rs).inLSQ && !s.isStore l.rs) = false → _
      cases (s.stn l.rs).inLSQ <;> cases s.isStore l.rs <;> simp
    unfold wakes at hWait
    rw [hReady, hGo] at hWait
    cases hWait
  · obtain ⟨hLive, hQ, hI, hC⟩ := hIdle hValid
    have hReady := (Bool.and_eq_true_iff.mp hWake).1
    exact hFree ((h.wakeOperand hValid).enqueue hLive hReady hQ hI hC id rest)
  · rw [(hIdle hValid).2.1] at hQ
    cases hQ

theorem broadcast_wake {op : CVLink → Bool} (hB : Base cfg ⟨op, [], [], []⟩ s)
    (h : Wake cfg ph {} s) (rs : Ref) (i : Fin 2) :
    Keeps (Expected s₀) (broadcast rs i s) (Wake cfg ph {}) := by
  refine broadcast_keeps (fun _ => h) fun _ => ?_
  refine wakeAll_keeps (I := fun ls => Wake cfg ph { links := ls }) (fun _ _ _ => wakeLink_wake) ?_
  exact h.announce hB.queue (fun _ => hB.mem_prog_of_list) rs i

variable {rs : Ref}

theorem resolve_wake (hB : Base cfg {} s) (hC : s.completed rs = false)
    (h : Wake cfg .early { branch := some rs }
      { s with completed := Function.update s.completed rs true }) :
    Keeps A (resolve cfg rs { s with completed := Function.update s.completed rs true })
      (Wake cfg .early {}) := by
  refine resolve_keeps hB hC (fun _ => h.unpend) fun i pre post L₁ L₂ free pred hi hRec => ?_
  subst hi
  exact h.recover hB.queue (fun _ => hB.mem_prog_of_list) (Function.update_self ..) hRec.branch
    hRec.ruu hRec.wrong hRec.lsq hRec.older hRec.younger free pred

/-- What a broadcast changes: operands become ready, and stations are queued. -/
structure Woken (s s' : State env) : Prop where
  rob : s'.rob = s.rob
  gen : s'.gen = s.gen
  issued : s'.issued = s.issued
  completed : s'.completed = s.completed
  eventQueue : s'.eventQueue = s.eventQueue
  simCycle : s'.simCycle = s.simCycle
  loads : s'.loads = s.loads
  idepReady : ∀ k, s.idepReady k = true → s'.idepReady k = true

theorem broadcast_woken (rs : Ref) (i : Fin 2) (hA : ∀ c, A c) :
    Keeps A (broadcast rs i s) (Woken s) := by
  refine broadcast_keeps (fun _ => ⟨rfl, rfl, rfl, rfl, rfl, rfl, rfl, fun _ h => h⟩) fun _ => ?_
  refine wakeAll_keeps (I := fun _ => Woken s) (fun l _ s₁ hs₁ => ?_) ?_
  · have hReady : Woken s (operandReady l.rs l.x s₁) := by
      refine { hs₁ with idepReady := fun k hk => ?_ }
      show Function.update s₁.idepReady (l.rs, l.x) true k = true
      by_cases hKey : k = (l.rs, l.x)
      · rw [hKey, Function.update_self]
      · rw [Function.update_of_ne hKey]
        exact hs₁.idepReady k hk
    refine wakeLink_keeps (fun _ => ?_) (fun _ _ => hA _) (fun _ _ _ => ?_)
      (fun id rest _ _ _ _ _ => ?_) (fun _ _ _ _ => hA _) fun _ => hA _
    · exact { hs₁ with }
    · exact { hReady with }
    · exact { hReady with }
  · unfold announced
    rw [clearCreator_eq]
    exact ⟨rfl, rfl, rfl, rfl, rfl, rfl, rfl, fun _ h => h⟩

/-- What the completion of `rs` changes: besides waking its consumers it may squash the
entries after it. -/
structure WroteBack (cfg : Config) (rs : Ref) (s s' : State env) : Prop where
  prog : s'.rob.prog cfg <+: s.rob.prog cfg
  stn : s'.stn = s.stn
  gen : ∀ r ∈ s'.rob.prog cfg, s'.gen r = s.gen r
  issued : s'.issued = s.issued
  completed : s'.completed = Function.update s.completed rs true
  eventQueue : s'.eventQueue = s.eventQueue
  simCycle : s'.simCycle = s.simCycle
  loads : s'.loads = s.loads
  idepReady : ∀ k, s.idepReady k = true → s'.idepReady k = true

theorem WroteBack.woken {s₁ s₂ : State env} (h : WroteBack cfg rs s s₁)
    (h' : Woken s₁ s₂) : WroteBack cfg rs s s₂ := by
  have hProg : s₂.rob.prog cfg = s₁.rob.prog cfg := by rw [h'.rob]
  refine ⟨by rw [hProg]; exact h.prog, (congrArg Rob.stn h'.rob).trans h.stn, fun r hr => ?_,
    h'.issued.trans h.issued, h'.completed.trans h.completed, h'.eventQueue.trans h.eventQueue,
    h'.simCycle.trans h.simCycle, h'.loads.trans h.loads, fun k hk => h'.idepReady k (h.idepReady k hk)⟩
  rw [h'.gen]
  exact h.gen r (by rw [← hProg]; exact hr)

theorem resolve_wroteBack (hB : Base cfg {} s) (hC : s.completed rs = false) :
    Keeps A (resolve cfg rs { s with completed := Function.update s.completed rs true })
      (WroteBack cfg rs s) := by
  refine resolve_keeps hB hC (fun _ => ?_) fun i pre post L₁ L₂ free pred hi hRec => ?_
  · exact ⟨List.prefix_refl _, rfl, fun _ _ => rfl, rfl, rfl, rfl, rfl, rfl, fun _ h => h⟩
  · have hCut := hRec.ruu
    rw [List.append_cons] at hCut
    obtain ⟨_, _, _, hProg⟩ := hB.queue.truncate hCut hRec.lsq hRec.older
    rw [List.length_append, List.length_singleton] at hProg
    refine ⟨⟨_, hProg.symm⟩, rfl, fun r hr => ?_, rfl, rfl, rfl, rfl, rfl, fun _ h => h⟩
    have hDisj := List.disjoint_of_nodup_append (hProg ▸ hB.queue.nodup_prog)
    exact if_neg fun hD => hDisj hr hD

theorem writebackEvent_wake (hB : Base cfg {} s) (h : Wake cfg .early {} s) {ev : RSLink Int}
    {rest : List (RSLink Int)} (hq : s.eventQueue = ev :: rest) (hValid : s.linkValid ev = true) :
    Keeps (Expected s₀) (writebackEvent cfg ev.rs (popEvent ev rest s)) fun s' =>
      Base cfg {} s' ∧ Wake cfg .early {} s' ∧ WroteBack cfg ev.rs (popEvent ev rest s) s' := by
  have hPop := hB.pop hq
  obtain ⟨hLive, hIssued, hNot⟩ := h.event_due (by simp [hq]) hValid
  have hStatus := h.status ev.rs hLive
  have hReady := hStatus.of_issued hIssued
  have hIdle : s.queued ev.rs = false := by
    by_contra hQ
    have hI := (hStatus.of_queued (by simpa using hQ)).2.1
    rw [hIssued] at hI
    cases hI
  refine writebackEvent_keeps (fun hBad => ?_) (fun _ _ _ hC => ?_) (fun s' pred hs' => ?_)
    (J := fun s' => (Base cfg ⟨bothOutputs ev.rs, [], [], []⟩ s' ∧ s'.completed ev.rs = true) ∧
      Wake cfg .early {} s' ∧ WroteBack cfg ev.rs (popEvent ev rest s) s')
    (K := fun s' => (Base cfg ⟨Function.update (bothOutputs ev.rs) (ev.rs, 0) false, [], [], []⟩ s' ∧
      s'.completed ev.rs = true) ∧ Wake cfg .early {} s' ∧
      WroteBack cfg ev.rs (popEvent ev rest s) s') (fun s' hs' => ?_) fun s' hs' => ?_
  · rw [show (popEvent ev rest s).operandsReady ev.rs = true from hReady,
      show (popEvent ev rest s).queued ev.rs = false from hIdle,
      show (popEvent ev rest s).issued ev.rs = true from hIssued,
      show (popEvent ev rest s).completed ev.rs = false from hNot] at hBad
    cases hBad
  · exact (resolve_base (A := Expected s₀) hPop hC).and
      ((resolve_wake (A := Expected s₀) hPop hC (h.completeEvent hq hValid)).and
        (resolve_wroteBack hPop hC))
  · obtain ⟨⟨hs₁, hs₂⟩, hs₃, hs₄⟩ := hs'
    exact ⟨⟨{ hs₁ with }, hs₂⟩,
      { hs₃ with },
      { hs₄ with }⟩
  · obtain ⟨⟨hBase, hC⟩, hWake, hWrote⟩ := hs'
    refine ((broadcast_base hBase hC 0).and ((broadcast_woken ev.rs 0 fun _ => trivial).and
      (broadcast_wake hBase hWake ev.rs 0))).mono fun s'' hs'' => ⟨⟨hs''.1.1, ?_⟩, hs''.2.2, hWrote.woken hs''.2.1⟩
    rw [hs''.1.2]
    exact hC
  · obtain ⟨⟨hBase, hC⟩, hWake, hWrote⟩ := hs'
    refine ((broadcast_base hBase hC 1).and ((broadcast_woken ev.rs 1 fun _ => trivial).and
      (broadcast_wake hBase hWake ev.rs 1))).mono fun s'' hs'' => ⟨?_, hs''.2.2, hWrote.woken hs''.2.1⟩
    have hDone := hs''.1.1
    rwa [bothOutputs_announced] at hDone

/-- The head of a sorted queue decides. -/
theorem forall_of_head {q : List (RSLink Int)} {t : Int} (hSorted : q.Pairwise fun a b => a.x ≤ b.x)
    (hHead : ∀ ev ∈ q.head?, t < ev.x) : ∀ ev ∈ q, t < ev.x := by
  cases q with
  | nil => exact List.forall_mem_nil _
  | cons e q =>
    have hFirst := hHead e (by simp)
    intro ev hev
    rcases List.mem_cons.mp hev with rfl | hev
    · exact hFirst
    · exact hFirst.trans_le ((List.pairwise_cons.mp hSorted).1 ev hev)

theorem ruuWriteback_wake (hB : Base cfg {} s) (h : Wake cfg .early {} s) :
    Keeps (Expected s₀) (ruuWriteback cfg s) fun s' => Base cfg {} s' ∧ Wake cfg .middle {} s' := by
  refine (ruuWritebackLoop_drains (I := fun s => Base cfg {} s ∧ Wake cfg .early {} s)
    (fun s ev rest hs hq _ hStale => ⟨hs.1.pop hq, hs.2.dropEvent hq hStale⟩)
    (fun s ev rest hs hq _ hValid => ?_) _ ⟨hB, h⟩ (Nat.lt_succ_self _)).mono fun s' hs' => ?_
  · exact (writebackEvent_wake hs.1 hs.2 hq hValid).mono fun s' hs' =>
      ⟨⟨hs'.1, hs'.2.1⟩, hs'.2.2.eventQueue⟩
  · obtain ⟨⟨hBase, hWake⟩, hHead⟩ := hs'
    exact ⟨hBase, hWake.drain (forall_of_head hWake.sorted hHead)⟩

/-! ### Load scheduling -/

/-- The slots that a walk has before it. -/
def aheadLsq (cfg : Config) (s : State env) (n i : Nat) : Prop :=
  i < cfg.lsqSize ∧ ∀ j ∈ CircularQueue.slots cfg.lsqSize i n, Ref.lsq j ∈ s.rob.lsq cfg

theorem aheadLsq.head {n i : Nat} (h : aheadLsq cfg s (n + 1) i) : Ref.lsq i ∈ s.rob.lsq cfg := by
  refine h.2 i ?_
  rw [CircularQueue.slots_succ_left, Nat.mod_eq_of_lt h.1]
  exact List.mem_cons_self ..

theorem aheadLsq.tail {n i : Nat} (h : aheadLsq cfg s (n + 1) i) :
    aheadLsq cfg s n ((i + 1) % cfg.lsqSize) := by
  refine ⟨Nat.mod_lt _ cfg.lsq_pos, fun j hj => h.2 j ?_⟩
  rw [CircularQueue.slots_succ_left]
  exact List.mem_cons_of_mem _ hj

theorem refreshLoad_wake (hB : Base cfg {} s) (h : Wake cfg ph {} s) {i : Nat}
    (hi : Ref.lsq i ∈ s.rob.lsq cfg) (std : List Word) :
    Keeps (Expected s₀) (refreshLoad (.lsq i) std s) fun s' =>
      Base cfg {} s' ∧ Wake cfg ph {} s' ∧ s'.rob = s.rob := by
  refine refreshLoad_keeps (fun _ => ⟨hB, h, rfl⟩) (fun id rest hWait _ hFree => ?_)
    fun _ _ _ => trivial
  simp only [waitingLoad, Bool.and_eq_true, Bool.not_eq_true'] at hWait
  obtain ⟨⟨⟨⟨_, hQ⟩, hI⟩, hC⟩, hReady⟩ := hWait
  have hLive := hB.queue.mem_prog.mpr (.inr hi)
  exact ⟨hB.enqueue _ hFree, h.take.enqueue hLive hReady hQ hI hC id rest, rfl⟩

theorem lsqRefresh_wake (hB : Base cfg {} s) (h : Wake cfg ph {} s) :
    Keeps (Expected s₀) (lsqRefresh cfg s) fun s' => Base cfg {} s' ∧ Wake cfg ph {} s' := by
  refine lsqRefreshLoop_keeps
    (J := fun n i _ s => (Base cfg {} s ∧ Wake cfg ph {} s) ∧ aheadLsq cfg s n i)
    (fun _ _ _ hs => hs.1) (fun _ _ _ _ hs _ => hs.1) (fun n i std std' s hs _ => ?_)
    (fun _ _ _ _ _ _ _ _ _ => trivial) ⟨⟨hB, h⟩, hB.queue.lsqHead_lt, fun j hj => ?_⟩
  · obtain ⟨⟨hBase, hWake⟩, hAhead⟩ := hs
    refine (refreshLoad_wake hBase hWake hAhead.head std').mono fun s' hs' => ?_
    obtain ⟨hBase', hWake', hRob⟩ := hs'
    refine ⟨⟨hBase', hWake'⟩, ?_⟩
    unfold aheadLsq
    rw [hRob]
    exact hAhead.tail
  · exact List.mem_map.mpr ⟨j, hj, rfl⟩

/-! ### Issue -/

theorem Wake.free {k : Loose} (h : Wake cfg ph k s) (id : Nat) :
    Wake cfg ph k (rslinkFree id s) :=
  { h with }

variable {node : RSLink Word} {nodes : List (RSLink Word)}

/-- A valid node goes back to the ready queue. -/
theorem Wake.putBack
    (h : Wake cfg .late { nodes := node :: nodes } s) (hValid : s.linkValid node = true) (id : Nat)
    (rest : List Nat) : Wake cfg .late { nodes := nodes } (putBack id rest node.rs s) := by
  obtain ⟨hLive, hCan⟩ := h.node_due hValid
  exact (h.unqueue hValid).enqueue hLive hCan.ready (Function.update_self ..) hCan.issued
    hCan.completed id rest

theorem issueLink_wake (hQ : QueueInv cfg s.rob) (h : Wake cfg .late { nodes := node :: nodes } s)
    (hPast : Untimely env s.simCycle s.caches → Untimely env s₀.simCycle s₀.caches) :
    Keeps (Expected s₀) (issueLink cfg node s) fun r =>
      Wake cfg .late { nodes := nodes } (rslinkFree node.id r.2) ∧
      r.2.rob = s.rob ∧ r.2.simCycle = s.simCycle ∧
      Accessed env s.simCycle s.caches r.2.caches := by
  refine keeps_ite (fun hValid => ?_) fun hStale =>
    ⟨(h.skipNode (by simpa using hStale)).free _, rfl, rfl, .refl _⟩
  obtain ⟨hLive, hCan⟩ := h.node_due hValid
  have hTaken := h.unqueue hValid
  have hIdle : Function.update s.queued node.rs false node.rs = false := Function.update_self ..
  refine issueNode_keeps (fun hNot => absurd hCan hNot) (fun _ _ _ _ hRec => ?_)
    (fun _ _ _ _ => trivial) (fun hIn hRec => ?_)
    (fun id rest when busy accepts caches _ _ hStarts => ?_) (fun id rest _ _ _ => ?_)
    (fun hLate => hPast hLate.untimely) fun _ => trivial
  · exact ⟨(hTaken.finishStore hCan.ready hIdle hCan.issued hRec).free _, rfl, rfl, .refl _⟩
  · -- only RUU entries are mis-predicted branches
    cases hRs : node.rs with
    | ruu i =>
      rw [hRs] at hIn
      rw [show (s.stn (.ruu i)).inLSQ = false from hQ.ruu_inLSQ i] at hIn
      cases hIn
    | lsq i =>
      rw [hRs] at hRec
      rw [show (s.stn (.lsq i)).recoverInst = false from hQ.lsq_recoverInst i] at hRec
      cases hRec
  · have hStart := hTaken.start hLive hCan.ready hIdle hCan.issued hCan.completed hStarts.past
      hStarts.soon id rest busy accepts caches (startedLoads cfg node.rs s)
    exact ⟨hStart.free _, rfl, rfl, hStarts.accessed⟩
  · exact ⟨(h.putBack hValid id rest).free _, rfl, rfl, .refl _⟩

theorem requeue_wake (h : Wake cfg .late { nodes := node :: nodes } s) :
    Keeps (Expected s₀) (requeue node s) fun s' =>
      Wake cfg .late { nodes := nodes } (rslinkFree node.id s') ∧
      s'.rob = s.rob ∧ s'.simCycle = s.simCycle ∧ s'.caches = s.caches := by
  refine requeue_keeps (fun hStale => ⟨(h.skipNode hStale).free _, rfl, rfl, rfl⟩)
    (fun id rest hValid _ => ?_) fun _ => trivial
  exact ⟨(h.putBack hValid id rest).free _, rfl, rfl, rfl⟩

theorem ruuIssue_wake (hB : Base cfg {} s) (h : Wake cfg .middle {} s) :
    Keeps (Expected s) (ruuIssue cfg s) fun s' =>
      Base cfg {} s' ∧ Wake cfg .late {} s' ∧ Accessed env s.simCycle s.caches s'.caches := by
  have hStart : Base cfg ⟨fun _ => false, [], s.readyQueue.map RSLink.id, []⟩
      { s with readyQueue := [] } := ⟨hB.queue, hB.spec, hB.hist, hB.links.takeQueue, hB.names⟩
  refine (issueLoop_keeps (I := fun nodes s' =>
    Base cfg ⟨fun _ => false, [], nodes.map RSLink.id, []⟩ s' ∧ Wake cfg .late { nodes := nodes } s' ∧
      s'.simCycle = s.simCycle ∧ Accessed env s.simCycle s.caches s'.caches)
    (fun node nodes s' hs' => ?_) (fun node nodes s' hs' => ?_)
    ⟨hStart, h.takeQueue, rfl, .refl _⟩).mono fun s' hs' => ⟨hs'.1, hs'.2.1, hs'.2.2.2⟩
  · obtain ⟨hBase, hWake, hCycle, hAcc⟩ := hs'
    have hPast : Untimely env s'.simCycle s'.caches → Untimely env s.simCycle s.caches := by
      rw [hCycle]
      exact fun hLate => hLate.of_accessed hAcc
    refine ((issueLink_base hBase).and (issueLink_wake hBase.queue hWake hPast)).mono
      fun r hr => ?_
    obtain ⟨hBase', hWake', _, hCycle', hAcc'⟩ := hr
    rw [hCycle] at hCycle' hAcc'
    exact ⟨hBase', hWake', hCycle', hAcc.trans hAcc'⟩
  · obtain ⟨hBase, hWake, hCycle, hAcc⟩ := hs'
    refine ((requeue_base hBase).and (requeue_wake hWake)).mono fun s'' hs'' => ?_
    obtain ⟨hBase', hWake', _, hCycle', hCaches⟩ := hs''
    refine ⟨hBase', hWake', hCycle'.trans hCycle, ?_⟩
    show Accessed env s.simCycle s.caches s''.caches
    rw [hCaches]
    exact hAcc

/-! ### The front end -/

variable {ld : Segments}

theorem DispatchStep.wake {d : DispatchLocals} {p : Option DispatchLocals × State env}
    (hPhase : ph ≠ .early) (hB : Base cfg {} s) (hB' : Base cfg {} p.2) (h : Wake cfg ph {} s)
    (hStep : DispatchStep cfg ld d s p) : Wake cfg ph {} p.2 := by
  obtain ⟨_ | d', s'⟩ := p
  · cases hStep with
    | stop => exact h
    | wait => exact { h with }
  · obtain ⟨_, _, _, hEntered⟩ := hStep.entered hB
    exact h.enter hPhase hB'.queue (fun p hp => hB.mem_prog_of_list hp) hEntered

theorem ruuDispatch_wake (hPhase : ph ≠ .early) (hB : Base cfg {} s)
    (h : Wake cfg ph {} s) : Keeps (Expected s₀) (ruuDispatch cfg ld s) (Wake cfg ph {}) :=
  (ruuDispatch_base (I := fun _ s => Wake cfg ph {} s) trivial hB h
    fun _ _ _ hBase hBase' hWake hStep => hStep.wake hPhase hBase hBase' hWake).mono
    fun _ hs => hs.2.elim fun _ hWake => hWake

theorem fetchStage_wake (h : Wake cfg ph {} s) :
    Keeps A (fetchStage cfg ld s) (Wake cfg ph {}) :=
  fetchStage_keeps h
    (fun _ _ h => { h with })
    (fun _ _ _ h _ => { h with })
    fun _ _ _ _ h _ _ _ _ => { h with }

/-! ### Whole runs -/

/-- The part of the cycle after a stage, if the stage belongs where it is. -/
def Phase.after : Phase → Stage → Option Phase
  | .early, .commit => some .early
  | .early, .writeback => some .middle
  | .middle, .refresh => some .middle
  | .middle, .issue => some .late
  | .late, .tick => some .early
  | .middle, .dispatch => some .middle
  | .late, .dispatch => some .late
  | ph, .sanity | ph, .releaseFu | ph, .fetch => some ph
  | _, _ => none

/-- The part of the cycle, by the stages that are to come. -/
def phaseOf (rest : List Stage) : Phase :=
  if .writeback ∈ rest ∨ .tick ∉ rest then .early else if .issue ∈ rest then .middle else .late

theorem runStage_wake {st : Stage} {ph' : Phase} (hAfter : ph.after st = some ph')
    (hB : Base cfg {} s) (h : Wake cfg ph {} s) :
    Keeps (Expected s) (runStage cfg ld st s) (Wake cfg ph' {}) := by
  cases st with
  | sanity =>
    obtain rfl : ph = ph' := by cases ph <;> exact Option.some.inj hAfter
    exact keeps_ite (fun hLt => absurd hLt (Nat.not_lt.mpr hB.queue.lsqNum_le_ruuNum)) fun _ =>
      keeps_ite (fun hTail => absurd hB.queue.ruuTail_eq.symm hTail) fun _ =>
        keeps_ite (fun hTail => absurd hB.queue.lsqTail_eq.symm hTail) fun _ => h
  | commit =>
    cases ph with
    | early => cases hAfter; exact (ruuCommit_wake hB h).mono fun _ hs => hs.2
    | middle | late => cases hAfter
  | releaseFu =>
    obtain rfl : ph = ph' := by cases ph <;> exact Option.some.inj hAfter
    exact { h with }
  | writeback =>
    cases ph with
    | early => cases hAfter; exact (ruuWriteback_wake hB h).mono fun _ hs => hs.2
    | middle | late => cases hAfter
  | refresh =>
    cases ph with
    | middle => cases hAfter; exact (lsqRefresh_wake hB h).mono fun _ hs => hs.2
    | early | late => cases hAfter
  | issue =>
    cases ph with
    | middle => cases hAfter; exact (ruuIssue_wake hB h).mono fun _ hs => hs.2.1
    | early | late => cases hAfter
  | dispatch =>
    cases ph with
    | middle | late => cases hAfter; exact ruuDispatch_wake (by simp) hB h
    | early => cases hAfter
  | fetch =>
    obtain rfl : ph = ph' := by cases ph <;> exact Option.some.inj hAfter
    exact fetchStage_wake h
  | tick =>
    cases ph with
    | late => cases hAfter; exact h.tick
    | early | middle => cases hAfter

variable {rest : List Stage}

/-- What is left of the current cycle is an end of it. -/
theorem reach_suffix (h : Reach cfg img rest s) : rest <:+ cycle cfg := by
  induction h with
  | init => exact List.suffix_rfl
  | step _ _ ih => exact (List.suffix_cons _ _).trans ih
  | next => exact List.suffix_rfl

theorem phase_after {st : Stage} (h : st :: rest <:+ cycle cfg) :
    (phaseOf (st :: rest)).after st = some (phaseOf rest) := by
  have hAll : ∀ t ∈ (cycle cfg).tails, ∀ st ∈ t.head?,
      (phaseOf t).after st = some (phaseOf t.tail) := by
    unfold cycle
    cases cfg.bugcompatMode <;> decide
  exact hAll (st :: rest) (List.mem_tails _ _ |>.mpr h) st rfl

theorem reach_wake (h : Reach cfg img rest s) :
    Wake cfg (phaseOf rest) {} s := by
  have hStart : phaseOf (cycle cfg) = .early := by
    unfold cycle
    cases cfg.bugcompatMode <;> rfl
  induction h with
  | init =>
    rw [hStart]
    exact Wake.init env img
  | @step st _ _ _ hs hRun ih =>
    have hKeeps : Keeps _ (runStage cfg img.ld st _) _ := runStage_wake (phase_after (reach_suffix hs))
      (base_reachable (reach_reachable hs)) ih
    rw [hRun] at hKeeps
    exact hKeeps
  | next _ ih =>
    rw [hStart]
    exact ih

/-! ### Between two stages -/

section

variable {k : Loose} {r : Ref}

theorem current_tickets {α : Type} {gen : Ref → Nat} {ls : List (RSLink α)} {valid : RSLink α → Bool}
    (hValid : ∀ l ∈ ls, (valid l = true ↔ l.gen = gen l.rs)) (r : Ref) :
    current id gen r (tickets ls) = ls.countP fun l => decide (l.rs = r) && valid l := by
  rw [current, tickets, Multiset.coe_countP, List.countP_map]
  refine List.countP_congr fun l hl => decide_eq_true_iff.trans ?_
  rw [Bool.and_eq_true, decide_eq_true_iff, hValid l hl]
  exact Iff.rfl

/-- One valid node for each station that is queued. -/
theorem Wake.node_count (h : Wake cfg ph {} s) (r : Ref) :
    s.readyQueue.countP (fun n => decide (n.rs = r) && s.linkValid n) =
      if readyDue cfg s r then 1 else 0 := by
  have hCount := h.ready.count r
  rw [tickets_nil, zero_add, current_tickets fun n hn => h.queue_valid_iff hn] at hCount
  exact hCount

/-- One valid event for each operation in execution. -/
theorem Wake.event_count (h : Wake cfg ph {} s) (r : Ref) :
    s.eventQueue.countP (fun ev => decide (ev.rs = r) && s.linkValid ev) =
      if eventDue cfg s r then 1 else 0 := by
  have hCount := h.events.count r
  rw [current_tickets fun ev hev => h.event_valid_iff hev] at hCount
  exact hCount

/-- The valid links of an operand in a consumer list. -/
def linksFor (s : State env) (o : Ref × Fin 3) (p : CVLink) : Nat :=
  (s.odepList p).countP fun l => decide (l.rs = o.1 ∧ l.x = o.2) && s.linkValid l

/-- One valid link for each operand that is not ready. -/
theorem Wake.link_count (h : Wake cfg ph {} s) (hQ : QueueInv cfg s.rob) (o : Ref × Fin 3) :
    ∑ p ∈ linkKeys cfg, linksFor s o p = if operandDue cfg s o then 1 else 0 := by
  rw [← h.operands.count o, operandTickets_nil, zero_add, current, consumerTickets,
    Pool.countP_held]
  refine Finset.sum_congr rfl fun p hp => ?_
  rw [linksFor, List.countP_map]
  refine List.countP_congr fun l hl => Iff.trans ?_ decide_eq_true_iff.symm
  rw [Bool.and_eq_true, decide_eq_true_iff, h.consumer_valid_iff hQ hp hl]
  have hKey : (operandTicket l).key = o ↔ l.rs = o.1 ∧ l.x = o.2 := Prod.ext_iff
  exact and_congr_left' hKey.symm

end

/-- What an entry in flight that has not completed can be waiting for. -/
inductive Waiting where
  | operands | issue | completion | refresh

/-- The links, nodes and events that go with it. -/
def Waiting.Holds (cfg : Config) (s : State env) (r : Ref) : Waiting → Prop
  | .operands => s.operandsReady r = false ∧ ∀ k, s.idepReady (r, k) = false →
      ∃ p : CVLink, p.1 ∈ s.rob.prog cfg ∧ s.completed p.1 = false ∧ linksFor s (r, k) p = 1 ∧
        ∀ p' ≠ p, linksFor s (r, k) p' = 0
  | .issue => s.queued r = true ∧
      s.readyQueue.countP (fun n => decide (n.rs = r) && s.linkValid n) = 1
  | .completion => s.issued r = true ∧
      s.eventQueue.countP (fun ev => decide (ev.rs = r) && s.linkValid ev) = 1
  | .refresh => r ∈ s.rob.lsq cfg ∧ s.isLoad r = true ∧ s.operandsReady r = true ∧
      s.queued r = false ∧ s.issued r = false

variable {r : Ref}

theorem Wake.waits_operands (h : Wake cfg ph {} s) (hB : Base cfg {} s)
    (hr : r ∈ s.rob.prog cfg) (hReady : s.operandsReady r = false) :
    Waiting.operands.Holds cfg s r := by
  refine ⟨hReady, fun k hk => ?_⟩
  have hSum := h.link_count hB.queue (r, k)
  rw [if_pos (by simp [operandDue, live_iff.mpr hr, hk])] at hSum
  obtain ⟨p, _, hOne, hElse⟩ := Pool.exists_unique_of_sum_eq_one hSum
  have hNil : ∀ {p}, linksFor s (r, k) p ≠ 0 → s.odepList p ≠ [] := fun hp hNil =>
    hp (by rw [linksFor, hNil, List.countP_nil])
  have hList : s.odepList p ≠ [] := hNil (by omega)
  refine ⟨p, hB.mem_prog_of_list hList, ?_, hOne, fun p' hp' => ?_⟩
  · by_contra hC
    exact hList (hB.odepList_eq_nil (by simpa using hC) p.2)
  · by_contra hSome
    exact hSome (hElse p' (hB.mem_linkKeys (hNil hSome)) hp')

theorem Wake.waits_refresh (h : Wake cfg ph {} s) (hB : Base cfg {} s)
    (hr : r ∈ s.rob.prog cfg) (hReady : s.operandsReady r = true) (hQ : s.queued r = false)
    (hI : s.issued r = false) : Waiting.refresh.Holds cfg s r := by
  have hAwaits : awaitsRefresh s r = true := by
    by_contra hNot
    have hMoves := h.moves r hr (by simp) hReady (by simpa using hNot)
    simp [hQ, hI] at hMoves
  simp only [awaitsRefresh, Bool.and_eq_true, Bool.not_eq_true'] at hAwaits
  refine ⟨?_, ?_, hReady, hQ, hI⟩
  · refine (hB.queue.mem_prog.mp hr).resolve_left fun hRuu => ?_
    obtain ⟨i, _, rfl⟩ := List.mem_map.mp hRuu
    rw [show (s.stn (.ruu i)).inLSQ = false from hB.queue.ruu_inLSQ i] at hAwaits
    cases hAwaits.1
  · exact Opcode.load_of_not_store _ (h.access r hr hAwaits.1) hAwaits.2

/-- An entry waits for one thing only. -/
theorem Waiting.Holds.unique {w w' : Waiting}
    (hStatus : Status (s.operandsReady r) (s.queued r) (s.issued r) (s.completed r))
    (h : w.Holds cfg s r) (h' : w'.Holds cfg s r) : w' = w := by
  have hQ := hStatus.of_queued
  have hI := hStatus.of_issued
  cases w <;> cases w' <;> simp only [Waiting.Holds] at h h' <;> simp_all

theorem Wake.exists_unique_waiting (h : Wake cfg ph {} s) (hB : Base cfg {} s)
    (hr : r ∈ s.rob.prog cfg) (hC : s.completed r = false) :
    ∃! w : Waiting, w.Holds cfg s r := by
  suffices hSome : ∃ w : Waiting, w.Holds cfg s r from
    hSome.elim fun w hw => ⟨w, hw, fun w' hw' => hw.unique (h.status r hr) hw'⟩
  have hLive := live_iff.mpr hr
  cases hReady : s.operandsReady r with
  | false => exact ⟨.operands, h.waits_operands hB hr hReady⟩
  | true =>
    cases hQ : s.queued r with
    | true => exact ⟨.issue, hQ, by rw [h.node_count, if_pos (by simp [readyDue, hLive, hQ])]⟩
    | false =>
      cases hI : s.issued r with
      | true =>
        exact ⟨.completion, hI, by rw [h.event_count, if_pos (by simp [eventDue, hLive, hI, hC])]⟩
      | false => exact ⟨.refresh, h.waits_refresh hB hr hReady hQ hI⟩

/-- **No wakeup is lost and none is duplicated.**  Between any two stages of any run, an entry
in flight that has not completed waits for exactly one thing, and what will wake it is there
exactly once; everything else in the lists that names its slot is stale and carries another
tag.  Nothing waits for an entry that has completed or that is gone. -/
theorem no_lost_wakeup {rest : List Stage} (h : Reach cfg img rest s) :
    (∀ r ∈ s.rob.prog cfg, s.completed r = false → ∃! w : Waiting, w.Holds cfg s r) ∧
    (∀ r i, s.completed r = true → s.odepList (r, i) = []) ∧
    (∀ n p, s.createVector n = some p → p.1 ∈ s.rob.prog cfg ∧ s.completed p.1 = false) ∧
    (∀ n p, s.useSpecCv n = true → s.specCreateVector n = some p →
      p.1 ∈ s.rob.prog cfg ∧ s.completed p.1 = false) ∧
    ∀ st rest', rest = st :: rest' → ∀ c ∈ [Check.odepSatisfied, .alreadyQueued, .issuedNotReady,
      .completedNotReady, .retiredOdeps], runStage cfg img.ld st s ≠ .error (.check c) := by
  have hB := base_reachable (reach_reachable h)
  have hW := reach_wake h
  have hName : ∀ {D : List (Rename.Decl CVLink Nat)} {n p},
      (∀ d ∈ D, d ∈ decls s.stn (s.rob.prog cfg)) →
      Rename.lookup (broadcastDone s.completed fun _ => false) D n = some p →
      p.1 ∈ s.rob.prog cfg ∧ s.completed p.1 = false := by
    intro D n p hSub hLookup
    obtain ⟨d, hd, rfl, _, hDone⟩ := Rename.mem_of_lookup hLookup
    exact ⟨key_mem (hSub d hd), by simpa [broadcastDone] using hDone⟩
  refine ⟨fun r hr hC => hW.exists_unique_waiting hB hr hC, fun r i hC => hB.odepList_eq_nil hC i,
    fun n p hp => ?_, fun n p hBit hp => ?_, ?_⟩
  · rw [hB.names_live.exact.table_eq] at hp
    exact hName (fun d hd => (Rename.mem_settled.mp hd).1) hp
  · rw [hB.names_live.exact.specTable_eq n hBit] at hp
    exact hName (fun _ hd => hd) hp
  · rintro st rest' rfl c hc
    refine (runStage_wake (phase_after (reach_suffix h)) hB hW).not_check fun hExp => ?_
    fin_cases hc <;> exact hExp

/-- Between the stages of the third cycle the wrong path waits. -/
theorem no_lost_wakeup_missedBranch : ∃ (s : State Env.bare) (r : Ref),
    simMain Config.notTaken missedBranch 2 = .ok s ∧ r ∈ s.rob.prog Config.notTaken ∧
    s.completed r = false ∧ ∃! w : Waiting, w.Holds Config.notTaken s r := by
  obtain ⟨s, hs, hNum⟩ : ∃ s : State Env.bare, simMain Config.notTaken missedBranch 2 = .ok s ∧
      ((s.rob.prog Config.notTaken).any fun r => !s.completed r) = true :=
    Outcome.exists_ok_of_any (by decide +kernel)
  obtain ⟨r, hr, hC⟩ := List.any_eq_true.mp hNum
  have hC : s.completed r = false := by simpa using hC
  exact ⟨s, r, hs, hr, hC, (no_lost_wakeup (reach_simMain hs)).1 r hr hC⟩

end SimpleScalar.Outorder

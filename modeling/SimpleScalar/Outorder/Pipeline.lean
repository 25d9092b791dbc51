import SimpleScalar.Outorder.Frontend
import SimpleScalar.Outorder.Frames

/-!
# The queues, the mode, the history and the links in every reachable state

What `Base` says about a state that any interleaving of the stages reaches, in terms of
the fields of the simulator, and the consistency checks that it rules out.

* `ruu_lsq_synchronised`: the RUU and the LSQ are in step, and a recovery cuts both after
  the branch.
* `misspeculation_state`: `spec_mode` is TRUE exactly while a mis-predicted branch in the
  RUU has not completed; it separates the correct path from the wrong path.
* `commit_exact`: what has been committed, followed by the correct-path entries of the RUU,
  is what has been dispatched on the correct path.
* `links_partitioned`: every link record is in exactly one list.
-/

namespace SimpleScalar.Outorder

variable {env : Env} {cfg : Config} {img : Image} {s : State env}

theorem Reachable.not_check (h : Reachable cfg img s) (st : Stage) {c : Check}
    (hc : ¬ Tolerated c) : runStage cfg img.ld st s ≠ .error (.check c) :=
  (runStage_base img.ld (base_reachable h) st).not_check hc

/-! ### RUU and LSQ -/

/-- What `ruu_recover` leaves of a queue that is cut after a live entry. -/
theorem QueueInv.recover {s : State env} (hQ : QueueInv cfg s.rob) {b : Nat} {pre post : List Ref}
    (hRuu : s.rob.ruu cfg = pre ++ .ruu b :: post) :
    ∃ s' L₁ L₂, ruuRecover cfg b s = .ok s' ∧ s'.rob.ruu cfg = pre ++ [.ruu b] ∧
      s.rob.lsq cfg = L₁ ++ L₂ ∧ s'.rob.lsq cfg = L₁ ∧ QueueInv cfg s'.rob := by
  obtain ⟨L₁, L₂, free, hLsq, h₁, _, hRun, _⟩ := ruuRecover_eq hQ hRuu
  have hCut := hRuu
  rw [List.append_cons] at hCut
  obtain ⟨hQ', hRuu', hLsq', _⟩ := hQ.truncate hCut hLsq h₁
  rw [List.length_append, List.length_singleton] at hQ' hRuu' hLsq'
  exact ⟨_, L₁, L₂, hRun, hRuu', hLsq, hLsq', hQ'⟩

theorem ruu_lsq_synchronised (h : Reachable cfg img s) :
    List.Forall₂ (Partner s.stn) ((s.rob.ruu cfg).filter fun r => (s.stn r).eaComp)
      (s.rob.lsq cfg) ∧
    (s.ruuHead + s.ruuNum) % cfg.ruuSize = s.ruuTail ∧
    (s.lsqHead + s.lsqNum) % cfg.lsqSize = s.lsqTail ∧
    s.lsqNum ≤ s.ruuNum ∧ s.ruuNum ≤ cfg.ruuSize ∧ s.lsqNum ≤ cfg.lsqSize ∧
    (∀ b pre post, s.rob.ruu cfg = pre ++ .ruu b :: post →
      ∃ s' L₁ L₂, ruuRecover cfg b s = .ok s' ∧ s'.rob.ruu cfg = pre ++ [.ruu b] ∧
        s.rob.lsq cfg = L₁ ++ L₂ ∧ s'.rob.lsq cfg = L₁ ∧
        List.Forall₂ (Partner s'.stn) ((s'.rob.ruu cfg).filter fun r => (s'.stn r).eaComp)
          (s'.rob.lsq cfg) ∧
        (s'.ruuHead + s'.ruuNum) % cfg.ruuSize = s'.ruuTail ∧
        (s'.lsqHead + s'.lsqNum) % cfg.lsqSize = s'.lsqTail) ∧
    ∀ st c, c ∈ [Check.ruuNumLtLsqNum, .ruuWedged, .lsqWedged, .ruuOutOfSyncWithLsq, .emptyRuu,
      .ruuHeadTailBroken, .ruuLsqOutOfSync] → runStage cfg img.ld st s ≠ .error (.check c) := by
  have hQ := (base_reachable h).queue
  refine ⟨hQ.sync.forall₂, hQ.ruuTail_eq.symm, hQ.lsqTail_eq.symm, hQ.lsqNum_le_ruuNum,
    hQ.ruuNum_le, hQ.lsqNum_le, fun b pre post hRuu => ?_, fun st c hc => h.not_check st ?_⟩
  · obtain ⟨s', L₁, L₂, hRun, hRuu', hLsq, hLsq', hQ'⟩ := hQ.recover hRuu
    exact ⟨s', L₁, L₂, hRun, hRuu', hLsq, hLsq', hQ'.sync.forall₂, hQ'.ruuTail_eq.symm,
      hQ'.lsqTail_eq.symm⟩
  · intro hTol
    fin_cases hc <;> exact hTol

theorem ruu_lsq_synchronised_missedBranch : ∃ s : State Env.bare,
    simMain Config.notTaken missedBranch 2 = .ok s ∧ s.ruuNum = 3 ∧ s.lsqNum = 1 ∧
    List.Forall₂ (Partner s.stn) ((s.rob.ruu Config.notTaken).filter fun r => (s.stn r).eaComp)
      (s.rob.lsq Config.notTaken) := by
  obtain ⟨s, hs, hNum⟩ := missedBranch_runs
  simp only [Bool.and_eq_true, beq_iff_eq] at hNum
  exact ⟨s, hs, hNum.1.2, hNum.2, (ruu_lsq_synchronised (reach_reachable (reach_simMain hs))).1⟩

/-! ### Mis-speculation -/

/-- The branch that mis-speculation mode waits for, and the two paths it separates. -/
theorem misspeculation_state (h : Reachable cfg img s) :
    (s.specMode = true ↔ ∃! b, b ∈ s.rob.ruu cfg ∧ Unresolved s.stn s.completed b) ∧
    (∀ pre b post, s.rob.ruu cfg = pre ++ b :: post → Unresolved s.stn s.completed b →
      s.recoverPC = (s.stn b).nextPC ∧
      (∀ r ∈ pre ++ [b], (s.stn r).specMode = false) ∧ (∀ r ∈ post, (s.stn r).specMode = true) ∧
      ∃ L₁ L₂, s.rob.lsq cfg = L₁ ++ L₂ ∧
        List.Forall₂ (Partner s.stn) ((pre ++ [b]).filter fun r => (s.stn r).eaComp) L₁ ∧
        List.Forall₂ (Partner s.stn) (post.filter fun r => (s.stn r).eaComp) L₂ ∧
        (∀ l ∈ L₁, (s.stn l).specMode = false) ∧ ∀ l ∈ L₂, (s.stn l).specMode = true) ∧
    ∀ st c, c ∈ [Check.cannotRecover, .drainedSpeculative, .mispredictedMem, .mispredictedStore,
      .speculativeSyscall] → runStage cfg img.ld st s ≠ .error (.check c) := by
  have hBase := base_reachable h
  have hSpec := hBase.spec
  have hStops : ∀ st c, c ∈ [Check.cannotRecover, .drainedSpeculative, .mispredictedMem,
      .mispredictedStore, .speculativeSyscall] → runStage cfg img.ld st s ≠ .error (.check c) := by
    intro st c hc
    refine h.not_check st fun hTol => ?_
    fin_cases hc <;> exact hTol
  unfold SpecInv at hSpec
  split at hSpec
  · rename_i hOn
    obtain ⟨pre, b, post, hRuu, hb, hPC, hPre, hPost⟩ := hSpec
    have hMem : b ∈ s.rob.ruu cfg := by simp [hRuu]
    refine ⟨⟨fun _ => ⟨b, ⟨hMem, (hb b).mpr rfl⟩, fun r hr => (hb r).mp hr.2⟩, fun _ => hOn⟩,
      fun pre' b' post' hRuu' hUn => ?_, hStops⟩
    -- the branch occurs once, so that both decompositions are the same
    obtain rfl := (hb b').mp hUn
    have hNodup := s.rob.nodup_ruu cfg hBase.queue.ruuNum_le
    rw [hRuu, List.nodup_append] at hNodup
    have hOnce : b' ∉ pre ∧ b' ∉ post :=
      ⟨fun hIn => hNodup.2.2 b' hIn b' (by simp) rfl, (List.nodup_cons.mp hNodup.2.1).1⟩
    obtain ⟨rfl, _, rfl⟩ := (List.append_cons_inj_of_notMem hOnce.1 hOnce.2).mp
      (hRuu.symm.trans hRuu')
    have hSync := hBase.queue.sync
    rw [hRuu, List.append_cons] at hSync
    obtain ⟨L₁, L₂, hLsq, h₁, h₂⟩ := hSync.split
    exact ⟨hPC.symm, hPre, hPost, L₁, L₂, hLsq, h₁.forall₂, h₂.forall₂,
      fun l hl => h₁.specMode_weave hPre l (h₁.mem_weave.mpr (.inr hl)),
      fun l hl => h₂.specMode_weave hPost l (h₂.mem_weave.mpr (.inr hl))⟩
  · rename_i hOff
    refine ⟨⟨fun hOn => absurd hOn hOff, fun ⟨b, hb, _⟩ => absurd hb.2 (hSpec.1 b)⟩,
      fun pre b post _ hUn => absurd hUn (hSpec.1 b), hStops⟩

theorem misspeculation_state_missedBranch : ∃ s : State Env.bare,
    simMain Config.notTaken missedBranch 2 = .ok s ∧
    ∃! b, b ∈ s.rob.ruu Config.notTaken ∧ Unresolved s.stn s.completed b := by
  obtain ⟨s, hs, hNum⟩ := missedBranch_runs
  simp only [Bool.and_eq_true, beq_iff_eq] at hNum
  exact ⟨s, hs, (misspeculation_state (reach_reachable (reach_simMain hs))).1.mp hNum.1.1⟩

/-! ### Commit -/

/-- The entries at the head are the oldest ones. -/
theorem settledEntries_append {q q' : Rob env} {gone : List Ref}
    (hRuu : q.ruu cfg = gone ++ q'.ruu cfg) (hStn : q'.stn = q.stn) :
    settledEntries cfg q = ((gone.filter fun r => !(q.stn r).specMode).map fun r =>
      (q.stn r).dispatch) ++ settledEntries cfg q' := by
  unfold settledEntries
  rw [hRuu, hStn, List.filter_append, List.map_append]

/-- Only entries of the correct path are committed: otherwise there would be more of them than
have been dispatched. -/
theorem CommitFrame.gone_settled {s' : State env} {gone : List Ref} (h : Base cfg {} s)
    (h' : Base cfg {} s') (hFrame : CommitFrame cfg s s')
    (hRuu : s.rob.ruu cfg = gone ++ s'.rob.ruu cfg)
    (hRet : s'.retired = s.retired ++ gone.map fun r => (s.stn r).dispatch) :
    ∀ r ∈ gone, (s.stn r).specMode = false := by
  have hDisp : s'.dispatched = s.dispatched := congrArg Front.dispatched hFrame.front
  have hEq := h'.hist.eq.trans ((congrArg (· ++ []) hDisp).trans h.hist.eq.symm)
  have hStn : s'.rob.stn = s.rob.stn := hFrame.stn
  rw [hRet, settledEntries_append hRuu hStn, List.append_assoc, List.append_cancel_left_eq,
    List.append_cancel_right_eq] at hEq
  have hLen := congrArg List.length hEq
  rw [List.length_map, List.length_map] at hLen
  intro r hr
  have hFilter : (!(s.stn r).specMode) = true :=
    List.length_filter_eq_length_iff.mp hLen.symm r hr
  simpa using hFilter

theorem commit_exact (h : Reachable cfg img s) :
    s.retired ++ settledEntries cfg s.rob = s.dispatched ∧
    s.dispatched.Pairwise (fun a b => a.inum < b.inum) ∧
    (∀ s', ruuCommit cfg s = .ok s' → ∃ gone, s.rob.ruu cfg = gone ++ s'.rob.ruu cfg ∧
      (∀ r ∈ gone, (s.stn r).specMode = false) ∧
      s'.retired = s.retired ++ gone.map fun r => (s.stn r).dispatch) ∧
    ∀ s', ruuWriteback cfg s = .ok s' → settledEntries cfg s'.rob = settledEntries cfg s.rob := by
  have hBase := base_reachable h
  have hHist := hBase.hist
  rw [List.append_nil] at hHist
  refine ⟨hHist.eq, hHist.order, fun s' hRun => ?_, fun s' hRun => ?_⟩
  · obtain ⟨hBase', hFrame⟩ := (ruuCommit_frame hBase).of_ok hRun
    obtain ⟨gone, hRuu, hRet⟩ := hFrame.ruu
    exact ⟨gone, hRuu, hFrame.gone_settled hBase hBase' hRuu hRet, hRet⟩
  · obtain ⟨hRet, _, hFront⟩ := ruuWriteback_frame.of_ok hRun
    have hDisp : s'.dispatched = s.dispatched := by
      rcases hFront with hSame | ⟨_, hRestart⟩
      · exact congrArg Front.dispatched hSame
      · exact congrArg Front.dispatched hRestart
    have hHist' := ((ruuWriteback_base hBase).of_ok hRun).hist.eq
    rw [List.append_nil, hRet, hDisp, ← hHist.eq, List.append_cancel_left_eq] at hHist'
    exact hHist'

theorem commit_exact_missedBranch : ∃ s : State Env.bare,
    simMain Config.notTaken missedBranch 2 = .ok s ∧
    s.retired ++ settledEntries Config.notTaken s.rob = s.dispatched := by
  obtain ⟨s, hs, _⟩ := missedBranch_runs
  exact ⟨s, hs, (commit_exact (reach_reachable (reach_simMain hs))).1⟩

/-! ### Links -/

/-- Where a link record can be. -/
inductive Place where
  | free
  | events
  | ready
  | consumers (p : CVLink)
  deriving DecidableEq

/-- The records in a place. -/
def linksAt (s : State env) : Place → List Nat
  | .free => s.rslinkFreeList
  | .events => s.eventQueue.map RSLink.id
  | .ready => s.readyQueue.map RSLink.id
  | .consumers p => (s.odepList p).map RSLink.id

/-- The places that there are. -/
def places (cfg : Config) : Finset Place :=
  {.free, .events, .ready} ∪ (linkKeys cfg).image .consumers

theorem Base.held_places (h : Base cfg {} s) :
    Pool.held (places cfg) (linksAt s) = Multiset.range maxRsLinks := by
  have hDisj : Disjoint ({.free, .events, .ready} : Finset Place)
      ((linkKeys cfg).image .consumers) := by
    rw [Finset.disjoint_left]
    intro p hp hImage
    obtain ⟨k, _, rfl⟩ := Finset.mem_image.mp hImage
    simp at hp
  have hLinks := h.links
  rw [LinkInv, Multiset.coe_nil, add_zero] at hLinks
  rw [← hLinks, places, Pool.held, Finset.sum_union hDisj, Finset.sum_insert (by simp),
    Finset.sum_insert (by simp), Finset.sum_singleton,
    Finset.sum_image (fun _ _ _ _ hEq => Place.consumers.inj hEq), ← add_assoc]
  rfl

/-- Places that do not belong to a station of the queues are empty. -/
theorem Base.mem_places (h : Base cfg {} s) {p : Place} (hp : linksAt s p ≠ []) :
    p ∈ places cfg := by
  cases p with
  | consumers p =>
    have hList : s.odepList p ≠ [] := fun hNil => hp (by simp [linksAt, hNil])
    exact Finset.mem_union_right _ (Finset.mem_image_of_mem _ (h.mem_linkKeys hList))
  | _ => simp [places]

theorem links_partitioned (h : Reachable cfg img s) :
    (∀ id < maxRsLinks, ∃ p, (linksAt s p).count id = 1 ∧ ∀ p' ≠ p, id ∉ linksAt s p') ∧
    (∀ p, ∀ id ∈ linksAt s p, id < maxRsLinks) ∧
    ∀ r i, linksAt s (.consumers (r, i)) ≠ [] → r ∈ s.rob.ruu cfg ∨ r ∈ s.rob.lsq cfg := by
  have hBase := base_reachable h
  have hHeld := hBase.held_places
  have hPlace : ∀ p, ∀ id ∈ linksAt s p, p ∈ places cfg := fun p id hid =>
    hBase.mem_places (List.ne_nil_of_mem hid)
  refine ⟨fun id hid => ?_, fun p id hid => ?_, fun r i hList => ?_⟩
  · have hNodup : (Pool.held (places cfg) (linksAt s)).Nodup := by
      rw [hHeld]
      exact Multiset.nodup_range _
    obtain ⟨p, _, hOne, hElse⟩ := Pool.exists_unique_list hNodup (a := id) (by
      rw [hHeld]
      exact Multiset.mem_range.mpr hid)
    exact ⟨p, hOne, fun p' hne hMem => hElse p' (hPlace p' id hMem) hne hMem⟩
  · have hMem := Pool.mem_held.mpr ⟨p, hPlace p id hid, hid⟩
    rw [hHeld] at hMem
    exact Multiset.mem_range.mp hMem
  · have hList : s.odepList (r, i) ≠ [] := fun hNil => hList (by simp [linksAt, hNil])
    obtain ⟨_, d, hd, hKey⟩ := hBase.names_live.lists (r, i) hList
    have hLive := key_mem hd
    rw [hKey] at hLive
    exact hBase.queue.mem_prog.mp hLive

theorem links_partitioned_missedBranch : ∃ s : State Env.bare,
    simMain Config.notTaken missedBranch 2 = .ok s ∧
    ∀ id < maxRsLinks, ∃ p, (linksAt s p).count id = 1 ∧ ∀ p' ≠ p, id ∉ linksAt s p' := by
  obtain ⟨s, hs, _⟩ := missedBranch_runs
  exact ⟨s, hs, (links_partitioned (reach_reachable (reach_simMain hs))).1⟩

end SimpleScalar.Outorder

import SimpleScalar.Outorder.Allocate

/-!
# The invariant over whole runs

The rest of dispatch, fetch, and with them every stage: `Base` holds in every state
that any interleaving of the stages reaches, and the stages stop with no consistency
check but the `Tolerated` ones.

* `dispatchOne_base`, `ruuDispatch_base`, `fetchStage_base`
* `runStage_base`, `base_reachable`
-/

namespace SimpleScalar.Outorder

open Outcome

variable {env : Env} {cfg : Config} {k : Slack} {s : State env} {A : Check → Prop}

/-! ### The trace -/

/-- Dispatch discovers that fetch has left the correct path. -/
theorem Base.enterSpec (h : Base cfg {} s) (hOff : s.specMode = false) {rs : Ref} {pre : List Ref}
    (hNew : s.rob.ruu cfg = pre ++ [rs]) (hC : s.completed rs = false) :
    Base cfg {} { s with
      specMode := true
      stn := Function.update s.stn rs { s.stn rs with recoverInst := true }
      recoverPC := (s.stn rs).nextPC } := by
  obtain ⟨stn', hStn'⟩ : ∃ stn', stn' = Function.update s.stn rs { s.stn rs with recoverInst := true } :=
    ⟨_, rfl⟩
  have hSelf : stn' rs = { s.stn rs with recoverInst := true } := by
    rw [hStn', Function.update_self]
  have hOther : ∀ r, r ≠ rs → stn' r = s.stn r := fun r hr => by
    rw [hStn', Function.update_of_ne hr]
  -- only the flag has changed
  have hSame : ∀ r, (stn' r).ident = (s.stn r).ident ∧ (stn' r).dispatch = (s.stn r).dispatch ∧
      (stn' r).onames = (s.stn r).onames ∧ (stn' r).specMode = (s.stn r).specMode ∧
      (stn' r).inLSQ = (s.stn r).inLSQ := by
    intro r
    by_cases hr : r = rs
    · subst hr
      rw [hSelf]
      exact ⟨rfl, rfl, rfl, rfl, rfl⟩
    · rw [hOther r hr]
      exact ⟨rfl, rfl, rfl, rfl, rfl⟩
  have hMem : rs ∈ s.rob.ruu cfg := by simp [hNew]
  obtain ⟨j, _, hj⟩ := List.mem_map.mp hMem
  obtain ⟨hQ, hProg⟩ := @QueueInv.setStn env cfg s.rob h.queue stn' (fun r _ => (hSame r).1)
    (fun i => (hSame _).2.2.2.2.trans (h.queue.ruu_inLSQ i))
    (fun i => by
      rw [hOther (.lsq i) (by rw [← hj]; simp)]
      exact h.queue.lsq_recoverInst i)
  have hSpec := h.spec
  unfold SpecInv at hSpec
  rw [if_neg (by rw [hOff]; decide)] at hSpec
  rw [← hStn']
  refine ⟨hQ, ?_, ⟨?_, h.hist.order, h.hist.bound⟩, h.links, ?_⟩
  · refine ⟨pre, rs, [], hNew, fun r => ?_, ?_, fun r hr => ?_, by simp⟩
    · by_cases hr : r = rs
      · subst hr
        refine ⟨fun _ => rfl, fun _ => ⟨?_, hC⟩⟩
        show (stn' r).recoverInst = true
        rw [hSelf]
      · refine ⟨fun hUn => ?_, fun h => absurd h hr⟩
        have hUn' : Unresolved s.rob.stn s.completed r := by
          obtain ⟨hRec, hCr⟩ := hUn
          change (stn' r).recoverInst = true at hRec
          rw [hOther r hr] at hRec
          exact ⟨hRec, hCr⟩
        exact absurd hUn' (hSpec.1 r)
    · show (stn' rs).nextPC = (s.stn rs).nextPC
      rw [hSelf]
    · show (stn' r).specMode = false
      rw [(hSame r).2.2.2.1]
      exact hSpec.2 r (by rw [hNew]; exact hr)
  · have hEntries : settledEntries cfg { s.rob with stn := stn' } = settledEntries cfg s.rob := by
      unfold settledEntries
      show ((s.rob.ruu cfg).filter fun r => !(stn' r).specMode).map (fun r => (stn' r).dispatch) = _
      simp only [hSame]
      rfl
    exact (congrArg (s.retired ++ ·) hEntries).trans h.hist.eq
  · show NamesInv (decls stn' (Rob.prog { s.rob with stn := stn' } cfg) ++ []) _ _ _ _ _
    rw [hProg, decls_congr fun r _ => ⟨(hSame r).2.2.1, (hSame r).2.2.2.1⟩]
    exact h.names

/-- The trace generator after `traceIf`: the wrong path leaves no trace, and an instruction
whose successor was mis-predicted is the last one of the correct path. -/
def Front.traced (r : TraceRec env) (ds : List Dispatch) (mispredicted : Bool) (f : Front env) :
    Front env :=
  if f.specMode then f
  else
    { f with
      trace := f.trace ++ [r]
      dispatched := f.dispatched ++ ds
      specMode := mispredicted
      recoverPC := if mispredicted then r.nextPC else f.recoverPC }

/-- The head of the fetch queue has been dispatched. -/
def Front.consume (cfg : Config) (f : Front env) : Front env :=
  { f with
    fetchHead := (f.fetchHead + 1) &&& (cfg.ruuIfqSize - 1)
    fetchNum := f.fetchNum - 1 }

/-- Recording an instruction leaves the pipeline alone, but for `recover_inst` of its own
station. -/
def RecordFrame (rs : Option Ref) (s s' : State env) : Prop :=
  ∃ stn' specMode recoverPC trace dispatched pred head num,
    s' = { s with
      stn := stn'
      specMode := specMode
      recoverPC := recoverPC
      trace := trace
      dispatched := dispatched
      pred := pred
      fetchHead := head
      fetchNum := num } ∧
    (stn' = s.stn ∨ s.specMode = false ∧ ∃ r, rs = some r ∧
      stn' = Function.update s.stn r { s.stn r with recoverInst := true })

theorem traceIf_base {r : TraceRec env} {rs : Option Ref} (redirected : Bool)
    (hNone : rs = none → Base cfg {} s)
    (hSome : ∀ x, rs = some x → ∃ i, NewEntry cfg x i s ∧ i.nextPC = r.nextPC) :
    Keeps A (traceIf cfg r rs redirected s) fun s' => Base cfg {} s' ∧
      s'.front = s.front.traced r (rs.map fun x => (s.stn x).dispatch).toList
        (s.predPC ≠ r.nextPC && !redirected) ∧ RecordFrame rs s (consume cfg s') := by
  refine keeps_ite (fun hOn => ⟨?_, (if_pos hOn).symm, _, _, _, _, _, _, _, _, rfl, .inl rfl⟩)
    fun hOff => ?_
  · cases rs with
    | none => exact hNone rfl
    | some x =>
      obtain ⟨i, hEntry, _⟩ := hSome x rfl
      have hBase := hEntry.base
      rw [unrecorded, if_pos hOn] at hBase
      exact hBase
  have hRecord : Base cfg {} { s with
      trace := s.trace ++ [r]
      dispatched := s.dispatched ++ (rs.map fun x => (s.stn x).dispatch).toList } := by
    cases rs with
    | none =>
      have hBase := hNone rfl
      refine { hBase with hist := ?_ }
      show HistInv cfg s.rob s.retired ((s.dispatched ++ []) ++ []) s.inums
      rw [List.append_nil]
      exact hBase.hist
    | some x =>
      obtain ⟨i, hEntry, _⟩ := hSome x rfl
      have hBase := hEntry.base
      rw [unrecorded, if_neg hOff] at hBase
      refine { hBase with hist := ?_ }
      show HistInv cfg s.rob s.retired ((s.dispatched ++ [_]) ++ []) s.inums
      rw [List.append_nil]
      exact hBase.hist
  have hFront : s.front.traced r (rs.map fun x => (s.stn x).dispatch).toList
      (s.predPC ≠ r.nextPC && !redirected) = { s.front with
        trace := s.trace ++ [r]
        dispatched := s.dispatched ++ (rs.map fun x => (s.stn x).dispatch).toList
        specMode := s.predPC ≠ r.nextPC && !redirected
        recoverPC := if s.predPC ≠ r.nextPC && !redirected then r.nextPC else s.recoverPC } :=
    if_neg hOff
  rw [hFront]
  refine Keeps.bind (Q := fun s' => ∃ pred, s' = { s with
      trace := s.trace ++ [r]
      dispatched := s.dispatched ++ (rs.map fun x => (s.stn x).dispatch).toList
      pred := pred }) ?_ ?_
  · cases rs with
    | none => exact ⟨s.pred, rfl⟩
    | some x => exact bpredTrainIn_keeps fun pred => ⟨pred, rfl⟩
  rintro s' ⟨pred, rfl⟩
  have hTrained : Base cfg {} { s with
      trace := s.trace ++ [r]
      dispatched := s.dispatched ++ (rs.map fun x => (s.stn x).dispatch).toList
      pred := pred } :=
    { hRecord with }
  refine keeps_ite (fun hMis => ?_) fun hMis =>
    ⟨hTrained, ?_, _, _, _, _, _, _, _, _, rfl, .inl rfl⟩
  · cases rs with
    | none => exact keeps_error (by simp)
    | some x =>
      obtain ⟨i, hEntry, hPC⟩ := hSome x rfl
      obtain ⟨pre, hNew⟩ := hEntry.newest
      have hOff : s.specMode = false := by simpa using hOff
      have hEnter := hTrained.enterSpec hOff hNew hEntry.completed
      rw [show _ = r.nextPC from hEntry.nextPC.trans hPC] at hEnter
      refine ⟨hEnter, ?_, _, _, _, _, _, _, _, _, rfl, .inr ⟨hOff, x, rfl, rfl⟩⟩
      rw [if_pos hMis, show (decide (s.predPC ≠ r.nextPC) && !redirected) = true from hMis]
      rfl
  · rw [if_neg hMis, show (decide (s.predPC ≠ r.nextPC) && !redirected) = false from
      Bool.eq_false_iff.mpr hMis, ← show s.specMode = false by simpa using hOff]
    rfl

/-! ### The dispatch loop -/

section

variable {ld : Segments}

/-- In mis-speculation mode the branch that caused it is still in the RUU. -/
theorem SpecInv.drained {q : Rob env} {specMode : Bool} {recoverPC : Word}
    {completed : Ref → Bool} (h : SpecInv cfg q specMode recoverPC completed)
    (hEmpty : q.ruuNum = 0) : specMode = false := by
  by_contra hOn
  unfold SpecInv at h
  rw [if_pos (by simpa using hOn)] at h
  obtain ⟨pre, b, post, hRuu, _⟩ := h
  have hLen := congrArg List.length hRuu
  simp [Rob.ruu, hEmpty] at hLen

theorem Base.executed (h : Base cfg k s) (op : Opcode) (x : Exec env) :
    Base cfg k (executed cfg op x s) := by
  unfold Outorder.executed
  split
  · exact { h with }
  · exact { h with }

theorem executed_rob (op : Opcode) (x : Exec env) : (executed cfg op x s).rob = s.rob := by
  unfold executed
  split <;> rfl

/-- One iteration of `ruu_dispatch`: the loop is left, or an instruction is executed,
allocated and recorded. -/
inductive DispatchStep (cfg : Config) (ld : Segments) (d : DispatchLocals) (s : State env) :
    Option DispatchLocals × State env → Prop where
  | stop : DispatchStep cfg ld d s (none, s)
  | wait : DispatchStep cfg ld d s (none, atHead s)
  | inst {op : Opcode} {x : Exec env} {d' : DispatchLocals} {s₁ s₂ s' : State env}
      (ds : List Dispatch) (hRuu : s.ruuNum < cfg.ruuSize) (hLsq : s.lsqNum < cfg.lsqSize)
      (hNum : s.fetchNum ≠ 0) (hGo : stalls cfg s = false)
      (hOp : (s.fetchData s.fetchHead).IR.decode = some op)
      (hTrap : s.specMode = true → op.has F.trap = false)
      (hExec : execInst cfg ld (s.fetchData s.fetchHead).IR op d (atHead s) = .ok x)
      (hs₁ : s₁ = executed cfg (dispatchOp op) x (atHead s))
      (hAlloc : Allocated cfg
        ⟨s.fetchData s.fetchHead, dispatchOp op, x.nextPC, s₁.predPC, x.addr⟩ s₁ s₂)
      (hRecord : RecordFrame (if dispatchOp op = .nop then none else some (.ruu s₁.ruuTail)) s₂ s')
      (hRedirected : d'.fetchRedirected = (d.fetchRedirected || redirects cfg (dispatchOp op) x
        { atHead s with arch := x.arch, host := x.host, overlay := x.overlay }))
      (hDispatched : ds.map (fun d => (d.PC, d.IR)) = if dispatchOp op = .nop then [] else
        [((s.fetchData s.fetchHead).regsPC, (s.fetchData s.fetchHead).IR)])
      (hFront : s'.front = (s₁.front.traced
        ⟨(s.fetchData s.fetchHead).regsPC, (s.fetchData s.fetchHead).IR, x.nextPC,
          s.arch.zeroR0, s.host, x.arch, x.host⟩ ds
        (s₁.predPC ≠ x.nextPC && !d'.fetchRedirected)).consume cfg) :
      DispatchStep cfg ld d s (some d', s')

theorem dispatchOne_base (hOut : A .outOfRsLinks) (h : Base cfg {} s) (d : DispatchLocals) :
    Keeps A (dispatchOne cfg ld d s) fun p => Base cfg {} p.2 ∧ DispatchStep cfg ld d s p := by
  have hHead : Base cfg {} (atHead s) := { h with }
  refine dispatchOne_keeps ⟨h, .stop⟩ ⟨hHead, .wait⟩ h.spec.drained ?_
  intro op hRuu hLsq hNum hGo hOp hTrap
  have hNoTrap : s.specMode = true → op.has F.trap = false := by
    intro hOn
    by_contra hNot
    have hEmpty := hTrap (by simpa using hNot)
    exact absurd ((h.spec.drained hEmpty).symm.trans hOn) (by decide)
  have hExec : Keeps A (execInst cfg ld (s.fetchData s.fetchHead).IR op d (atHead s))
    fun _ => True := execInst_keeps hNoTrap
  refine dispatchInst_keeps hExec.self fun x hx s₁ redirected hs₁ hRed => ?_
  have hBase : Base cfg {} s₁ := by
    rw [hs₁]
    exact hHead.executed _ _
  have hRob : s₁.rob = s.rob := by rw [hs₁]; exact executed_rob _ _
  have hPC₁ : s₁.regsPC = (s.fetchData s.fetchHead).regsPC := by
    rw [hs₁]
    unfold Outorder.executed
    split <;> rfl
  have hRuu₁ : s₁.ruuNum < cfg.ruuSize := (congrArg Rob.ruuNum hRob).trans_lt hRuu
  have hLsq₁ : s₁.lsqNum < cfg.lsqSize := (congrArg Rob.lsqNum hRob).trans_lt hLsq
  refine (alloc_base hOut hBase hRuu₁ hLsq₁ _).mono fun s₂ hs₂ => ?_
  obtain ⟨hAlloc, hFront₂, hSteps⟩ := hs₂
  dsimp only at hAlloc
  refine (traceIf_base redirected (fun hNone => ?_) fun r hr => ?_).mono fun s₃ hs₃ => ?_
  · have hNop : dispatchOp op = .nop := by
      by_contra hNot
      rw [if_neg hNot] at hNone
      cases hNone
    rw [if_pos hNop] at hAlloc
    exact hAlloc
  · have hNop : dispatchOp op ≠ .nop := by
      intro hNop
      rw [if_pos hNop] at hr
      cases hr
    rw [if_neg hNop] at hr
    cases hr
    rw [if_neg hNop] at hAlloc
    exact ⟨_, hAlloc, rfl⟩
  · obtain ⟨hBase₃, hFront₃, hRecord⟩ := hs₃
    refine ⟨{ hBase₃ with }, ?_⟩
    refine .inst ((if dispatchOp op = .nop then none else some (Ref.ruu s₁.ruuTail)).map
      fun r => (s₂.stn r).dispatch).toList hRuu hLsq hNum hGo hOp hNoTrap hx hs₁ hSteps hRecord
      hRed ?_ ?_
    · split
      · rfl
      · rename_i hNop
        rw [if_neg hNop] at hAlloc
        have hPC : (s₂.stn (.ruu s₁.ruuTail)).PC = (s.fetchData s.fetchHead).regsPC := by
          rw [← hPC₁]
          exact hAlloc.PC.trans (congrArg Front.regsPC hFront₂)
        simp only [Option.map_some, Option.toList_some, List.map_cons, List.map_nil,
          Station.dispatch, hPC, hAlloc.IR]
    · have hPred : s₂.predPC = s₁.predPC := congrArg Front.predPC hFront₂
      rw [hFront₂, hPred] at hFront₃
      exact congrArg (Front.consume cfg) hFront₃

theorem ruuDispatch_base {I : DispatchLocals → State env → Prop} (hOut : A .outOfRsLinks)
    (h : Base cfg {} s)
    (hI : I (dispatchLocals s) s)
    (hStep : ∀ d s p, Base cfg {} s → Base cfg {} p.2 → I d s → DispatchStep cfg ld d s p →
      I (p.1.getD d) p.2) :
    Keeps A (ruuDispatch cfg ld s) fun s' => Base cfg {} s' ∧ ∃ d, I d s' := by
  refine ruuDispatchLoop_keeps (I := fun d s => Base cfg {} s ∧ I d s)
    (fun d _ h => ⟨h.1, d, h.2⟩) (fun d s h => ?_) _ ⟨h, hI⟩
  refine (dispatchOne_base hOut h.1 d).mono fun p hp => ?_
  have hI' := hStep d s p h.1 hp.1 h.2 hp.2
  obtain ⟨_ | d', s'⟩ := p
  · exact ⟨hp.1, d, hI'⟩
  · exact ⟨hp.1, hI'⟩

/-! ### Whole runs -/

theorem fetchStage_base (h : Base cfg {} s) : Keeps A (fetchStage cfg ld s) (Base cfg {}) :=
  fetchStage_keeps h (fun _ _ h => { h with })
    (fun _ _ _ h _ => { h with })
    (fun _ _ _ _ h _ _ _ _ => { h with })

theorem sanity_base (h : Base cfg {} s) : Keeps A (sanity cfg s) (Base cfg {}) := by
  refine keeps_ite (fun hLt => ?_) fun _ => ?_
  · exact absurd hLt (Nat.not_lt.mpr h.queue.lsqNum_le_ruuNum)
  refine keeps_ite (fun hTail => absurd h.queue.ruuTail_eq.symm hTail) fun _ => ?_
  exact keeps_ite (fun hTail => absurd h.queue.lsqTail_eq.symm hTail) fun _ => h

theorem runStage_base (ld : Segments) (h : Base cfg {} s) (st : Stage) :
    Keeps Tolerated (runStage cfg ld st s) (Base cfg {}) := by
  cases st with
  | sanity => exact sanity_base h
  | commit =>
    exact (ruuCommit_base (I := fun _ => True) h trivial fun _ _ _ _ _ _ => trivial).mono
      fun _ hs => hs.1
  | releaseFu => exact { h with }
  | writeback => exact ruuWriteback_base h
  | refresh => exact lsqRefresh_base h
  | issue => exact ruuIssue_base h
  | dispatch =>
    exact (ruuDispatch_base (I := fun _ _ => True) trivial h trivial fun _ _ _ _ _ _ _ => trivial).mono
      fun _ hs => hs.1
  | fetch => exact fetchStage_base h
  | tick => exact { h with }

end

theorem base_reachable {img : Image} (h : Reachable cfg img s) : Base cfg {} s := by
  induction h with
  | init => exact Base.init env img
  | step st _ hRun ih =>
    have hKeeps := runStage_base img.ld ih st
    rw [hRun] at hKeeps
    exact hKeeps

end SimpleScalar.Outorder

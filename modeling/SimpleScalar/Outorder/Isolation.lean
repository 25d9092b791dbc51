import SimpleScalar.Outorder.Path
import SimpleScalar.Outorder.Entry

/-!
# The wrong path is isolated

In mis-speculation mode instructions work on copies.  No stage changes the architected
state while the mode is on, up to and including the recovery (`stage_wrong`); no
instruction of the wrong path makes the simulator give up (`dispatchOne_wrong`); and the
instruction that is executed next on the correct path finds what the mis-predicted branch
has left, and nothing else (`Runs`).  So the architected state is a function of the
instructions of the correct path (`replay`).

* `speculation_isolated`
-/

namespace SimpleScalar.Outorder

open Outcome

variable {env : Env} {cfg : Config} {img : Image} {s s' : State env}

/-- The same architected state, up to `$0`, which is cleared before each instruction. -/
def SameState (a b : Arch) : Prop := (∀ r, r ≠ .r 0 → b.regs r = a.regs r) ∧ b.mem = a.mem

theorem SameState.of_zeroR0 {a b : Arch} (h : b.zeroR0 = a.zeroR0) : SameState a b := by
  refine ⟨fun r hr => ?_, congrArg (·.mem) h⟩
  rw [← Arch.zeroR0_regs_of_ne hr, h, Arch.zeroR0_regs_of_ne hr]

/-! ### Stages in mis-speculation mode -/

/-- What mis-speculation mode keeps: the architected state, the host, and the trace. -/
structure Kept (s s' : State env) : Prop where
  arch : s'.arch.zeroR0 = s.arch.zeroR0
  host : s'.host = s.host
  trace : s'.trace = s.trace

theorem Kept.trans {s₁ s₂ : State env} (h : Kept s s₁) (h' : Kept s₁ s₂) : Kept s s₂ :=
  ⟨h'.arch.trans h.arch, h'.host.trans h.host, h'.trace.trans h.trace⟩

theorem Kept.of_front (h : s'.front = s.front) : Kept s s' :=
  ⟨congrArg (fun f => f.arch.zeroR0) h, congrArg Front.host h, congrArg Front.trace h⟩

theorem DispatchStep.kept {d : DispatchLocals} {p : Option DispatchLocals × State env}
    (h : DispatchStep cfg img.ld d s p) (hOn : s.specMode = true) :
    Kept s p.2 ∧ p.2.specMode = true := by
  cases h with
  | stop => exact ⟨⟨rfl, rfl, rfl⟩, hOn⟩
  | wait => exact ⟨⟨rfl, rfl, rfl⟩, hOn⟩
  | @inst op x d' s₁ s₂ s' ds hRuu hLsq hNum hGo hOp hTrap hExec hs₁ hAlloc hRecord hRedirected hDispatched
      hFront =>
    subst hs₁
    obtain ⟨hArch, hHost, -, hTrace, hSpec, -⟩ := executed_state (atHead s) (dispatchOp op) x
    obtain ⟨hSame, hSameHost⟩ := execInst_wrong (s := atHead s) hOn hExec
    rw [Front.traced, if_pos (hSpec.trans hOn)] at hFront
    refine ⟨⟨?_, ?_, ?_⟩, ?_⟩
    · rw [show s'.arch = x.arch from (congrArg Front.arch hFront).trans hArch, hSame, Arch.zeroR0_zeroR0]
      rfl
    · rw [show s'.host = x.host from (congrArg Front.host hFront).trans hHost, hSameHost]
      rfl
    · exact (congrArg Front.trace hFront).trans hTrace
    · exact (congrArg Front.specMode hFront).trans (hSpec.trans hOn)

/-- No stage changes the architected state in mis-speculation mode. -/
theorem stage_wrong (h : Reachable cfg img s) (hOn : s.specMode = true) {st : Stage}
    (hRun : runStage cfg img.ld st s = .ok s') : Kept s s' := by
  have hBase := base_reachable h
  cases st with
  | sanity =>
    rw [sanity_frame.of_ok hRun]
    exact ⟨rfl, rfl, rfl⟩
  | commit => exact .of_front ((ruuCommit_frame hBase).of_ok hRun).2.front
  | releaseFu => cases hRun; exact ⟨rfl, rfl, rfl⟩
  | writeback =>
    obtain ⟨-, -, hSame | ⟨-, hRestart⟩⟩ := ruuWriteback_frame.of_ok hRun
    · exact .of_front hSame
    · exact ⟨congrArg (fun f => f.arch.zeroR0) hRestart, congrArg Front.host hRestart,
        congrArg Front.trace hRestart⟩
  | refresh => exact .of_front (lsqRefresh_frame.of_ok hRun).1
  | issue => exact .of_front (ruuIssue_frame.of_ok hRun).1
  | dispatch =>
    have hKeeps : Keeps AnyCheck (ruuDispatch cfg img.ld s) fun s' => Base cfg {} s' ∧
        ∃ _ : DispatchLocals, Kept s s' ∧ s'.specMode = true :=
      ruuDispatch_base trivial hBase ⟨⟨rfl, rfl, rfl⟩, hOn⟩ fun d s₁ p _ _ hI hStep =>
        ⟨hI.1.trans (hStep.kept hI.2).1, (hStep.kept hI.2).2⟩
    obtain ⟨-, -, hKept, -⟩ := hKeeps.of_ok hRun
    exact hKept
  | fetch =>
    have hKeeps : Keeps AnyCheck (fetchStage cfg img.ld s) (Kept s) :=
      fetchStage_keeps ⟨rfl, rfl, rfl⟩ (fun _ _ h => ⟨h.arch, h.host, h.trace⟩)
        (fun _ _ _ h _ => ⟨h.arch, h.host, h.trace⟩) fun _ _ _ _ h _ _ _ _ => ⟨h.arch, h.host, h.trace⟩
    exact hKeeps.of_ok hRun
  | tick => cases hRun; exact ⟨rfl, rfl, rfl⟩

/-- Stages one after the other, each of which starts in mis-speculation mode. -/
inductive WrongPath (cfg : Config) (img : Image) (s : State env) : State env → Prop where
  | refl : WrongPath cfg img s s
  | step {s₁ s₂ : State env} {st : Stage} (h : WrongPath cfg img s s₁) (hOn : s₁.specMode = true)
      (hRun : runStage cfg img.ld st s₁ = .ok s₂) : WrongPath cfg img s s₂

theorem WrongPath.kept (hs : Reachable cfg img s) (h : WrongPath cfg img s s') :
    Reachable cfg img s' ∧ Kept s s' := by
  induction h with
  | refl => exact ⟨hs, rfl, rfl, rfl⟩
  | step _ hOn hRun ih => exact ⟨.step _ ih.1 hRun, ih.2.trans (stage_wrong ih.1 hOn hRun)⟩

/-! ### Instructions of the wrong path -/

section

variable {ld : Segments} {inst : Inst} {pc : Word} {d : DispatchLocals}

/-- Speculative memory refuses an access in silence. -/
theorem specMemAccess_ok {b : Bool} {m : Mem} {cmd : MemCmd} {addr : Word} {p : List Byte} {nbytes : Nat}
    {table : Nat → List SpecMemEnt} (hSize : nbytes ∈ [1, 2, 4]) :
    ∃ r, specMemAccess ld b m cmd addr p nbytes table = .ok r := by
  have hSizes : nbytes ∈ [1, 2, 4, 8] ∧ min nbytes 4 = nbytes ∧ nbytes ≠ 8 := by
    simp only [List.mem_cons, List.not_mem_nil, or_false] at hSize ⊢
    omega
  unfold specMemAccess
  refine (em _).elim (fun h => ⟨_, if_pos h⟩) fun hAlign => ?_
  refine (em _).elim (fun h => ⟨_, (if_neg hAlign).trans (if_pos h)⟩) fun hPermitted => ?_
  rw [if_neg hAlign, if_neg hPermitted, if_neg (not_not.mpr hSizes.1)]
  dsimp only
  split
  · exact ⟨_, rfl⟩
  · exact ⟨_, rfl⟩
  · have hValid : memValid ld .read addr nbytes = .ok () :=
      memValid_ok_iff.mpr ⟨by simpa using hAlign, by simpa using hPermitted⟩
    rw [hSizes.2.1, hValid, if_neg hSizes.2.2]
    exact ⟨_, rfl⟩
  · split <;> exact ⟨_, rfl⟩

theorem readSpecMem_wrong_ok (t : LoadKind) (addr : Word) (x : Exec env) :
    ∃ r, readSpecMem cfg ld true t addr x = .ok r := by
  obtain ⟨r, hr⟩ : ∃ r, specMemAccess ld cfg.bugcompatMode x.arch.mem .read addr
      (split env.pf.bigEndian t.size (x.temps.get t)) t.size x.overlay.storeHtable = .ok r :=
    specMemAccess_ok (by cases t <;> decide)
  unfold readSpecMem
  dsimp only
  rw [if_pos rfl, hr]
  exact ⟨_, rfl⟩

theorem writeSpecMem_wrong_ok (t : StoreKind) (addr v : Word) (x : Exec env) :
    ∃ x', writeSpecMem cfg ld true t addr v x = .ok x' := by
  obtain ⟨r, hr⟩ : ∃ r, specMemAccess ld cfg.bugcompatMode x.arch.mem .write addr
      (split env.pf.bigEndian t.size ((x.temps.set (storeTemp t) v.toNat).get (storeTemp t))) t.size
      x.overlay.storeHtable = .ok r :=
    specMemAccess_ok (by cases t <;> decide)
  unfold writeSpecMem
  dsimp only
  rw [if_pos rfl, hr]
  exact ⟨_, rfl⟩

/-- On the wrong path an expression of `ss.def` that makes no system call is evaluated to its end,
unless C leaves it undefined. -/
theorem run_wrong_error : ∀ {m : Micro Unit}, Silent m → ∀ {x : Exec env} {err : Stop},
    run cfg ld true inst pc m x = .error err → err = .undefined := by
  intro m
  induction m with
  | ret a => intro _ x err h; cases h
  | get r k ih => intro hm x err h; exact ih _ (hm _) h
  | use r k ih => intro hm x err h; exact @ih hm (x.use r) err h
  | put r v k ih => intro hm x err h; exact @ih hm (x.putSpec r v) err h
  | cpc k ih => intro hm x err h; exact ih _ (hm _) h
  | setNpc v k ih => intro hm x err h; exact @ih hm { x with nextPC := v } err h
  | setTpc v k ih => intro hm x err h; exact @ih hm { x with targetPC := v } err h
  | load t addr k ih =>
    intro hm x err h
    obtain ⟨r, hr⟩ : ∃ r, readSpecMem cfg ld true t addr x = .ok r := readSpecMem_wrong_ok t addr x
    rw [run, hr] at h
    exact ih _ (hm _) h
  | store t addr v k ih =>
    intro hm x err h
    obtain ⟨x', hx⟩ : ∃ x', writeSpecMem cfg ld true t addr v x = .ok x' := writeSpecMem_wrong_ok t addr v x
    rw [run, hx] at h
    exact ih hm h
  | ifail msg k ih => intro hm x err h; exact ih hm h
  | syscall k ih => intro hm; exact hm.elim
  | undefined => intro _ x err h; cases h; rfl

variable {op : Opcode} {err : Stop}

theorem execInst_wrong_error (hOn : s.specMode = true)
    (hTrap : op.has F.trap = false) (h : execInst cfg ld inst op d s = .error err) : err = .undefined := by
  unfold execInst at h
  rw [hOn] at h
  exact run_wrong_error (Opcode.expr_silent_of_not_trap (Engine.outorder_silent _ _ _) inst hTrap) h

/-- C leaves the computation undefined, or a consistency check stops it. -/
def Quits (e : Stop) : Prop := e = .undefined ∨ ∃ c, e = .check c

theorem rslinkNew_quits {α : Type} (rs : Ref) (a : α) (s : State env) :
    Meets (rslinkNew rs a s) (fun _ => True) Quits := by
  unfold rslinkNew
  split
  · exact .inr ⟨_, rfl⟩
  · trivial

theorem readyqEnqueue_quits (rs : Ref) (s : State env) :
    Meets (readyqEnqueue rs s) (fun _ => True) Quits := by
  unfold readyqEnqueue
  split
  · exact .inr ⟨_, rfl⟩
  · exact (rslinkNew_quits _ _ _).bind fun _ _ => trivial

theorem enqueueIf_quits (ready : Bool) (rs : Ref) (s : State env) :
    Meets (enqueueIf ready rs s) (fun _ => True) Quits := by
  unfold enqueueIf
  split
  · exact readyqEnqueue_quits rs s
  · trivial

theorem ruuLinkIdep_quits (rs : Ref) (k : Fin 3) (n : Nat) (s : State env) :
    Meets (ruuLinkIdep rs k n s) (fun _ => True) Quits := by
  unfold ruuLinkIdep
  split
  · trivial
  split
  · exact .inl rfl
  split
  · trivial
  · exact (rslinkNew_quits _ _ _).bind fun _ _ => trivial

theorem ruuInstallOdep_quits (rs : Ref) (k : Fin 2) (n : Nat) (s : State env) :
    Meets (ruuInstallOdep rs k n s) (fun _ => True) Quits := by
  unfold ruuInstallOdep
  split
  · trivial
  split
  · exact .inl rfl
  · trivial

theorem linkStation_quits (rs : Ref) (in1 in2 in3 out1 out2 : Nat) (s : State env) :
    Meets (linkStation rs in1 in2 in3 out1 out2 s) (fun _ => True) Quits :=
  (ruuLinkIdep_quits _ _ _ _).bind fun _ _ => (ruuLinkIdep_quits _ _ _ _).bind fun _ _ =>
    (ruuLinkIdep_quits _ _ _ _).bind fun _ _ => (ruuInstallOdep_quits _ _ _ _).bind fun _ _ =>
      ruuInstallOdep_quits _ _ _ _

theorem alloc_quits (i : Insn env) (s : State env) : Meets (alloc cfg i s) (fun _ => True) Quits := by
  unfold alloc
  split
  · trivial
  split
  · exact (linkStation_quits _ _ _ _ _ _ _).bind fun _ _ => (linkStation_quits _ _ _ _ _ _ _).bind fun _ _ =>
      (enqueueIf_quits _ _ _).bind fun _ _ => enqueueIf_quits _ _ _
  · refine (linkStation_quits _ _ _ _ _ _ _).bind fun _ _ => ?_
    dsimp only
    split
    · exact (readyqEnqueue_quits _ _).bind fun _ _ => trivial
    · trivial

theorem dispatchInst_quits {fetched : FetchRec env} (h : Base cfg {} s)
    (hOn : s.specMode = true) (hRuu : s.ruuNum < cfg.ruuSize) (hLsq : s.lsqNum < cfg.lsqSize)
    (hTrap : op.has F.trap = false) :
    Meets (dispatchInst cfg ld fetched op d s) (fun _ => True) Quits := by
  have hExec : Meets (execInst cfg ld fetched.IR op d s) (fun _ => True) Quits :=
    meets_iff.mpr ⟨fun _ _ => trivial, fun _ he => .inl (execInst_wrong_error hOn hTrap he)⟩
  refine hExec.bind fun x _ => ?_
  obtain ⟨s₁, hs₁⟩ : ∃ s₁, s₁ = executed cfg (dispatchOp op) x s := ⟨_, rfl⟩
  have hRob : s₁.rob = s.rob := by rw [hs₁]; exact executed_rob _ _
  have hBase : Base cfg {} s₁ := by rw [hs₁]; exact h.executed _ _
  have hOn₁ : s₁.front.specMode = true := by
    rw [hs₁, (executed_state s (dispatchOp op) x).2.2.2.2.1]
    exact hOn
  have hAlloc : ∀ i : Insn env, Meets (alloc cfg i s₁) (fun s₂ => s₂.specMode = true) Quits := by
    intro i
    refine meets_iff.mpr ⟨fun s₂ hs₂ => ?_, fun _ he => (alloc_quits i s₁).of_error he⟩
    have hKeeps : Keeps AnyCheck (alloc cfg i s₁) _ := alloc_base trivial hBase
      ((congrArg Rob.ruuNum hRob).trans_lt hRuu) ((congrArg Rob.lsqNum hRob).trans_lt hLsq) i
    exact (congrArg Front.specMode (hKeeps.of_ok hs₂).2.1).trans hOn₁
  unfold executed at hs₁
  dsimp only
  rw [← hs₁]
  refine (hAlloc _).bind fun s₂ hs₂ => ?_
  unfold traceIf
  rw [if_pos hs₂]
  trivial

/-- An instruction of the wrong path stops the simulator only when the link records have run out,
or where C leaves its expression undefined. -/
theorem dispatchOne_wrong (h : Base cfg {} s) (hOn : s.specMode = true)
    (hRun : dispatchOne cfg ld d s = .error err) : err = .undefined ∨ err = .check .outOfRsLinks := by
  have hStops : Keeps (.outOfRsLinks = ·) (dispatchOne cfg ld d s) _ := dispatchOne_base rfl h d
  have hQuits : Meets (dispatchOne cfg ld d s) (fun _ => True) Quits := by
    unfold dispatchOne
    split
    · trivial
    rename_i hGo
    obtain ⟨hGuard, -⟩ : dispatchGuard cfg d s = true ∧ stalls cfg s = false := by simpa using hGo
    simp only [dispatchGuard, Bool.and_eq_true, decide_eq_true_eq] at hGuard
    obtain ⟨⟨⟨⟨-, hRuu⟩, hLsq⟩, -⟩, -⟩ := hGuard
    dsimp only
    split
    · exact .inl rfl
    rename_i op hOp
    split
    · trivial
    split
    · exact .inr ⟨_, rfl⟩
    rename_i hTrap
    rw [hOn, Bool.and_true, Bool.not_eq_true] at hTrap
    have hHead : Base cfg {} (atHead s) := { h with }
    exact (dispatchInst_quits hHead hOn hRuu hLsq hTrap).bind fun _ _ => trivial
  rcases hQuits.of_error hRun with rfl | ⟨c, rfl⟩
  · exact .inl rfl
  · rw [hRun] at hStops
    exact .inr (congrArg Stop.check (stops_check.mp hStops).symm)

end

/-! ### Two runs -/

variable {st₀ st : Safe.State env.pf}

variable {tr : List (TraceRec env)}

section

variable {pf : Platform} {ld : Segments} {src : Nat → Word → Inst}

/-- One instruction on the architected state. -/
def execute (pf : Platform) (ld : Segments) (inst : Inst) (st : Safe.State pf) :
    Except Stop (Safe.State pf) :=
  match inst.decode with
  | none => .error .undefined
  | some op => do
    let x ← Safe.run pf ld inst st.regsPC (op.expr (Engine.outorder pf.fpu 0 pf.bigEndian) inst)
      ⟨st.arch.zeroR0, st.host, 0, st.regsPC + 8⟩
    return ⟨x.arch, x.host, x.nextPC, x.nextPC + 8⟩

/-- `n` instructions, the one with number `i` being `src i` of its address. -/
def replay (pf : Platform) (ld : Segments) (src : Nat → Word → Inst) (st : Safe.State pf) :
    Nat → Except Stop (Safe.State pf)
  | 0 => .ok st
  | n + 1 => do
    let st ← replay pf ld src st n
    execute pf ld (src n st.regsPC) st

theorem Runs.execute {st : Safe.State env.pf} {r : TraceRec env} (h : Runs ld st r) :
    execute env.pf ld r.IR st = .ok r.next := by
  obtain ⟨op, addr, hOp, hRun⟩ := h.run
  rw [h.PC, h.before, h.hostBefore] at hRun
  unfold Outorder.execute
  rw [hOp]
  exact congrArg (· >>= _) hRun

/-- The trace is a replay of its own instructions. -/
theorem Sequential.replay
    (h : Sequential ld st₀ tr st) (hSrc : ∀ i r, tr[i]? = some r → r.IR = src i r.PC) :
    replay env.pf ld src st₀ tr.length = .ok st := by
  induction h with
  | nil => rfl
  | @snoc tr st r _ hr ih =>
    have hPrev := ih fun i r hr => hSrc i r (by
      rw [List.getElem?_append_left (List.getElem?_eq_some_iff.mp hr).1, hr])
    rw [List.length_append]
    show (Outorder.replay env.pf ld src st₀ tr.length >>= _) = _
    rw [hPrev]
    show Outorder.execute env.pf ld (src tr.length st.regsPC) st = _
    rw [← hr.PC, ← hSrc tr.length r List.getElem?_concat_length]
    exact hr.execute

/-- The architected state that a trace stands for. -/
theorem Follows.replay (h : Follows cfg img s.front)
    (hSrc : ∀ i r, s.trace[i]? = some r → r.IR = src i r.PC) :
    ∃ st, replay env.pf img.ld src (Safe.init env.pf img env.host) s.trace.length = .ok st ∧
      st.arch.zeroR0 = s.arch.zeroR0 ∧ st.host = s.host := by
  obtain ⟨st, hSeq, hArch, hHost, -⟩ := h.now
  exact ⟨st, hSeq.replay hSrc, hArch, hHost⟩

end

/-- The environment with another platform and host. -/
def Env.on (e : Env) (pf : Platform) (host : pf.Host) : Env := { e with pf := pf, host := host }

section

variable {e e' : Env} {pf : Platform} {host : pf.Host} {cfg' : Config}

variable {s : State (e.on pf host)} {s' : State (e'.on pf host)}

theorem same_of_src (h : Reachable cfg img s)
    (h' : Reachable cfg' img s') (hLen : s.trace.length = s'.trace.length) (src : Nat → Word → Inst)
    (hSrc : ∀ i r, s.trace[i]? = some r → r.IR = src i r.PC)
    (hSrc' : ∀ i r, s'.trace[i]? = some r → r.IR = src i r.PC) :
    SameState s.arch s'.arch ∧ s'.host = s.host := by
  obtain ⟨st, hRun, hArch, hHost⟩ := (follows_reachable h).replay hSrc
  obtain ⟨st', hRun', hArch', hHost'⟩ := (follows_reachable h').replay hSrc'
  have hRun : replay pf img.ld src (Safe.init pf img host) s.trace.length = .ok st := hRun
  have hRun' : replay pf img.ld src (Safe.init pf img host) s'.trace.length = .ok st' := hRun'
  rw [hLen, hRun'] at hRun
  cases hRun
  exact ⟨.of_zeroR0 (hArch'.symm.trans hArch), hHost'.symm.trans hHost⟩

/-- The correct paths are the same: the same instructions, or, where no store can reach the text
segment, just as many of them. -/
def SamePath (img : Image) (s : State (e.on pf host)) (s' : State (e'.on pf host)) : Prop :=
  s.trace.map TraceRec.IR = s'.trace.map TraceRec.IR ∨
    (∀ pc, Fixed img.ld pc) ∧ s.trace.length = s'.trace.length

theorem SamePath.same (hPath : SamePath img s s')
    (h : Reachable cfg img s) (h' : Reachable cfg' img s') :
    SameState s.arch s'.arch ∧ s'.host = s.host := by
  rcases hPath with hIR | ⟨hFixed, hLen⟩
  · have hLen : s.trace.length = s'.trace.length := by simpa using congrArg List.length hIR
    refine same_of_src h h' hLen (fun i _ => (s.trace.map TraceRec.IR).getD i ssNopInst)
      (fun i r hr => ?_) fun i r hr => ?_
    · simp [hr]
    · rw [hIR]
      simp [hr]
  · refine same_of_src h h' hLen (fun _ pc => instAt pf img.ld img.arch.mem pc) (fun i r hr => ?_)
      fun i r hr => ?_
    · exact (follows_reachable h).trace r (List.mem_of_getElem? hr) (hFixed _)
    · exact (follows_reachable h').trace r (List.mem_of_getElem? hr) (hFixed _)

end

/-! ### The result -/

variable {ld : Segments}

theorem Sequential.last
    {b : TraceRec env} (h : Sequential ld st₀ (tr ++ [b]) st) : st = b.next := by
  generalize hAll : tr ++ [b] = all at h
  cases h with
  | nil => simp at hAll
  | snoc =>
    obtain ⟨-, hLast⟩ := List.append_inj' hAll rfl
    cases hLast
    rfl

/-- The instruction after `b` finds the state that `b` has left. -/
theorem Sequential.after {tr rest : List (TraceRec env)}
    {b r : TraceRec env} (h : Sequential ld st₀ ((tr ++ [b]) ++ r :: rest) st) : Runs ld b.next r := by
  obtain ⟨st₁, hTake, hRuns, -⟩ := h.take (i := (tr ++ [b]).length) (r := r) (by simp)
  rw [List.take_left] at hTake
  rw [hTake.last] at hRuns
  exact hRuns

/-- In mis-speculation mode the last instruction of the trace is the mis-predicted one, and the
architected state is what it has left. -/
theorem Follows.last (h : Follows cfg img s.front) (hOn : s.specMode = true) :
    ∃ tr b, s.trace = tr ++ [b] ∧ s.recoverPC = b.nextPC ∧ SameState b.after s.arch ∧
      s.host = b.hostAfter := by
  obtain ⟨st, hSeq, hArch, hHost, hPC⟩ := h.now
  rw [if_pos (show s.front.specMode = true from hOn)] at hPC
  obtain ⟨tr, b, hTrace⟩ : ∃ tr b, s.trace = tr ++ [b] :=
    ⟨_, _, (List.dropLast_append_getLast (h.mode hOn)).symm⟩
  rw [show s.front.trace = tr ++ [b] from hTrace] at hSeq
  rw [hSeq.last] at hArch hHost hPC
  exact ⟨tr, b, hTrace, hPC, .of_zeroR0 hArch.symm, hHost.symm⟩

/-- **The wrong path is isolated.**  In mis-speculation mode the architected registers and memory
stay as the mis-predicted branch has left them until the recovery is done, and the next instruction
of the correct path finds them so.  Executing an instruction of the wrong path calls neither `fatal`
nor `panic`; its dispatch can run out of link records.  Runs with the same correct path have the same
architected state, whatever their wrong paths. -/
theorem speculation_isolated {e : Env} {pf : Platform} {host : pf.Host} {s : State (e.on pf host)}
    (h : Reachable cfg img s) :
    (s.specMode = true →
      (∀ s', WrongPath cfg img s s' → SameState s.arch s'.arch ∧ s'.host = s.host ∧ s'.trace = s.trace) ∧
      ∃ tr b, s.trace = tr ++ [b] ∧ s.recoverPC = b.nextPC ∧ SameState b.after s.arch ∧
        s.host = b.hostAfter ∧ ∀ s', Reachable cfg img s' → ∀ r rest, s'.trace = s.trace ++ r :: rest →
          Runs img.ld b.next r) ∧
    (∀ d (s₁ : State (e.on pf host)), Dispatching cfg img d s₁ → s₁.specMode = true →
      (∀ inst op err, op.has F.trap = false → execInst cfg img.ld inst op d s₁ = .error err →
        err = .undefined) ∧
      ∀ err, dispatchOne cfg img.ld d s₁ = .error err → err = .undefined ∨ err = .check .outOfRsLinks) ∧
    ∀ (e' : Env) (cfg' : Config) (s' : State (e'.on pf host)), Reachable cfg' img s' → SamePath img s s' →
      SameState s.arch s'.arch ∧ s'.host = s.host := by
  have hFollows := follows_reachable h
  refine ⟨fun hOn => ⟨fun s' hPath => ?_, ?_⟩, fun d s₁ hs₁ hOn => ⟨?_, ?_⟩, ?_⟩
  · obtain ⟨-, hArch, hHost, hTrace⟩ := hPath.kept h
    exact ⟨.of_zeroR0 hArch, hHost, hTrace⟩
  · obtain ⟨tr, b, hTrace, hPC, hArch, hHost⟩ := hFollows.last hOn
    refine ⟨tr, b, hTrace, hPC, hArch, hHost, fun s' h' r rest hTrace' => ?_⟩
    obtain ⟨st, hSeq, -⟩ := (follows_reachable h').now
    rw [show s'.front.trace = s.trace ++ r :: rest from hTrace', hTrace] at hSeq
    exact hSeq.after
  · exact fun inst op err hTrap hExec => execInst_wrong_error hOn hTrap hExec
  · exact fun err hRun => dispatchOne_wrong hs₁.base hOn hRun
  · exact fun e' cfg' s' h' hPath => hPath.same h h'

/-- After two cycles the branch has been found mis-predicted, and the load behind it is on the wrong
path. -/
theorem speculation_isolated_missedBranch : ∃ s : State Env.bare,
    simMain Config.notTaken missedBranch 2 = .ok s ∧ s.specMode = true ∧
      ∃ tr b, s.trace = tr ++ [b] ∧ SameState b.after s.arch := by
  obtain ⟨s, hs, hOn⟩ : ∃ s : State Env.bare, simMain Config.notTaken missedBranch 2 = .ok s ∧
      s.specMode = true := exists_ok_of_any (by decide +kernel)
  obtain ⟨-, tr, b, hTrace, -, hArch, -⟩ := (@speculation_isolated Config.notTaken missedBranch Env.bare
    Platform.bare () s (reach_reachable (reach_simMain hs))).1 hOn
  exact ⟨s, hs, hOn, tr, b, hTrace, hArch⟩

end SimpleScalar.Outorder

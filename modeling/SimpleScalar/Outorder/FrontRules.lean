import SimpleScalar.Outorder.Rules
import SimpleScalar.Isa.Quiet

/-!
# Rules for dispatch and fetch

What `ruu_dispatch` and `ruu_fetch` can do, step by step, in the form of rules for
`Keeps`: a proof about a loop names its invariant and is left with one obligation for
each thing that the loop can do.

* `execInst_keeps`: execution stops with no consistency check of the pipeline.
* `dispatchInst_keeps`, `dispatchOne_keeps`, `ruuDispatchLoop_keeps`
* `fetchInst_keeps`, `fetchNext_keeps`, `fetchStage_keeps`
-/

namespace SimpleScalar.Outorder

open Outcome

variable {env : Env} {cfg : Config} {s : State env} {A : Check → Prop}

/-! ### Execution stops with no consistency check -/

variable {ld : Segments} {addr : Word}

variable {cmd : MemCmd} {n : Nat}

variable {p : List Byte} {m : Mem}

theorem memAccess_keeps : Keeps A (memAccess ld cmd addr p n m) fun _ => True := by
  refine keeps_ite (fun _ => keeps_error (by simp)) fun _ => ?_
  refine keeps_ite (fun _ => keeps_error (by simp)) fun _ => ?_
  cases cmd <;> exact trivial

theorem memValid_keeps :
    Keeps A (memValid ld cmd addr n) fun _ => True := by
  refine keeps_ite (fun _ => keeps_error (by simp)) fun _ => ?_
  exact keeps_ite (fun _ => keeps_error (by simp)) fun _ => trivial

theorem applyWrites_keeps : ∀ {ws : List (Word × List Byte)} {m : Mem},
    Keeps A (applyWrites ld ws m) fun _ => True := by
  intro ws
  induction ws with
  | nil => intro m; exact trivial
  | cons w ws ih => intro m; exact Keeps.bind memAccess_keeps fun _ _ => ih

variable {inst : Inst}

theorem ssSyscall_keeps {pf : Platform} {host : pf.Host} {a : Arch} :
    Keeps A (ssSyscall pf ld inst host a) fun _ => True := by
  unfold ssSyscall
  split
  · rename_i e _
    cases e <;> exact keeps_error (by simp [HostStop.toStop])
  · exact Keeps.bind applyWrites_keeps fun _ _ => trivial

theorem specMemAccess_keeps {bugcompat : Bool} {t : Nat → List SpecMemEnt} :
    Keeps A (specMemAccess ld bugcompat m cmd addr p n t) fun _ => True := by
  unfold specMemAccess
  refine keeps_ite (fun _ => trivial) fun _ => ?_
  refine keeps_ite (fun _ => trivial) fun _ => ?_
  refine keeps_ite (fun _ => keeps_error (by simp)) fun _ => ?_
  cases hFind : findEnt addr (t (hashAddr addr)) with
  | some e => cases cmd <;> simp only [hFind] <;> exact trivial
  | none =>
    simp only [hFind]
    cases cmd with
    | read =>
      refine Keeps.bind memValid_keeps fun _ _ => ?_
      refine keeps_ite (fun _ => ?_) fun _ => trivial
      exact Keeps.bind memValid_keeps fun _ _ => trivial
    | write => exact keeps_ite (fun _ => trivial) fun _ => trivial

section

variable {ld : Segments} {specMode : Bool} {inst : Inst} {regsPC : Word}

variable {x : Exec env}

theorem readSpecMem_keeps {t : LoadKind} :
    Keeps A (readSpecMem cfg ld specMode t addr x) fun _ => True := by
  refine keeps_ite (fun _ => ?_) fun _ => ?_
  · exact Keeps.bind specMemAccess_keeps fun _ _ => trivial
  · exact Keeps.bind memAccess_keeps fun _ _ => trivial

theorem writeSpecMem_keeps {t : StoreKind} {addr v : Word} :
    Keeps A (writeSpecMem cfg ld specMode t addr v x) fun _ => True := by
  refine keeps_ite (fun _ => ?_) fun _ => ?_
  · exact Keeps.bind specMemAccess_keeps fun _ _ => trivial
  · exact Keeps.bind memAccess_keeps fun _ _ => trivial

/-- In mis-speculation mode the only check on the way is the one against system calls. -/
theorem run_keeps : ∀ {m : Micro Unit} {x : Exec env}, (specMode = true → Silent m) →
    Keeps A (run cfg ld specMode inst regsPC m x) fun _ => True := by
  intro m
  induction m with
  | ret a => intro x _; exact trivial
  | get r k ih => intro x h; exact ih _ fun hs => h hs _
  | use r k ih => intro x h; exact keeps_ite (fun _ => ih h) fun _ => ih h
  | put r v k ih => intro x h; exact keeps_ite (fun _ => ih h) fun _ => ih h
  | cpc k ih => intro x h; exact ih _ fun hs => h hs _
  | setNpc v k ih => intro x h; exact ih h
  | setTpc v k ih => intro x h; exact ih h
  | load t addr k ih =>
    intro x h
    exact Keeps.bind readSpecMem_keeps fun _ _ => ih _ fun hs => h hs _
  | store t addr v k ih => intro x h; exact Keeps.bind writeSpecMem_keeps fun _ _ => ih h
  | ifail msg k ih => intro x h; exact keeps_ite (fun _ => ih h) fun _ => keeps_error (by simp)
  | syscall k ih =>
    intro x h
    refine keeps_ite (fun hs => (h hs).elim) fun hs => ?_
    exact Keeps.bind ssSyscall_keeps fun _ _ => ih fun hs' => absurd hs' hs
  | undefined => intro x _; exact keeps_error (by simp)

end

variable {d : DispatchLocals}

variable {op : Opcode}

theorem execInst_keeps (h : s.specMode = true → op.has F.trap = false) :
    Keeps A (execInst cfg ld inst op d s) fun _ => True :=
  run_keeps fun hs =>
    Opcode.expr_silent_of_not_trap (Engine.outorder_silent _ _ _) inst (h hs)

/-! ### The dispatch loop -/

section

variable {ld : Segments}

/-- `regs_PC` and `pred_PC` are those of the instruction at the head of the fetch queue. -/
def atHead (s : State env) : State env :=
  { s with
    regsPC := (s.fetchData s.fetchHead).regsPC
    predPC := (s.fetchData s.fetchHead).predPC }

/-- The architected state after execution, and fetch redirected if that is called for. -/
def executed (cfg : Config) (op : Opcode) (x : Exec env) (s : State env) : State env :=
  if redirects cfg op x { s with arch := x.arch, host := x.host, overlay := x.overlay } then
    redirect cfg x.nextPC { s with arch := x.arch, host := x.host, overlay := x.overlay }
  else { s with arch := x.arch, host := x.host, overlay := x.overlay }

/-- An instruction is executed, allocated and recorded. -/
theorem dispatchInst_keeps {fetched : FetchRec env}
    {P : Exec env → Prop} {Q : DispatchLocals × State env → Prop}
    (hExec : Keeps A (execInst cfg ld fetched.IR op d s) P)
    (h : ∀ x, P x → ∀ s₁ redirected, s₁ = executed cfg (dispatchOp op) x s →
      redirected = (d.fetchRedirected || redirects cfg (dispatchOp op) x
        { s with arch := x.arch, host := x.host, overlay := x.overlay }) →
      Keeps A (alloc cfg ⟨fetched, dispatchOp op, x.nextPC, s₁.predPC, x.addr⟩ s₁) fun s₂ =>
        Keeps A (traceIf cfg
          ⟨s.regsPC, fetched.IR, x.nextPC, s.arch.zeroR0, s.host, x.arch, x.host⟩
          (if dispatchOp op = .nop then none else some (.ruu s₁.ruuTail)) redirected s₂) fun s₃ =>
            Q (⟨if dispatchOp op = .nop then d.nDispatched else d.nDispatched + 1, redirected,
              x.temps, x.targetPC⟩, consume cfg s₃)) :
    Keeps A (dispatchInst cfg ld fetched op d s) Q := by
  refine Keeps.bind hExec fun x hx => ?_
  exact Keeps.bind (h x hx _ _ rfl rfl) fun s₂ hs₂ => Keeps.bind hs₂ fun s₃ hs₃ => hs₃

theorem dispatchOne_keeps {Q : Option DispatchLocals × State env → Prop}
    (hStop : Q (none, s))
    (hHead : Q (none, atHead s))
    (hDrained : s.ruuNum = 0 → s.specMode = false)
    (hInst : ∀ op, s.ruuNum < cfg.ruuSize → s.lsqNum < cfg.lsqSize → s.fetchNum ≠ 0 →
      stalls cfg s = false → (s.fetchData s.fetchHead).IR.decode = some op →
      (op.has F.trap = true → s.ruuNum = 0) →
      Keeps A (dispatchInst cfg ld (s.fetchData s.fetchHead) op d (atHead s))
        fun p => Q (some p.1, p.2)) :
    Keeps A (dispatchOne cfg ld d s) Q := by
  refine keeps_ite (fun _ => hStop) fun hGo => ?_
  obtain ⟨hGuard, hGo⟩ : dispatchGuard cfg d s = true ∧ stalls cfg s = false := by simpa using hGo
  simp only [dispatchGuard, Bool.and_eq_true, decide_eq_true_eq] at hGuard
  obtain ⟨⟨⟨⟨_, hRuu⟩, hLsq⟩, hNum⟩, _⟩ := hGuard
  dsimp only
  split
  · exact keeps_error (by simp)
  · rename_i op hOp
    refine keeps_ite (fun _ => hHead) fun hWait => ?_
    have hTrap : op.has F.trap = true → s.ruuNum = 0 := by
      intro hTrap
      simpa [hTrap] using hWait
    refine keeps_ite (fun hBad => ?_) fun _ => ?_
    · rw [Bool.and_eq_true] at hBad
      exact absurd ((hDrained (hTrap hBad.1)).symm.trans hBad.2) (by decide)
    · exact Keeps.bind (hInst op hRuu hLsq hNum hGo hOp hTrap) fun p hp => hp

theorem ruuDispatchLoop_keeps {I : DispatchLocals → State env → Prop} {Q : State env → Prop}
    (hStop : ∀ d s, I d s → Q s)
    (hStep : ∀ d s, I d s → Keeps A (dispatchOne cfg ld d s) fun p =>
      match p.1 with
      | none => Q p.2
      | some d => I d p.2) :
    ∀ (n : Nat) {d : DispatchLocals} {s : State env}, I d s →
      Keeps A (ruuDispatchLoop cfg ld n d s) Q := by
  intro n
  induction n with
  | zero => intro d s h; exact hStop d s h
  | succ n ih =>
    intro d s h
    refine Keeps.bind (hStep d s h) fun p hp => ?_
    obtain ⟨_ | d', s'⟩ := p
    · exact hp
    · exact ih hp

/-! ### Fetch -/

/-- The instruction that fetch reads at an address: a NOP where there is no text. -/
def instAt (pf : Platform) (ld : Segments) (m : Mem) (pc : Word) : Inst :=
  if fetchable ld pc then Inst.ofBytes pf.bigEndian (m.bytes pc 8) else ssNopInst

variable {pc : Word} {Q : Int × State env → Prop}

theorem il1Latency_keeps
    (hOk : ∀ lat caches, Accessed env s.simCycle s.caches caches →
      Q (lat, { s with caches := caches })) :
    Keeps A (il1Latency cfg pc s) Q := by
  refine keeps_ite (fun _ => ?_) fun _ => hOk _ s.caches (.refl _)
  exact Keeps.bind (cacheAccess_keeps (Q := fun r => Q (r.1.toInt, r.2))
    fun lat caches hRun => hOk lat.toInt caches (.step (.refl _) hRun)) fun _ h => keeps_ok h

theorem fetchLatency_keeps
    (hOk : ∀ lat caches, Accessed env s.simCycle s.caches caches →
      Q (lat, { s with caches := caches })) :
    Keeps A (fetchLatency cfg pc s) Q := by
  refine Keeps.bind (il1Latency_keeps (Q := fun r => ∃ caches,
    Accessed env s.simCycle s.caches caches ∧ r.2 = { s with caches := caches })
    fun _ caches hAcc => ⟨caches, hAcc, rfl⟩) ?_
  rintro ⟨lat, _⟩ ⟨caches, hAcc, rfl⟩
  refine keeps_ite (fun _ => ?_) fun _ => hOk lat caches hAcc
  exact Keeps.bind (cacheAccess_keeps (Q := fun r => Q (max r.1.toInt lat, r.2))
    fun tlb caches hRun => hOk (max tlb.toInt lat) caches (.step hAcc hRun)) fun _ h => keeps_ok h

theorem fetchInst_keeps {Q : Option Inst × State env → Prop}
    (hMiss : ∀ caches delay, Accessed env s.simCycle s.caches caches →
      Q (none, { s with caches := caches, ruuFetchIssueDelay := delay }))
    (hHit : ∀ caches, Accessed env s.simCycle s.caches caches →
      Q (some (instAt env.pf ld s.arch.mem s.fetchRegsPC), { s with caches := caches })) :
    Keeps A (fetchInst cfg ld s) Q := by
  refine keeps_ite (fun hText => ?_) fun hText => ?_
  · have hRead : Keeps A (memAccess ld .read s.fetchRegsPC (List.replicate 8 0) 8 s.arch.mem)
        fun r => r = (s.arch.mem.bytes s.fetchRegsPC 8, s.arch.mem) := by
      cases hRun : memAccess ld .read s.fetchRegsPC (List.replicate 8 0) 8 s.arch.mem with
      | ok r => exact memAccess_read_ok hRun
      | error e =>
        have hKeeps : Keeps A (memAccess ld .read s.fetchRegsPC (List.replicate 8 0) 8 s.arch.mem)
          fun _ => True := memAccess_keeps
        rw [hRun] at hKeeps
        exact hKeeps
    refine Keeps.bind hRead ?_
    rintro _ rfl
    refine Keeps.bind (fetchLatency_keeps
      (Q := fun r => ∃ caches, Accessed env s.simCycle s.caches caches ∧
        r.2 = { s with caches := caches }) fun _ caches hAcc => ⟨caches, hAcc, rfl⟩) ?_
    rintro ⟨lat, _⟩ ⟨caches, hAcc, rfl⟩
    refine keeps_ite (fun _ => hMiss _ _ hAcc) fun _ => ?_
    have hQ := hHit caches hAcc
    rw [instAt, if_pos hText] at hQ
    exact hQ
  · have hQ := hHit s.caches (.refl _)
    rw [instAt, if_neg hText] at hQ
    exact hQ

/-- The next address is predicted; the record at the tail takes the update information. -/
theorem fetchNext_keeps {idx : Word} {Q : Bool × Word × State env → Prop}
    (hOk : ∀ taken idx pred dir pc, Q (taken, idx, { s with
      pred := pred
      fetchData := Function.update s.fetchData s.fetchTail
        { s.fetchData s.fetchTail with dirUpdate := dir }
      fetchPredPC := pc })) :
    Keeps A (fetchNext cfg inst idx s) Q := by
  have hSame : ∀ taken idx pc, Q (taken, idx, { s with fetchPredPC := pc }) := by
    intro taken idx pc
    have hQ := hOk taken idx s.pred (s.fetchData s.fetchTail).dirUpdate pc
    rwa [Function.update_eq_self] at hQ
  refine keeps_ite (fun _ => ?_) fun _ => hSame _ _ _
  refine Keeps.bind (Q := fun r => ∀ taken pc, Q (taken, r.2.1, { r.2.2 with fetchPredPC := pc }))
    ?_ ?_
  · unfold fetchPredict
    split
    · exact keeps_error (by simp)
    · refine keeps_ite (fun _ => ?_) fun _ taken pc => hSame taken idx pc
      refine Keeps.bind (component_keeps (Q := fun _ => True) fun _ _ => trivial) ?_
      rintro ⟨pc, dir, idx', pred⟩ _
      exact fun taken pc => hOk taken idx' pred dir pc
  · rintro ⟨pc, idx', s'⟩ hs'
    exact keeps_ite (fun _ => hs' _ _) fun _ => hs' _ _

/-- An instruction has been appended to the fetch queue. -/
def fetched (cfg : Config) (r : FetchRec env) (pred : env.Pred) (caches : env.Caches)
    (s : State env) : State env :=
  { s with
    fetchRegsPC := r.regsPC
    fetchPredPC := r.predPC
    pred := pred
    caches := caches
    fetchData := Function.update s.fetchData s.fetchTail r
    fetchTail := (s.fetchTail + 1) &&& (cfg.ruuIfqSize - 1)
    fetchNum := s.fetchNum + 1 }

variable {I : State env → Prop}

theorem ruuFetchLoop_keeps
    (hMiss : ∀ s caches delay, I s → Accessed env s.simCycle s.caches caches → I { s with
      fetchRegsPC := s.fetchPredPC, caches := caches, ruuFetchIssueDelay := delay })
    (hPush : ∀ s r pred caches, I s → Accessed env s.simCycle s.caches caches →
      s.fetchNum < cfg.ruuIfqSize → r.regsPC = s.fetchPredPC →
      r.IR = instAt env.pf ld s.arch.mem s.fetchPredPC → I (fetched cfg r pred caches s)) :
    ∀ (n : Nat) {branchCnt : Nat} {idx : Word} {s : State env}, I s →
      Keeps A (ruuFetchLoop cfg ld n branchCnt idx s) I := by
  intro n
  induction n with
  | zero => intro branchCnt idx s h; exact h
  | succ n ih =>
    intro branchCnt idx s h
    refine keeps_ite (fun hRoom => ?_) fun _ => h
    refine Keeps.bind (fetchInst_keeps (Q := fun p => match p.1 with
      | none => I p.2
      | some inst => inst = instAt env.pf ld s.arch.mem s.fetchPredPC ∧ ∃ caches,
          Accessed env s.simCycle s.caches caches ∧
          p.2 = { s with fetchRegsPC := s.fetchPredPC, caches := caches })
      (fun caches delay hAcc => hMiss s caches delay h hAcc)
      fun caches hAcc => ⟨rfl, caches, hAcc, rfl⟩) ?_
    rintro ⟨_ | inst, s₁⟩ hs₁
    · exact hs₁
    · obtain ⟨hInst, caches, hAcc, hs₁⟩ := hs₁
      refine Keeps.bind (fetchNext_keeps (Q := fun p => ∃ pred dir pc, p.2.2 = { s₁ with
        pred := pred
        fetchData := Function.update s₁.fetchData s₁.fetchTail
          { s₁.fetchData s₁.fetchTail with dirUpdate := dir }
        fetchPredPC := pc }) fun _ _ pred dir pc => ⟨pred, dir, pc, rfl⟩) ?_
      rintro ⟨taken, idx', s₂⟩ ⟨pred, dir, pc, hs₂⟩
      have hI : I (fetchPush cfg inst idx' s₂) := by
        dsimp only at hs₁ hs₂
        have hQ := hPush s ⟨inst, s.fetchPredPC, pc, dir, idx'⟩ pred caches h hAcc hRoom rfl hInst
        rw [hs₂, hs₁]
        unfold fetchPush
        dsimp only
        rw [Function.update_self, Function.update_idem]
        exact hQ
      exact keeps_ite (fun _ => hI) fun _ => ih hI

/-- A fetch cycle with any invariant: it is blocked, it misses in the cache, or it appends
instructions to the fetch queue. -/
theorem fetchStage_keeps (h : I s)
    (hDelay : ∀ s delay, I s → I { s with ruuFetchIssueDelay := delay })
    (hMiss : ∀ s caches delay, I s → Accessed env s.simCycle s.caches caches → I { s with
      fetchRegsPC := s.fetchPredPC, caches := caches, ruuFetchIssueDelay := delay })
    (hPush : ∀ s r pred caches, I s → Accessed env s.simCycle s.caches caches →
      s.fetchNum < cfg.ruuIfqSize → r.regsPC = s.fetchPredPC →
      r.IR = instAt env.pf ld s.arch.mem s.fetchPredPC → I (fetched cfg r pred caches s)) :
    Keeps A (fetchStage cfg ld s) I :=
  keeps_ite (fun _ => ruuFetchLoop_keeps hMiss hPush _ h) fun _ => hDelay _ _ h

end

end SimpleScalar.Outorder

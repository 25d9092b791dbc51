import SimpleScalar.Outorder.Main

/-!
# Rules for the helper functions

For each helper of the pipeline, what it can do to the state, as a named state
transformer, and a rule that lists its outcomes: a property of a call is proved by
checking it for each transformer and for each check that may fire.  For each loop,
the rule that carries an invariant through it.  Proofs about the stages use these
rules and never unfold a helper.

`Keeps A x Q` says that `x` ends in a state with `Q`, and that of the consistency
checks only those in `A` can stop it.
-/

namespace SimpleScalar.Outorder

open Outcome

variable {env : Env} {cfg : Config} {A : Check → Prop} {Q : State env → Prop} {rs : Ref}
  {s : State env}

/-- Of the consistency checks, only those in `A` stop the run. -/
def Stops (A : Check → Prop) (e : Stop) : Prop := ∀ c, e = .check c → A c

def Keeps (A : Check → Prop) {α : Type} (x : Except Stop α) (Q : α → Prop) : Prop :=
  Meets x Q (Stops A)

section

variable {α β : Type} {B : Check → Prop} {c : Check} {x y : Except Stop α} {Q Q' : α → Prop}

@[simp] theorem stops_check : Stops A (.check c) ↔ A c := by
  simp [Stops]

theorem keeps_check (h : A c) : Keeps A (.error (.check c) : Except Stop α) Q :=
  stops_check.mpr h

theorem Keeps.bind {f : α → Except Stop β} {R : β → Prop} (hx : Keeps A x Q)
    (hf : ∀ a, Q a → Keeps A (f a) R) : Keeps A (x >>= f) R :=
  Meets.bind hx hf

theorem Keeps.mono (h : Keeps A x Q) (hq : ∀ a, Q a → Q' a) : Keeps A x Q' :=
  Meets.mono h hq fun _ he => he

theorem Keeps.weaken (h : Keeps A x Q) (hA : ∀ c, A c → B c) : Keeps B x Q :=
  Meets.mono h (fun _ ha => ha) fun _ he c hc => hA c (he c hc)

/-- Two results about one computation. -/
theorem Keeps.and (h : Keeps B x Q) (h' : Keeps A x Q') : Keeps A x fun a => Q a ∧ Q' a := by
  cases x with
  | ok a => exact ⟨h, h'⟩
  | error e => exact h'

theorem Keeps.not_check (h : Keeps A x Q) (hc : ¬ A c) : x ≠ .error (.check c) := by
  rintro rfl
  exact hc (stops_check.mp h)

/-- The outcome may be named. -/
theorem Keeps.self (h : Keeps A x Q) : Keeps A x fun a => x = .ok a := by
  cases x with
  | ok a => exact rfl
  | error e => exact h

theorem keeps_ok {a : α} (h : Q a) : Keeps A (.ok a) Q := h

/-- An error that is no consistency check. -/
theorem keeps_error {e : Stop} (h : ∀ c, e ≠ .check c) : Keeps A (.error e : Except Stop α) Q :=
  fun c hc => absurd hc (h c)

theorem keeps_ite {p : Prop} [Decidable p] (hx : p → Keeps A x Q) (hy : ¬ p → Keeps A y Q) :
    Keeps A (if p then x else y) Q := by
  split
  · exact hx ‹_›
  · exact hy ‹_›

end

/-! ### Links and queues -/

/-- The link record `id` taken for station `rs`. -/
def newLink {α : Type} (id : Nat) (rs : Ref) (x : α) (s : State env) : RSLink α :=
  ⟨id, rs, s.tag rs, x, s.gen rs⟩

theorem rslinkNew_keeps {α : Type} {x : α} {Q : RSLink α × State env → Prop}
    (hOk : ∀ id rest, s.rslinkFreeList = id :: rest →
      Q (newLink id rs x s, { s with rslinkFreeList := rest }))
    (hOut : s.rslinkFreeList = [] → A .outOfRsLinks) :
    Keeps A (rslinkNew rs x s) Q := by
  unfold rslinkNew
  split
  · exact keeps_check (hOut ‹_›)
  · exact hOk _ _ ‹_›

/-- `rs` queued as ready, with record `id`. -/
def enqueued (id : Nat) (rest : List Nat) (rs : Ref) (s : State env) : State env :=
  { s with
    queued := Function.update s.queued rs true
    rslinkFreeList := rest
    readyQueue :=
      insertReady (goesFirst (s.stn rs)) (newLink id rs (s.stn rs).seq s) s.readyQueue }

theorem readyqEnqueue_keeps
    (hOk : ∀ id rest, s.queued rs = false → s.rslinkFreeList = id :: rest →
      Q (enqueued id rest rs s))
    (hQueued : s.queued rs = true → A .alreadyQueued)
    (hOut : s.rslinkFreeList = [] → A .outOfRsLinks) : Keeps A (readyqEnqueue rs s) Q := by
  unfold readyqEnqueue
  refine keeps_ite (fun h => keeps_check (hQueued h)) fun hQ => ?_
  refine Keeps.bind (rslinkNew_keeps (fun id rest hFree => ?_) hOut) fun _ h => h
  exact hOk id rest (by simpa using hQ) hFree

/-- A completion event for `rs` at time `when`, with record `id`. -/
def scheduled (id : Nat) (rest : List Nat) (rs : Ref) (when : Int) (s : State env) : State env :=
  { s with
    rslinkFreeList := rest
    eventQueue := insertEvent (newLink id rs when s) s.eventQueue }

theorem eventqQueueEvent_keeps {when : Int}
    (hOk : ∀ id rest, s.completed rs = false → s.simCycle < when →
      s.rslinkFreeList = id :: rest → Q (scheduled id rest rs when s))
    (hDone : s.completed rs = true → A .eventCompleted)
    (hPast : when ≤ s.simCycle → A .eventPast)
    (hOut : s.rslinkFreeList = [] → A .outOfRsLinks) :
    Keeps A (eventqQueueEvent rs when s) Q := by
  unfold eventqQueueEvent
  refine keeps_ite (fun h => keeps_check (hDone h)) fun hC => ?_
  refine keeps_ite (fun h => keeps_check (hPast h)) fun hWhen => ?_
  refine Keeps.bind (rslinkNew_keeps (fun id rest hFree => ?_) hOut) fun _ h => h
  exact hOk id rest (by simpa using hC) (by omega) hFree

/-- The operand needs no producer. -/
def operandReady (rs : Ref) (k : Fin 3) (s : State env) : State env :=
  { s with idepReady := Function.update s.idepReady (rs, k) true }

/-- The operand waits for output `head`, with record `id`. -/
def operandLinked (id : Nat) (rest : List Nat) (head : CVLink) (rs : Ref) (k : Fin 3)
    (s : State env) : State env :=
  { s with
    idepReady := Function.update s.idepReady (rs, k) false
    rslinkFreeList := rest
    odepList := Function.update s.odepList head (newLink id rs k s :: s.odepList head) }

theorem ruuLinkIdep_keeps {k : Fin 3} {name : Nat}
    (hReady : (name = NA ∨ name < ssTotalRegs ∧ s.createVectorAt name = none) →
      Q (operandReady rs k s))
    (hLink : ∀ id rest head, name ≠ NA → name < ssTotalRegs → s.createVectorAt name = some head →
      s.rslinkFreeList = id :: rest → Q (operandLinked id rest head rs k s))
    (hOut : s.rslinkFreeList = [] → A .outOfRsLinks) :
    Keeps A (ruuLinkIdep rs k name s) Q := by
  unfold ruuLinkIdep
  refine keeps_ite (fun h => hReady (.inl h)) fun hNA => ?_
  refine keeps_ite (fun _ => keeps_error (by simp)) fun hRange => ?_
  split
  · exact hReady (.inr ⟨by omega, ‹_›⟩)
  · refine Keeps.bind (rslinkNew_keeps (fun id rest hFree => ?_) hOut) fun _ h => h
    exact hLink id rest _ hNA (by omega) ‹_› hFree

/-- `rs` becomes the creator of `name`. -/
def installed (rs : Ref) (i : Fin 2) (name : Nat) (s : State env) : State env :=
  let s := setOname rs i name s
  setCreateVector name (some (rs, i)) { s with odepList := Function.update s.odepList (rs, i) [] }

theorem ruuInstallOdep_keeps {i : Fin 2} {name : Nat} (hNone : name = NA → Q (setOname rs i NA s))
    (hSome : name ≠ NA → name < ssTotalRegs → Q (installed rs i name s)) :
    Keeps A (ruuInstallOdep rs i name s) Q := by
  unfold ruuInstallOdep
  refine keeps_ite hNone fun hNA => ?_
  exact keeps_ite (fun _ => keeps_error (by simp)) fun hRange => hSome hNA (by omega)

/-! ### Components -/

theorem component_keeps {α : Type} {x : Except String α} {Q : α → Prop}
    (hOk : ∀ a, x = .ok a → Q a) : Keeps A (component x) Q := by
  cases x with
  | ok a => exact hOk a rfl
  | error msg => exact keeps_error (by simp)

/-- The caches after some accesses at time `t`. -/
inductive Accessed (env : Env) (t : Nat) : env.Caches → env.Caches → Prop where
  | refl (c : env.Caches) : Accessed env t c c
  | step {c c' c'' : env.Caches} {id : CacheId} {cmd : MemCmd} {addr : Word} {n : Nat} {lat : Word}
      (h : Accessed env t c c') (hRun : env.cacheAccess id cmd addr n t c' = .ok (lat, c'')) :
      Accessed env t c c''

theorem Accessed.trans {t : Nat} {c c' c'' : env.Caches} (h : Accessed env t c c')
    (h' : Accessed env t c' c'') : Accessed env t c c'' := by
  induction h' with
  | refl => exact h
  | step _ hRun ih => exact .step ih hRun

/-- Some access at time `t` has a latency that is not positive as a C `int`. -/
def Untimely (env : Env) (t : Nat) (c : env.Caches) : Prop :=
  ∃ id cmd addr n c' lat c'', Accessed env t c c' ∧
    env.cacheAccess id cmd addr n t c' = .ok (lat, c'') ∧ lat.toInt < 1

theorem Untimely.of_accessed {t : Nat} {c c' : env.Caches} (h : Untimely env t c')
    (hAcc : Accessed env t c c') : Untimely env t c := by
  obtain ⟨id, cmd, addr, n, c₁, lat, c₂, h₁, hRun, hLat⟩ := h
  exact ⟨id, cmd, addr, n, c₁, lat, c₂, hAcc.trans h₁, hRun, hLat⟩

theorem bare_timely (t : Nat) : ¬ Untimely Env.bare t () := by
  rintro ⟨_, _, _, _, _, lat, _, _, hRun, hLat⟩
  cases hRun
  revert hLat
  decide

variable {id : CacheId} {cmd : MemCmd} {addr : Word}

theorem cacheAccess_keeps {n : Nat} {Q : Word × State env → Prop}
    (hOk : ∀ lat caches, env.cacheAccess id cmd addr n s.simCycle s.caches = .ok (lat, caches) →
      Q (lat, { s with caches := caches })) :
    Keeps A (cacheAccess id cmd addr n s) Q :=
  Keeps.bind (component_keeps fun a => hOk a.1 a.2) fun _ h => h

theorem bpredTrain_keeps {st : Station env}
    (hOk : ∀ pred, Q { s with pred := pred }) : Keeps A (bpredTrain st s) Q :=
  Keeps.bind (component_keeps fun pred _ => hOk pred) fun _ h => h

theorem bpredTrainIn_keeps {stage : SpecUpdate} {st : Station env}
    (hOk : ∀ pred, Q { s with pred := pred }) :
    Keeps A (bpredTrainIn cfg stage st s) Q :=
  keeps_ite (fun _ => bpredTrain_keeps hOk) fun _ => keeps_ok (hOk s.pred)

theorem cacheTouch_keeps {on : Bool}
    (hOk : ∀ caches, Accessed env s.simCycle s.caches caches → Q { s with caches := caches }) :
    Keeps A (cacheTouch on id cmd addr s) Q := by
  refine keeps_ite (fun _ => ?_) fun _ => keeps_ok (hOk s.caches (.refl _))
  exact Keeps.bind (cacheAccess_keeps (Q := fun r => Q r.2)
    fun _ caches hRun => hOk caches (.step (.refl _) hRun)) fun _ h => keeps_ok h

/-- An idle unit, with latencies from `fu_config`. -/
structure Available (fu : ResEntry) (s : State env) : Prop where
  idle : s.busy fu.master = 0
  oplat_le : fu.template.oplat ≤ 24
  oplat_pos : 1 ≤ fu.template.oplat
  issuelat_pos : 1 ≤ fu.template.issuelat

/-- What becomes of the units: at most one more operation is accepted. -/
inductive Reserves (retires : Bool) (s : State env) : (Nat → Nat) → List Accept → Prop where
  | none : Reserves retires s s.busy s.accepts
  | unit {fu : ResEntry} (h : Available fu s) : Reserves retires s
      (Function.update s.busy fu.master fu.template.issuelat)
      (s.accepts ++ [⟨s.simCycle, retires, fu.master, fu.template.issuelat⟩])

theorem fuReserve_keeps {retires : Bool} {fu : ResEntry}
    (hOk : Q { s with
      busy := Function.update s.busy fu.master fu.template.issuelat
      accepts := s.accepts ++ [⟨s.simCycle, retires, fu.master, fu.template.issuelat⟩] })
    (hBusy : s.busy fu.master = 0) : Keeps A (fuReserve retires fu s) Q :=
  keeps_ite (fun h => absurd hBusy h) fun _ => hOk

/-- `res_get` stops on a class without units; otherwise the unit it returns is idle. -/
theorem fuGet_keeps {cls : FuClass} {Q : Option ResEntry → Prop} (hNone : Q none)
    (hSome : ∀ fu, Available fu s → Q (some fu)) :
    Keeps A (fuGet cfg cls s) Q := by
  have hPool : Keeps A cfg.fuPool fun pool => cfg.fuPool = .ok pool := by
    unfold Config.fuPool resCreatePool
    exact keeps_ite (fun _ => keeps_error (by simp)) fun h => by rw [if_neg h]; rfl
  refine Keeps.bind hPool fun pool hEq => ?_
  cases hGet : resGet pool s.busy cls with
  | error e =>
    unfold resGet at hGet
    split at hGet
    · cases hGet
      exact keeps_error (by simp)
    · cases hGet
  | ok fu =>
    cases fu with
    | none => exact hNone
    | some fu =>
      obtain ⟨d, hd, ht, _⟩ := resGet_template hEq hGet
      obtain ⟨hOplat, hIssuelat⟩ := cfg.lat_pos hd ht
      exact hSome fu ⟨resGet_idle hGet, cfg.oplat_le hd ht, hOplat, hIssuelat⟩

/-! ### Commit -/

/-- The head of the RUU retires alone. -/
def retiredOp (cfg : Config) (pred : env.Pred) (s : State env) : State env :=
  { s with
    pred := pred
    tag := Function.update s.tag (.ruu s.ruuHead) (s.tag (.ruu s.ruuHead) + 1)
    gen := Function.update s.gen (.ruu s.ruuHead) (s.gen (.ruu s.ruuHead) + 1)
    ruuHead := (s.ruuHead + 1) % cfg.ruuSize
    ruuNum := s.ruuNum - 1
    retired := s.retired ++ [(s.stn (.ruu s.ruuHead)).dispatch] }

/-- The heads of both queues retire. -/
def retiredMem (cfg : Config) (busy : Nat → Nat) (accepts : List Accept) (caches : env.Caches)
    (pred : env.Pred) (s : State env) : State env :=
  { s with
    busy := busy
    accepts := accepts
    caches := caches
    pred := pred
    tag := Function.update (Function.update s.tag (.lsq s.lsqHead) (s.tag (.lsq s.lsqHead) + 1))
      (.ruu s.ruuHead) (s.tag (.ruu s.ruuHead) + 1)
    gen := Function.update (Function.update s.gen (.lsq s.lsqHead) (s.gen (.lsq s.lsqHead) + 1))
      (.ruu s.ruuHead) (s.gen (.ruu s.ruuHead) + 1)
    lsqHead := (s.lsqHead + 1) % cfg.lsqSize
    lsqNum := s.lsqNum - 1
    ruuHead := (s.ruuHead + 1) % cfg.ruuSize
    ruuNum := s.ruuNum - 1
    retired := s.retired ++ [(s.stn (.ruu s.ruuHead)).dispatch] }

theorem retiredMem_eq (cfg : Config) (busy : Nat → Nat) (accepts : List Accept)
    (caches : env.Caches) (pred : env.Pred) (s : State env) :
    retireRuu cfg { retireLsq cfg { s with busy := busy, accepts := accepts, caches := caches } with
      pred := pred } = retiredMem cfg busy accepts caches pred s := by
  simp [retireRuu, retireLsq, bumpTag, retiredMem]

/-- The iterations of `ruu_commit` that retire an instruction. -/
inductive Retires (cfg : Config) (s : State env) : State env → Prop where
  | op (pred : env.Pred) (hC : s.completed (.ruu s.ruuHead) = true)
      (hEa : (s.stn (.ruu s.ruuHead)).eaComp = false) : Retires cfg s (retiredOp cfg pred s)
  | mem {busy : Nat → Nat} {accepts : List Accept} {caches : env.Caches} (pred : env.Pred)
      (hC : s.completed (.ruu s.ruuHead) = true) (hEa : (s.stn (.ruu s.ruuHead)).eaComp = true)
      (hCL : s.completed (.lsq s.lsqHead) = true) (hUnits : Reserves true s busy accepts)
      (hCaches : Accessed env s.simCycle s.caches caches) :
      Retires cfg s (retiredMem cfg busy accepts caches pred s)

theorem commitRuu_keeps {Q : Option (State env) → Prop}
    (hOk : ∀ pred, Q (some (retireRuu cfg { s with pred := pred })))
    (hOdeps : ∀ i, s.odepList (.ruu s.ruuHead, i) = []) : Keeps A (commitRuu cfg s) Q := by
  unfold commitRuu
  refine Keeps.bind (bpredTrainIn_keeps (Q := fun s' => ∃ pred, s' = { s with pred := pred })
    fun pred => ⟨pred, rfl⟩) ?_
  rintro s' ⟨pred, rfl⟩
  refine keeps_ite (fun h => ?_) fun _ => hOk pred
  rcases h with h | h
  · exact absurd (hOdeps 0) h
  · exact absurd (hOdeps 1) h

theorem commitStore_keeps {Q : Option (State env) → Prop} (hNone : Q none)
    (hOk : ∀ busy accepts caches, Reserves true s busy accepts →
      Accessed env s.simCycle s.caches caches →
      Q (some { s with busy := busy, accepts := accepts, caches := caches })) :
    Keeps A (commitStore cfg s) Q := by
  unfold commitStore
  refine Keeps.bind (fuGet_keeps (Q := fun fu => ∀ fu', fu = some fu' → Available fu' s)
    (by simp) (by rintro fu hFu _ ⟨⟩; exact hFu)) fun fu hFu => ?_
  cases fu with
  | none => exact keeps_ok hNone
  | some fu =>
    have hUnit := hFu fu rfl
    refine Keeps.bind (fuReserve_keeps (Q := fun s' => ∃ busy accepts,
      Reserves true s busy accepts ∧ s' = { s with busy := busy, accepts := accepts })
      ⟨_, _, .unit hUnit, rfl⟩ hUnit.idle) ?_
    rintro s₁ ⟨busy, accepts, hUnits, rfl⟩
    refine Keeps.bind (cacheTouch_keeps (Q := fun s' => ∃ caches,
      Accessed env s.simCycle s.caches caches ∧
      s' = { s with busy := busy, accepts := accepts, caches := caches })
      fun caches hAcc => ⟨caches, hAcc, rfl⟩) ?_
    rintro s₂ ⟨caches, hAcc, rfl⟩
    refine Keeps.bind (cacheTouch_keeps (Q := fun s' => ∃ caches,
      Accessed env s.simCycle s.caches caches ∧
      s' = { s with busy := busy, accepts := accepts, caches := caches })
      fun caches hAcc' => ⟨caches, hAcc.trans hAcc', rfl⟩) ?_
    rintro s₃ ⟨caches, hAcc', rfl⟩
    exact keeps_ok (hOk busy accepts caches hUnits hAcc')

theorem commitOne_keeps
    (hSync : (s.stn (.ruu s.ruuHead)).eaComp = true →
      s.lsqNum ≠ 0 ∧ (s.stn (.lsq s.lsqHead)).inLSQ = true)
    (hOdeps : s.completed (.ruu s.ruuHead) = true → ∀ i, s.odepList (.ruu s.ruuHead, i) = []) :
    Keeps A (commitOne cfg s) fun o => ∀ s', o = some s' → Retires cfg s s' := by
  have hNone : ∀ s', none = some s' → Retires cfg s s' := by simp
  unfold commitOne
  refine keeps_ite (fun _ => keeps_ok hNone) fun hC => ?_
  have hC : s.completed (.ruu s.ruuHead) = true := by simpa using hC
  refine keeps_ite (fun hEa => ?_) fun hEa => commitRuu_keeps (fun pred => ?_) (hOdeps hC)
  swap
  · rintro _ ⟨⟩
    exact .op pred hC (by simpa using hEa)
  obtain ⟨hNum, hIn⟩ := hSync hEa
  refine keeps_ite (fun h => ?_) fun _ => ?_
  · rcases h with h | h
    · exact absurd h hNum
    · rw [hIn] at h
      cases h
  refine keeps_ite (fun _ => keeps_ok hNone) fun hCL => ?_
  have hCL : s.completed (.lsq s.lsqHead) = true := by simpa using hCL
  have hRetire : ∀ busy accepts caches, Reserves true s busy accepts →
      Accessed env s.simCycle s.caches caches →
      Keeps A (commitRuu cfg (retireLsq cfg
        { s with busy := busy, accepts := accepts, caches := caches }))
        fun o => ∀ s', o = some s' → Retires cfg s s' := by
    intro busy accepts caches hUnits hAcc
    refine commitRuu_keeps (fun pred => ?_) (hOdeps hC)
    rintro _ ⟨⟩
    have hMem : Retires cfg s (retiredMem cfg busy accepts caches pred s) :=
      .mem pred hC hEa hCL hUnits hAcc
    rwa [← retiredMem_eq] at hMem
  refine keeps_ite (fun _ => ?_) fun _ => hRetire s.busy s.accepts s.caches .none (.refl _)
  refine Keeps.bind (commitStore_keeps (Q := fun o => ∀ s', o = some s' →
    ∃ busy accepts caches, Reserves true s busy accepts ∧ Accessed env s.simCycle s.caches caches ∧
      s' = { s with busy := busy, accepts := accepts, caches := caches }) (by simp)
    (by rintro busy accepts caches h₁ h₂ _ ⟨⟩; exact ⟨busy, accepts, caches, h₁, h₂, rfl⟩))
    fun o hO => ?_
  cases o with
  | none => exact keeps_ok hNone
  | some s' =>
    obtain ⟨busy, accepts, caches, hUnits, hAcc, rfl⟩ := hO s' rfl
    exact hRetire busy accepts caches hUnits hAcc

variable {I : State env → Prop}

theorem ruuCommitLoop_keeps
    (hStep : ∀ s, I s → s.ruuNum ≠ 0 → Keeps A (commitOne cfg s) fun o => ∀ s', o = some s' → I s') :
    ∀ (n : Nat) {s : State env}, I s → Keeps A (ruuCommitLoop cfg n s) I := by
  intro n
  induction n with
  | zero => intro s hs; exact keeps_ok hs
  | succ n ih =>
    intro s hs
    refine keeps_ite (fun _ => keeps_ok hs) fun hNum => ?_
    refine Keeps.bind (hStep s hs hNum) fun o hO => ?_
    cases o with
    | none => exact keeps_ok hs
    | some s' => exact ih (hO s' rfl)

/-! ### Writeback -/

/-- The events that are due are taken in turn: stale ones are dropped, the first valid
one is served. -/
theorem nextEvent_cases
    (hDrop : ∀ s ev rest, I s → s.eventQueue = ev :: rest → ev.x ≤ s.simCycle →
      s.linkValid ev = false → I (popEvent ev rest s)) :
    ∀ {q : List (RSLink Int)} {s : State env}, s.eventQueue = q → I s →
      ((nextEvent q s).1 = none ∧ I (nextEvent q s).2 ∧
        ∀ ev ∈ (nextEvent q s).2.eventQueue.head?, ((nextEvent q s).2.simCycle : Int) < ev.x) ∨
      ∃ ev rest s₁, I s₁ ∧ s₁.eventQueue = ev :: rest ∧ ev.x ≤ s₁.simCycle ∧
        s₁.linkValid ev = true ∧ nextEvent q s = (some ev.rs, popEvent ev rest s₁) := by
  intro q
  induction q with
  | nil =>
    intro s hq hs
    refine .inl ⟨rfl, hs, ?_⟩
    show ∀ ev ∈ s.eventQueue.head?, _
    simp [hq]
  | cons ev rest ih =>
    intro s hq hs
    rw [nextEvent]
    by_cases hDue : ev.x ≤ s.simCycle
    · rw [if_pos hDue]
      cases hValid : s.linkValid ev with
      | true => exact .inr ⟨ev, rest, s, hs, hq, hDue, hValid, by rw [if_pos rfl]⟩
      | false =>
        rw [if_neg (by simp)]
        exact ih rfl (hDrop s ev rest hs hq hDue hValid)
    · rw [if_neg hDue]
      refine .inl ⟨rfl, hs, fun e he => ?_⟩
      rw [hq, List.head?_cons, Option.mem_some_iff] at he
      exact he ▸ not_le.mp hDue

theorem ruuWritebackLoop_keeps
    (hDrop : ∀ s ev rest, I s → s.eventQueue = ev :: rest → ev.x ≤ s.simCycle →
      s.linkValid ev = false → I (popEvent ev rest s))
    (hStep : ∀ s ev rest, I s → s.eventQueue = ev :: rest → ev.x ≤ s.simCycle →
      s.linkValid ev = true → Keeps A (writebackEvent cfg ev.rs (popEvent ev rest s)) I) :
    ∀ (n : Nat) {s : State env}, I s → Keeps A (ruuWritebackLoop cfg n s) I := by
  intro n
  induction n with
  | zero => intro s hs; exact keeps_ok hs
  | succ n ih =>
    intro s hs
    rw [ruuWritebackLoop, eventqNextEvent]
    rcases nextEvent_cases hDrop rfl hs with ⟨hNone, hI, _⟩ |
      ⟨ev, rest, s₁, hI, hq, hDue, hValid, hEq⟩
    · rw [show nextEvent s.eventQueue s = (none, (nextEvent s.eventQueue s).2) from
        Prod.ext hNone rfl]
      exact keeps_ok hI
    · rw [hEq]
      exact Keeps.bind (hStep s₁ ev rest hI hq hDue hValid) fun s' hs' => ih hs'

/-- The loop ends when no event is due. -/
theorem ruuWritebackLoop_drains
    (hDrop : ∀ s ev rest, I s → s.eventQueue = ev :: rest → ev.x ≤ s.simCycle →
      s.linkValid ev = false → I (popEvent ev rest s))
    (hStep : ∀ s ev rest, I s → s.eventQueue = ev :: rest → ev.x ≤ s.simCycle →
      s.linkValid ev = true → Keeps A (writebackEvent cfg ev.rs (popEvent ev rest s))
        fun s' => I s' ∧ s'.eventQueue = rest) :
    ∀ (n : Nat) {s : State env}, I s → s.eventQueue.length < n →
      Keeps A (ruuWritebackLoop cfg n s) fun s' =>
        I s' ∧ ∀ ev ∈ s'.eventQueue.head?, (s'.simCycle : Int) < ev.x := by
  intro n
  induction n with
  | zero => intro s _ hLength; cases hLength
  | succ n ih =>
    intro s hs hLength
    rw [ruuWritebackLoop, eventqNextEvent]
    -- stale events only make the queue shorter
    have hCases := nextEvent_cases
      (I := fun s₁ => I s₁ ∧ s₁.eventQueue.length ≤ s.eventQueue.length)
      (fun s₁ ev rest hs₁ hq hDue hStale => ⟨hDrop s₁ ev rest hs₁.1 hq hDue hStale, by
        have hLe := hs₁.2
        rw [hq, List.length_cons] at hLe
        show rest.length ≤ _
        omega⟩) rfl ⟨hs, le_refl _⟩
    rcases hCases with ⟨hNone, hI, hHead⟩ | ⟨ev, rest, s₁, hI, hq, hDue, hValid, hEq⟩
    · rw [show nextEvent s.eventQueue s = (none, (nextEvent s.eventQueue s).2) from
        Prod.ext hNone rfl]
      exact keeps_ok ⟨hI.1, hHead⟩
    · rw [hEq]
      refine Keeps.bind (hStep s₁ ev rest hI.1 hq hDue hValid) fun s' hs' => ih hs'.1 ?_
      have hLe := hI.2
      rw [hq, List.length_cons] at hLe
      rw [hs'.2]
      omega

theorem clearCreator_eq (rs : Ref) (i : Fin 2) (s : State env) :
    clearCreator rs i s = { s with
      createVector :=
        if (s.stn rs).specMode = false ∧ s.createVector ((s.stn rs).onames i) = some (rs, i) then
          Function.update s.createVector ((s.stn rs).onames i) none else s.createVector
      specCreateVector :=
        if (s.stn rs).specMode = true ∧ s.specCreateVector ((s.stn rs).onames i) = some (rs, i) then
          Function.update s.specCreateVector ((s.stn rs).onames i) none
        else s.specCreateVector } := by
  unfold clearCreator
  cases hSpec : (s.stn rs).specMode with
  | true =>
    by_cases hNamed : s.specCreateVector ((s.stn rs).onames i) = some (rs, i) <;> simp [hNamed]
  | false =>
    by_cases hNamed : s.createVector ((s.stn rs).onames i) = some (rs, i) <;> simp [hNamed]

/-- Output `i` is announced: the create vector no longer names it, and its consumer
list is taken. -/
def announced (rs : Ref) (i : Fin 2) (s : State env) : State env :=
  { clearCreator rs i s with odepList := Function.update s.odepList (rs, i) [] }

/-- Waking consumers neither reads nor writes the consumer lists. -/
theorem wakeLink_odepList (l : RSLink (Fin 3)) (o : CVLink → List (RSLink (Fin 3)))
    (s : State env) : wakeLink l { s with odepList := o } =
      (wakeLink l s).map fun s' => { s' with odepList := o } := by
  have hEnq : ∀ (b : Bool) (rs : Ref) (s : State env), enqueueIf b rs { s with odepList := o } =
      (enqueueIf b rs s).map fun s' => { s' with odepList := o } := by
    intro b rs s
    cases b with
    | false => rfl
    | true =>
      show readyqEnqueue rs { s with odepList := o } = (readyqEnqueue rs s).map _
      unfold readyqEnqueue rslinkNew
      cases s.queued rs <;> cases s.rslinkFreeList <;> rfl
  unfold wakeLink wake
  have hValid : State.linkValid { s with odepList := o } l = s.linkValid l := rfl
  rw [hValid]
  cases s.linkValid l with
  | false => rfl
  | true =>
    simp only [if_true]
    cases s.idepReady (l.rs, l.x) with
    | true => rfl
    | false => exact hEnq _ _ (operandReady l.rs l.x s)

theorem wakeAll_odepList (o : CVLink → List (RSLink (Fin 3))) :
    ∀ (ls : List (RSLink (Fin 3))) (s : State env), wakeAll ls { s with odepList := o } =
      (wakeAll ls s).map fun s' => { s' with odepList := o } := by
  intro ls
  induction ls with
  | nil => intro s; rfl
  | cons l ls ih =>
    intro s
    rw [wakeAll, wakeAll, wakeLink_odepList]
    cases wakeLink l s with
    | error e => rfl
    | ok s' => exact ih (rslinkFree l.id s')

/-- The list may as well be taken before the walk. -/
theorem broadcast_eq (rs : Ref) (i : Fin 2) (s : State env) :
    broadcast rs i s = if (s.stn rs).onames i = NA then .ok s
      else wakeAll (s.odepList (rs, i)) (announced rs i s) := by
  have hLists : (clearCreator rs i s).odepList = s.odepList := by
    rw [clearCreator_eq]
  unfold broadcast announced
  simp only [hLists, wakeAll_odepList]
  split
  · rfl
  · have hWalk := wakeAll_odepList s.odepList (s.odepList (rs, i)) (clearCreator rs i s)
    rw [show { clearCreator rs i s with odepList := s.odepList } = clearCreator rs i s by
      rw [← hLists]] at hWalk
    cases hRun : wakeAll (s.odepList (rs, i)) (clearCreator rs i s) with
    | error e => rfl
    | ok s' =>
      rw [hRun] at hWalk
      have hSame : s'.odepList = s.odepList := by
        simp only [Except.map] at hWalk
        have hEq := congrArg State.odepList (Except.ok.inj hWalk)
        exact hEq
      show Except.ok { s' with odepList := Function.update s'.odepList (rs, i) [] } = _
      rw [hSame]
      rfl

theorem broadcast_keeps {i : Fin 2} (hNone : (s.stn rs).onames i = NA → Q s)
    (hWalk : (s.stn rs).onames i ≠ NA →
      Keeps A (wakeAll (s.odepList (rs, i)) (announced rs i s)) Q) :
    Keeps A (broadcast rs i s) Q := by
  rw [broadcast_eq]
  exact keeps_ite hNone hWalk

theorem enqueueIf_keeps {ready : Bool} (hWait : ready = false → Q s)
    (hOk : ∀ id rest, ready = true → s.queued rs = false → s.rslinkFreeList = id :: rest →
      Q (enqueued id rest rs s))
    (hQueued : ready = true → s.queued rs = true → A .alreadyQueued)
    (hOut : ready = true → s.rslinkFreeList = [] → A .outOfRsLinks) :
    Keeps A (enqueueIf ready rs s) Q := by
  cases ready with
  | false => exact keeps_ok (hWait rfl)
  | true => exact readyqEnqueue_keeps (fun id rest => hOk id rest rfl) (hQueued rfl) (hOut rfl)

/-- Does the last operand that becomes ready put the consumer on the ready queue?
Loads wait for `lsq_refresh`. -/
def wakes (l : RSLink (Fin 3)) (s : State env) : Bool :=
  (operandReady l.rs l.x s).operandsReady l.rs && (!(s.stn l.rs).inLSQ || s.isStore l.rs)

theorem wakeLink_keeps {l : RSLink (Fin 3)} (hStale : s.linkValid l = false → Q s)
    (hTwice : s.linkValid l = true → s.idepReady (l.rs, l.x) = true → A .odepSatisfied)
    (hWait : s.linkValid l = true → s.idepReady (l.rs, l.x) = false → wakes l s = false →
      Q (operandReady l.rs l.x s))
    (hWake : ∀ id rest, s.linkValid l = true → s.idepReady (l.rs, l.x) = false →
      wakes l s = true → s.queued l.rs = false → s.rslinkFreeList = id :: rest →
      Q (enqueued id rest l.rs (operandReady l.rs l.x s)))
    (hQueued : s.linkValid l = true → s.idepReady (l.rs, l.x) = false → wakes l s = true →
      s.queued l.rs = true → A .alreadyQueued)
    (hOut : s.rslinkFreeList = [] → A .outOfRsLinks) : Keeps A (wakeLink l s) Q := by
  refine keeps_ite (fun hValid => ?_) fun hValid => hStale (by simpa using hValid)
  refine keeps_ite (fun hReady => keeps_check (hTwice hValid hReady)) fun hReady => ?_
  have hReady : s.idepReady (l.rs, l.x) = false := by simpa using hReady
  exact enqueueIf_keeps (hWait hValid hReady)
    (fun id rest hW hQ hFree => hWake id rest hValid hReady hW hQ hFree)
    (fun hW hQ => hQueued hValid hReady hW hQ) fun _ => hOut

theorem wakeAll_keeps {I : List (RSLink (Fin 3)) → State env → Prop}
    (hStep : ∀ l ls s, I (l :: ls) s →
      Keeps A (wakeLink l s) fun s' => I ls (rslinkFree l.id s')) :
    ∀ {ls : List (RSLink (Fin 3))} {s : State env}, I ls s → Keeps A (wakeAll ls s) (I []) := by
  intro ls
  induction ls with
  | nil => intro s hs; exact keeps_ok hs
  | cons l ls ih => intro s hs; exact Keeps.bind (hStep l ls s hs) fun s' hs' => ih hs'

/-- The trace generator and the fetch unit after a recovery. -/
def restarted (cfg : Config) (pred : env.Pred) (s : State env) : State env :=
  { s with
    specMode := false
    overlay := ⟨fun _ => false, s.overlay.regs, fun _ => []⟩
    fetchNum := 0
    fetchTail := 0
    fetchHead := 0
    fetchPredPC := s.recoverPC
    fetchRegsPC := s.recoverPC
    pred := pred
    ruuFetchIssueDelay := BitVec.ofNat 32 cfg.ruuBranchPenalty }

theorem recoverBranch_keeps {i : Nat} {s s₁ : State env}
    (hIn : (s.stn (.ruu i)).inLSQ = false) (hRun : ruuRecover cfg i s = .ok s₁)
    (hSpec : s₁.specMode = true) (hOk : ∀ pred, Q (restarted cfg pred s₁)) :
    Keeps A (recoverBranch cfg (.ruu i) s) Q := by
  unfold recoverBranch
  rw [hIn, if_neg (by simp)]
  show Keeps A (ruuRecover cfg i s >>= _) Q
  rw [hRun]
  show Keeps A (tracerRecover s₁ >>= _) Q
  unfold tracerRecover
  rw [hSpec, if_neg (by simp)]
  by_cases hPred : cfg.hasPred
  · simp only [hPred, if_true]
    exact hOk _
  · simp only [hPred]
    exact hOk _

theorem writebackEvent_keeps {J K Q : State env → Prop}
    (hCheck : (s.operandsReady rs && !s.queued rs && s.issued rs && !s.completed rs) = false →
      A .completedNotReady)
    (hResolve : s.operandsReady rs = true → s.queued rs = false → s.issued rs = true →
      s.completed rs = false →
      Keeps A (resolve cfg rs { s with completed := Function.update s.completed rs true }) J)
    (hPred : ∀ s' pred, J s' → J { s' with pred := pred })
    (h₀ : ∀ s', J s' → Keeps A (broadcast rs 0 s') K)
    (h₁ : ∀ s', K s' → Keeps A (broadcast rs 1 s') Q) :
    Keeps A (writebackEvent cfg rs s) Q := by
  unfold writebackEvent
  refine keeps_ite (fun hBad => keeps_check (hCheck ?_)) fun hGood => ?_
  · revert hBad
    cases s.operandsReady rs <;> cases s.queued rs <;> cases s.issued rs <;>
      cases s.completed rs <;> simp
  simp only [Bool.or_eq_true, Bool.not_eq_true', not_or, Bool.not_eq_true, Bool.not_eq_false] at hGood
  obtain ⟨⟨⟨hReady, hQ⟩, hI⟩, hC⟩ := hGood
  refine Keeps.bind (hResolve hReady hQ hI hC) fun s₁ hs₁ => ?_
  refine Keeps.bind (Q := J) ?_ fun s₂ hs₂ => Keeps.bind (h₀ s₂ hs₂) h₁
  refine keeps_ite (fun _ => keeps_ok hs₁) fun _ => ?_
  exact bpredTrainIn_keeps fun pred => hPred s₁ pred hs₁

/-! ### Issue -/

/-- The condition `ruu_issue` checks. -/
structure CanIssue (rs : Ref) (s : State env) : Prop where
  ready : s.operandsReady rs = true
  queued : s.queued rs = true
  issued : s.issued rs = false
  completed : s.completed rs = false

/-- A store has completed. -/
def storeDone (rs : Ref) (s : State env) : State env :=
  { s with
    queued := Function.update s.queued rs false
    issued := Function.update s.issued rs true
    completed := Function.update s.completed rs true }

/-- The loads that have started, with `rs`. -/
def startedLoads (cfg : Config) (rs : Ref) (s : State env) : List LoadIssue :=
  match rs with
  | .ruu _ => s.loads
  | .lsq i => if (s.stn rs).inLSQ && s.isLoad rs then s.loads ++ [loadIssue cfg i s] else s.loads

/-- `rs` has started and will complete at `when`. -/
def started (cfg : Config) (id : Nat) (rest : List Nat) (rs : Ref) (when : Int) (busy : Nat → Nat)
    (accepts : List Accept) (caches : env.Caches) (s : State env) : State env :=
  scheduled id rest rs when { s with
    queued := Function.update s.queued rs false
    issued := Function.update s.issued rs true
    busy := busy
    accepts := accepts
    caches := caches
    loads := startedLoads cfg rs s }

/-- What holds when an operation starts: link record `id` is free, the operation will
complete at `when`, and the units and the caches have become the new ones. -/
structure Starts (id : Nat) (rest : List Nat) (when : Int) (busy : Nat → Nat)
    (accepts : List Accept) (caches : env.Caches) (s : State env) : Prop where
  past : s.simCycle < when
  soon : when < s.simCycle + 2 ^ 31
  free : s.rslinkFreeList = id :: rest
  units : Reserves false s busy accepts
  accessed : Accessed env s.simCycle s.caches caches

/-- `rs` found no unit and is ready again. -/
def putBack (id : Nat) (rest : List Nat) (rs : Ref) (s : State env) : State env :=
  enqueued id rest rs { s with queued := Function.update s.queued rs false }

theorem dataLatency_keeps {index oplat : Nat}
    {Q : Int × State env → Prop} (hLat : oplat ≤ 24) (hPos : 1 ≤ oplat)
    (hOk : ∀ lat caches, lat < 2 ^ 31 → Accessed env s.simCycle s.caches caches →
      (lat < 1 → Untimely env s.simCycle s.caches) → Q (lat, { s with caches := caches })) :
    Keeps A (dataLatency cfg index oplat s) Q := by
  unfold dataLatency
  refine keeps_ite (fun _ => keeps_ok (hOk 1 s.caches (by norm_num) (.refl _) (by simp))) fun _ => ?_
  refine keeps_ite (fun _ => ?_) fun _ => keeps_ok (hOk oplat s.caches (by omega) (.refl _) (by omega))
  refine Keeps.bind (cacheAccess_keeps (Q := fun r => Q (r.1.toInt, r.2))
    fun lat caches hRun => ?_) fun _ h => keeps_ok h
  have := BitVec.toInt_lt (x := lat)
  exact hOk lat.toInt caches (by omega) (.step (.refl _) hRun)
    fun hLow => ⟨_, _, _, _, _, _, _, .refl _, hRun, hLow⟩

theorem loadLatency_keeps {index oplat : Nat}
    {Q : Int × State env → Prop} (hLat : oplat ≤ 24) (hPos : 1 ≤ oplat)
    (hOk : ∀ lat caches, lat < 2 ^ 31 → Accessed env s.simCycle s.caches caches →
      (lat < 1 → Untimely env s.simCycle s.caches) → Q (lat, { s with caches := caches })) :
    Keeps A (loadLatency cfg index oplat s) Q := by
  refine Keeps.bind (dataLatency_keeps (Q := fun r => ∃ lat caches, lat < 2 ^ 31 ∧
    Accessed env s.simCycle s.caches caches ∧ (lat < 1 → Untimely env s.simCycle s.caches) ∧
    r = (lat, { s with caches := caches })) hLat hPos
    fun lat caches h₁ h₂ h₃ => ⟨lat, caches, h₁, h₂, h₃, rfl⟩) ?_
  rintro _ ⟨lat, caches, hLt, hAcc, hLow, rfl⟩
  refine keeps_ite (fun _ => ?_) fun _ => keeps_ok (hOk lat caches hLt hAcc hLow)
  refine Keeps.bind (cacheAccess_keeps (Q := fun r => Q (max r.1.toInt lat, r.2))
    fun tlb caches hRun => ?_) fun _ h => keeps_ok h
  have hTlb := BitVec.toInt_lt (x := tlb)
  exact hOk (max tlb.toInt lat) caches (by omega) (.step hAcc hRun)
    fun hMax => hLow (lt_of_le_of_lt (le_max_right _ _) hMax)

/-- One clock and one state of the caches. -/
def InStep (a b : State env) : Prop := a.simCycle = b.simCycle ∧ a.caches = b.caches

theorem cacheAccess_agree {n : Nat} {s s' : State env}
    (h : InStep s' s) : Agree (fun a b : Word × State env => a.1 = b.1 ∧ InStep a.2 b.2) Eq
      (cacheAccess id cmd addr n s') (cacheAccess id cmd addr n s) := by
  unfold cacheAccess
  rw [h.1, h.2]
  cases component (env.cacheAccess id cmd addr n s.simCycle s.caches) with
  | error e => exact rfl
  | ok r => exact ⟨rfl, rfl, rfl⟩

/-- The latency of a load does not depend on the status of the stations. -/
theorem loadLatency_congr {index oplat : Nat} {lat : Int} {s s' : State env}
    (hLat : (loadLatency cfg index oplat s).map Prod.fst = .ok lat) (hStn : s'.stn = s.stn)
    (hHead : s'.lsqHead = s.lsqHead) (h : InStep s' s) :
    (loadLatency cfg index oplat s').map Prod.fst = .ok lat := by
  have hSearch : forwardSearch cfg index (s.stn (.lsq index)).addr s' =
      forwardSearch cfg index (s.stn (.lsq index)).addr s := by
    unfold forwardSearch
    rw [hStn, hHead]
  have hData : Agree (fun a b : Int × State env => a.1 = b.1 ∧ InStep a.2 b.2) Eq
      (dataLatency cfg index oplat s') (dataLatency cfg index oplat s) := by
    dsimp only [dataLatency]
    rw [hStn, hSearch]
    split
    · exact ⟨rfl, h⟩
    · split
      · refine Agree.bind (cacheAccess_agree h) fun a b _ _ hab => ⟨?_, hab.2⟩
        rw [hab.1]
      · exact ⟨rfl, h⟩
  have hLoad : Agree (fun a b : Int × State env => a.1 = b.1 ∧ InStep a.2 b.2) Eq
      (loadLatency cfg index oplat s') (loadLatency cfg index oplat s) := by
    unfold loadLatency
    rw [hStn]
    refine Agree.bind hData fun a b _ _ hab => ?_
    dsimp only
    split
    · refine Agree.bind (cacheAccess_agree hab.2) fun x y _ _ hxy => ⟨?_, hxy.2⟩
      rw [hab.1, hxy.1]
    · exact hab
  exact (hLoad.map_eq fun _ _ hab => hab.1).trans hLat

/-- A load that starts on an available unit, with a latency that is not positive. -/
def LateLoad (cfg : Config) (rs : Ref) (s : State env) : Prop :=
  ∃ index fu lat, rs = .lsq index ∧ s.isLoad rs = true ∧ Available fu s ∧
    (loadLatency cfg index fu.template.oplat s).map Prod.fst = .ok lat ∧ lat < 1

/-- Whether the load is queued makes no difference. -/
theorem LateLoad.requeued {queued : Ref → Bool}
    (h : LateLoad cfg rs { s with queued := queued }) : LateLoad cfg rs s := by
  obtain ⟨index, fu, lat, hRs, hLoad, ⟨h₁, h₂, h₃, h₄⟩, hLat, hLow⟩ := h
  exact ⟨index, fu, lat, hRs, hLoad, ⟨h₁, h₂, h₃, h₄⟩,
    loadLatency_congr hLat rfl rfl ⟨rfl, rfl⟩, hLow⟩

theorem LateLoad.untimely (h : LateLoad cfg rs s) :
    Untimely env s.simCycle s.caches := by
  obtain ⟨index, fu, lat, -, -, hUnit, hLat, hLow⟩ := h
  have hKeeps : Keeps (fun _ => True) (loadLatency cfg index fu.template.oplat s) fun r =>
      r.1 < 1 → Untimely env s.simCycle s.caches :=
    loadLatency_keeps hUnit.oplat_le hUnit.oplat_pos fun _ _ _ _ hLow => hLow
  cases hRun : loadLatency cfg index fu.template.oplat s with
  | error e => rw [hRun] at hLat; cases hLat
  | ok r =>
    rw [hRun] at hLat hKeeps
    cases hLat
    exact hKeeps hLow

theorem issueStore_keeps
    (hOk : (∀ i, (s.stn rs).onames i = NA) → (s.stn rs).recoverInst = false →
      Q { s with
        issued := Function.update s.issued rs true
        completed := Function.update s.completed rs true })
    (hResult : (∃ i, (s.stn rs).onames i ≠ NA) → A .storeCreatesResult)
    (hRecover : (s.stn rs).recoverInst = true → A .mispredictedStore) :
    Keeps A (issueStore rs s) Q := by
  refine keeps_ite (fun h => keeps_check (hResult ?_)) fun h => ?_
  · rcases h with h | h
    · exact ⟨0, h⟩
    · exact ⟨1, h⟩
  have hNone : ∀ i, (s.stn rs).onames i = NA := by
    intro i
    rw [not_or, not_not, not_not] at h
    match i with
    | 0 => exact h.1
    | 1 => exact h.2
  exact keeps_ite (fun h => keeps_check (hRecover h)) fun h => hOk hNone (by simpa using h)

/-- A unit takes the operation. -/
theorem issueOnUnit_keeps {fu : ResEntry} (hUnit : Available fu s) (hDone : s.completed rs = false)
    (hOk : ∀ id rest when busy accepts caches, Starts id rest when busy accepts caches s →
      Q (scheduled id rest rs when { s with
        issued := Function.update s.issued rs true
        busy := busy
        accepts := accepts
        caches := caches
        loads := startedLoads cfg rs s }))
    (hPast : LateLoad cfg rs s → A .eventPast)
    (hOut : s.rslinkFreeList = [] → A .outOfRsLinks) :
    Keeps A (issueOnUnit cfg rs fu s) Q := by
  have hLat := hUnit.oplat_le
  have hPos := hUnit.oplat_pos
  unfold issueOnUnit
  refine Keeps.bind (fuReserve_keeps (Q := fun s' => ∃ busy accepts,
    Reserves false s busy accepts ∧ s' = { s with
      issued := Function.update s.issued rs true, busy := busy, accepts := accepts })
    ⟨_, _, .unit hUnit, rfl⟩ hUnit.idle) ?_
  rintro s₁ ⟨busy, accepts, hUnits, rfl⟩
  refine keeps_ite (fun hLoad => ?_) fun hLoad => ?_
  · cases rs with
    | ruu i => exact keeps_error (by simp)
    | lsq i =>
      have hLoadLat : Keeps A (loadLatency cfg i fu.template.oplat { s with
          issued := Function.update s.issued (.lsq i) true
          busy := busy
          accepts := accepts
          loads := s.loads ++ [loadIssue cfg i s] }) fun r => ∃ lat caches, lat < 2 ^ 31 ∧
          Accessed env s.simCycle s.caches caches ∧ r = (lat, { s with
            issued := Function.update s.issued (.lsq i) true
            busy := busy
            accepts := accepts
            caches := caches
            loads := s.loads ++ [loadIssue cfg i s] }) :=
        loadLatency_keeps hLat hPos fun lat caches h₁ h₂ _ => ⟨lat, caches, h₁, h₂, rfl⟩
      refine Keeps.bind (hLoadLat.and hLoadLat.self) ?_
      rintro _ ⟨⟨lat, caches, hLt, hAcc, rfl⟩, hRun⟩
      refine eventqQueueEvent_keeps (fun id rest _ hWhen hFree => ?_)
        (fun h => absurd h (by simp [hDone]))
        (fun hWhen => hPast ⟨i, fu, lat, rfl, (Bool.and_eq_true_iff.mp hLoad).2, hUnit, ?_, ?_⟩) hOut
      rotate_left
      · exact loadLatency_congr (congrArg (Except.map Prod.fst) hRun) rfl rfl ⟨rfl, rfl⟩
      · change (s.simCycle : Int) + lat ≤ s.simCycle at hWhen
        omega
      have hQ := hOk id rest (s.simCycle + lat) busy accepts caches
        ⟨hWhen, by omega, hFree, hUnits, hAcc⟩
      have hLoads : startedLoads cfg (.lsq i) s = s.loads ++ [loadIssue cfg i s] := if_pos hLoad
      rwa [hLoads] at hQ
  · refine eventqQueueEvent_keeps (fun id rest _ hWhen hFree => ?_)
      (fun h => absurd h (by simp [hDone])) (fun hWhen => ?_) hOut
    swap
    · change (s.simCycle : Int) + fu.template.oplat ≤ s.simCycle at hWhen
      omega
    have hQ := hOk id rest (s.simCycle + fu.template.oplat) busy accepts s.caches
      ⟨hWhen, by omega, hFree, hUnits, .refl _⟩
    have hLoads : startedLoads cfg rs s = s.loads := by
      cases rs with
      | ruu i => rfl
      | lsq i => exact if_neg hLoad
    rwa [hLoads] at hQ

theorem issueNode_keeps {Q : Bool × State env → Prop} (hCheck : ¬ CanIssue rs s → A .issuedNotReady)
    (hStore : CanIssue rs s → (s.stn rs).inLSQ = true → s.isStore rs = true →
      (∀ i, (s.stn rs).onames i = NA) → (s.stn rs).recoverInst = false → Q (true, storeDone rs s))
    (hResult : CanIssue rs s → (s.stn rs).inLSQ = true → s.isStore rs = true →
      (∃ i, (s.stn rs).onames i ≠ NA) → A .storeCreatesResult)
    (hRecover : (s.stn rs).inLSQ = true → (s.stn rs).recoverInst = true → A .mispredictedStore)
    (hStart : ∀ id rest when busy accepts caches, CanIssue rs s →
      ((s.stn rs).inLSQ && s.isStore rs) = false → Starts id rest when busy accepts caches s →
      Q (true, started cfg id rest rs when busy accepts caches s))
    (hBack : ∀ id rest, CanIssue rs s → ((s.stn rs).inLSQ && s.isStore rs) = false →
      s.rslinkFreeList = id :: rest → Q (false, putBack id rest rs s))
    (hPast : LateLoad cfg rs s → A .eventPast)
    (hOut : s.rslinkFreeList = [] → A .outOfRsLinks) :
    Keeps A (issueNode cfg rs s) Q := by
  unfold issueNode
  refine keeps_ite (fun hBad => keeps_check (hCheck ?_)) fun hGood => ?_
  · rintro ⟨h₁, h₂, h₃, h₄⟩
    simp [h₁, h₂, h₃, h₄] at hBad
  have hCan : CanIssue rs s := by
    simp only [Bool.or_eq_true, Bool.not_eq_true', not_or, Bool.not_eq_true,
      Bool.not_eq_false] at hGood
    exact ⟨hGood.1.1.1, hGood.1.1.2, hGood.1.2, hGood.2⟩
  refine keeps_ite (fun hSt => ?_) fun hSt => ?_
  · obtain ⟨hIn, hSt⟩ := Bool.and_eq_true_iff.mp hSt
    refine Keeps.bind (issueStore_keeps (fun hNone hRec => ?_) (hResult hCan hIn hSt)
      (hRecover hIn)) fun s' h => keeps_ok (h : Q (true, s'))
    exact hStore hCan hIn hSt hNone hRec
  have hSt : ((s.stn rs).inLSQ && s.isStore rs) = false := Bool.eq_false_iff.mpr hSt
  refine keeps_ite (fun _ => ?_) fun hClass => ?_
  · refine Keeps.bind (fuGet_keeps (Q := fun fu => ∀ fu', fu = some fu' → Available fu' s) (by simp)
      (by rintro fu ⟨h₁, h₂, h₃, h₄⟩ _ ⟨⟩; exact ⟨h₁, h₂, h₃, h₄⟩)) fun fu hFu => ?_
    cases fu with
    | some fu =>
      obtain ⟨h₁, h₂, h₃, h₄⟩ := hFu fu rfl
      refine Keeps.bind (issueOnUnit_keeps ⟨h₁, h₂, h₃, h₄⟩ hCan.completed
        (fun id rest when busy accepts caches hStarts => ?_) (fun hLate => hPast hLate.requeued) hOut)
        fun s' h => keeps_ok (h : Q (true, s'))
      obtain ⟨h₁, h₂, h₃, hUnits, h₅⟩ := hStarts
      refine hStart id rest when busy accepts caches hCan hSt ⟨h₁, h₂, h₃, ?_, h₅⟩
      cases hUnits with
      | none => exact .none
      | unit h => exact .unit ⟨h.1, h.2, h.3, h.4⟩
    | none =>
      refine Keeps.bind (readyqEnqueue_keeps (fun id rest _ hFree => ?_)
        (fun h => absurd h (by simp)) hOut) fun s' h => keeps_ok (h : Q (false, s'))
      exact hBack id rest hCan hSt hFree
  · -- an operation of no class is no load
    refine Keeps.bind (eventqQueueEvent_keeps (fun id rest _ hWhen hFree => ?_)
      (fun h => absurd h (by simp [hCan.completed])) (fun hWhen => ?_) hOut)
      fun s' h => keeps_ok (h : Q (true, s'))
    swap
    · change (s.simCycle : Int) + 1 ≤ s.simCycle at hWhen
      omega
    have hQ := hStart id rest (s.simCycle + 1) s.busy s.accepts s.caches hCan hSt
      ⟨hWhen, by omega, hFree, .none, .refl _⟩
    have hLoads : startedLoads cfg rs s = s.loads := by
      cases rs with
      | ruu i => rfl
      | lsq i =>
        refine if_neg fun hLoad => ?_
        exact Opcode.load_fuClass _ (Bool.and_eq_true_iff.mp hLoad).2 (not_not.mp hClass)
    simpa only [started, hLoads] using hQ

theorem requeue_keeps {node : RSLink Word} (hStale : s.linkValid node = false → Q s)
    (hBack : ∀ id rest, s.linkValid node = true → s.rslinkFreeList = id :: rest →
      Q (putBack id rest node.rs s))
    (hOut : s.rslinkFreeList = [] → A .outOfRsLinks) : Keeps A (requeue node s) Q := by
  refine keeps_ite (fun hValid => ?_) fun hValid => hStale (by simpa using hValid)
  exact readyqEnqueue_keeps (fun id rest _ hFree => hBack id rest hValid hFree)
    (fun h => absurd h (by simp)) hOut

theorem requeueAll_keeps {I : List (RSLink Word) → State env → Prop}
    (hRequeue : ∀ node nodes s, I (node :: nodes) s →
      Keeps A (requeue node s) fun s' => I nodes (rslinkFree node.id s')) :
    ∀ {nodes : List (RSLink Word)} {s : State env}, I nodes s →
      Keeps A (requeueAll nodes s) (I []) := by
  intro nodes
  induction nodes with
  | nil => intro s hs; exact keeps_ok hs
  | cons node nodes ih =>
    intro s hs
    exact Keeps.bind (hRequeue node nodes s hs) fun s' hs' => ih hs'

/-- Both loops of `ruu_issue`: an invariant of the nodes that are left carries over. -/
theorem issueLoop_keeps {I : List (RSLink Word) → State env → Prop}
    (hIssue : ∀ node nodes s, I (node :: nodes) s →
      Keeps A (issueLink cfg node s) fun r => I nodes (rslinkFree node.id r.2))
    (hRequeue : ∀ node nodes s, I (node :: nodes) s →
      Keeps A (requeue node s) fun s' => I nodes (rslinkFree node.id s')) :
    ∀ {nodes : List (RSLink Word)} {width : Nat} {s : State env}, I nodes s →
      Keeps A (issueLoop cfg nodes width s) (I []) := by
  intro nodes
  induction nodes with
  | nil => intro width s hs; exact keeps_ok hs
  | cons node nodes ih =>
    intro width s hs
    cases width with
    | zero => exact requeueAll_keeps hRequeue hs
    | succ width => exact Keeps.bind (hIssue node nodes s hs) fun r hr => ih hr

/-! ### Load scheduling -/

theorem refreshLoad_keeps {std : List Word}
    (hSkip : (waitingLoad rs s && !std.contains (s.stn rs).addr) = false → Q s)
    (hOk : ∀ id rest, waitingLoad rs s = true → (s.stn rs).addr ∉ std →
      s.rslinkFreeList = id :: rest → Q (enqueued id rest rs s))
    (hOut : waitingLoad rs s = true → (s.stn rs).addr ∉ std → s.rslinkFreeList = [] →
      A .outOfRsLinks) : Keeps A (refreshLoad rs std s) Q := by
  refine keeps_ite (fun hGo => ?_) fun hGo => hSkip (by simpa using hGo)
  obtain ⟨hWait, hFree⟩ := Bool.and_eq_true_iff.mp hGo
  have hFree : (s.stn rs).addr ∉ std := by simpa using hFree
  refine readyqEnqueue_keeps (fun id rest _ => hOk id rest hWait hFree) (fun hQ => ?_)
    (hOut hWait hFree)
  simp [waitingLoad, hQ] at hWait

theorem lsqRefreshLoop_keeps {J : Nat → Nat → List Word → State env → Prop}
    (hEnd : ∀ i std s, J 0 i std s → Q s)
    (hStop : ∀ n i std s, J (n + 1) i std s → refreshStore (.lsq i) std s = .ok none → Q s)
    (hStep : ∀ n i std std' s, J (n + 1) i std s → refreshStore (.lsq i) std s = .ok (some std') →
      Keeps A (refreshLoad (.lsq i) std' s) fun s' => J n ((i + 1) % cfg.lsqSize) std' s')
    (hFull : ∀ n i std s, J (n + 1) i std s → std.length = maxStdUnknowns →
      s.isStore (.lsq i) = true → s.storeAddrReady (.lsq i) = true →
      s.operandsReady (.lsq i) = false → A .stdUnknownOverflow) :
    ∀ {n i : Nat} {std : List Word} {s : State env}, J n i std s →
      Keeps A (lsqRefreshLoop cfg n i std s) Q := by
  intro n
  induction n with
  | zero => intro i std s hs; exact keeps_ok (hEnd i std s hs)
  | succ n ih =>
    intro i std s hs
    rw [lsqRefreshLoop]
    have hStore : Keeps A (refreshStore (.lsq i) std s) fun o =>
        refreshStore (.lsq i) std s = .ok o := by
      unfold refreshStore
      by_cases hSt : s.isStore (.lsq i)
      · by_cases hAddr : s.storeAddrReady (.lsq i)
        · by_cases hOps : s.operandsReady (.lsq i)
          · simp [hSt, hAddr, hOps, Keeps]
          · by_cases hLen : std.length = maxStdUnknowns
            · simp only [hSt, hAddr, hOps, hLen, if_true, Bool.not_true, Bool.false_eq_true,
                if_false, Bool.not_false]
              exact keeps_check (hFull n i std s hs hLen hSt hAddr (by simpa using hOps))
            · simp [hSt, hAddr, hOps, hLen, Keeps]
        · simp [hSt, hAddr, Keeps]
      · simp [hSt, Keeps]
    refine Keeps.bind hStore fun o hO => ?_
    cases o with
    | none => exact keeps_ok (hStop n i std s hs hO)
    | some std' => exact Keeps.bind (hStep n i std std' s hs hO) fun s' hs' => ih hs'

end SimpleScalar.Outorder

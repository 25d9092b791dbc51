import SimpleScalar.Outorder.Frontend

/-!
# What dispatch adds to the pipeline

`Allocated` lists the steps in which an instruction gets its entries.  `Entered` sums
them up: the entries follow the older ones in program order, each operand is ready or is
linked to the youngest older producer that has not completed, an entry that waits for
nothing is on the ready queue, and everything else is as before.

* `Allocated.entered`: the sum of the steps.
* `DispatchStep.entered`: the same for a whole iteration of `ruu_dispatch`.
* `renaming_exact`: register renaming is exact.
-/

namespace SimpleScalar.Outorder

open List
open Function (update_apply update_eq_self update_of_ne update_self)

variable {env : Env} {cfg : Config} {s s' : State env}

/-! ### Producers -/

/-- The output that an operand waits for: the youngest declaration of its name by the
stations `P`, unless that station has completed. -/
def producer (s : State env) (P : List Ref) (name : Nat) : Option CVLink :=
  if name = NA then none
  else Rename.lookup (fun p => s.completed p.1) (decls s.stn P) name

variable {P : List Ref}

theorem producer_congr
    (hStn : ∀ r ∈ P, (s'.stn r).onames = (s.stn r).onames ∧
      (s'.stn r).specMode = (s.stn r).specMode)
    (hC : ∀ r ∈ P, s'.completed r = s.completed r) (name : Nat) :
    producer s' P name = producer s P name := by
  have hLookup : Rename.lookup (fun p : CVLink => s'.completed p.1) (decls s.stn P) name =
      Rename.lookup (fun p => s.completed p.1) (decls s.stn P) name :=
    Rename.lookup_congr fun d hd => hC _ (key_mem hd)
  unfold producer
  rw [decls_congr hStn, hLookup]

/-- A producer is one of the stations, and it has not completed. -/
theorem mem_of_producer {name : Nat} {q : CVLink}
    (h : producer s P name = some q) : q.1 ∈ P ∧ s.completed q.1 = false := by
  unfold producer at h
  split at h
  · cases h
  · obtain ⟨d, hd, rfl, _, hC⟩ := Rename.mem_of_lookup h
    exact ⟨key_mem hd, hC⟩

variable {E : List Ref}

/-- The create vector names the producers. -/
theorem Base.producerOf (h : Base cfg ⟨fun _ => false, decls s.stn E, [], []⟩ s)
    (name : Nat) : s.producerOf name = producer s (s.rob.prog cfg ++ E) name := by
  have hRead : s.createVectorAt name = _ := h.names.exact.read name
  have hDone : broadcastDone s.completed (fun _ => false) = fun p => s.completed p.1 := by
    funext p
    simp [broadcastDone]
  unfold State.producerOf producer
  rw [hRead, decls_append, hDone]

/-- The entries in front of `e`. -/
def older (P : List Ref) (e : Ref) : List Ref := P.takeWhile (· ≠ e)

theorem older_append {P Q : List Ref} {e : Ref} (he : e ∉ P) : older (P ++ e :: Q) e = P := by
  unfold older
  rw [takeWhile_append_of_pos fun a ha => by
    simpa using fun hEq : a = e => he (hEq ▸ ha)]
  simp

/-! ### The new entries -/

/-- The entries of an instruction. -/
def newEntries (i : Insn env) (s : State env) : List Ref :=
  if i.op = .nop then []
  else if i.op.has F.mem then [.ruu s.ruuTail, .lsq s.lsqTail] else [.ruu s.ruuTail]

/-- The names of the operands, entry by entry: the address computation takes the address
registers, the access waits for the address and takes the data register. -/
def Insn.inputs (i : Insn env) : Ref → Fin 3 → Nat
  | .ruu _ => if i.op.has F.mem then inputNames NA i.in2 i.in3 else inputNames i.in1 i.in2 i.in3
  | .lsq _ => inputNames i.in1 DTMP NA

/-- The entries `E` have been added. -/
structure Entered (cfg : Config) (E : List Ref) (names : Ref → Fin 3 → Nat) (s s' : State env) :
    Prop where
  prog : s'.rob.prog cfg = s.rob.prog cfg ++ E
  dead : ∀ e ∈ E, e ∉ s.rob.prog cfg
  tag : s'.tag = s.tag
  gen : s'.gen = s.gen
  simCycle : s'.simCycle = s.simCycle
  eventQueue : s'.eventQueue = s.eventQueue
  loads : s'.loads = s.loads
  stn : ∀ r ∉ E, s'.stn r = s.stn r
  spec : ∀ e ∈ E, (s'.stn e).specMode = s.specMode
  branch : ∀ e ∈ E, (s'.stn e).recoverInst = true → (s'.stn e).specMode = false
  access : ∀ e ∈ E, (s'.stn e).inLSQ = true → (s'.stn e).op.has F.mem = true
  queued : ∀ r ∉ E, s'.queued r = s.queued r
  issued : ∀ r, s'.issued r = if r ∈ E then false else s.issued r
  completed : ∀ r, s'.completed r = if r ∈ E then false else s.completed r
  idepReady : ∀ r k, s'.idepReady (r, k) =
    if r ∈ E then (producer s' (older (s'.rob.prog cfg) r) (names r k)).isNone
    else s.idepReady (r, k)
  ready : ∀ e ∈ E, s'.queued e = (s'.operandsReady e && (!(s'.stn e).inLSQ || s'.isStore e))
  lists : ∀ q, ∃ new, s'.odepList q = new ++ s.odepList q ∧
    (∀ l ∈ new, l.rs ∈ E ∧ l.tag = s.tag l.rs ∧ l.gen = s.gen l.rs) ∧
    ∀ e ∈ E, ∀ k, new.countP (fun l => l.rs = e ∧ l.x = k) =
      if producer s' (older (s'.rob.prog cfg) e) (names e k) = some q then 1 else 0
  nodes : ∃ new, s'.readyQueue.Perm (new ++ s.readyQueue) ∧
    (∀ l ∈ new, l.rs ∈ E ∧ l.tag = s.tag l.rs ∧ l.gen = s.gen l.rs) ∧
    ∀ e ∈ E, new.countP (fun l => l.rs = e) = if s'.queued e then 1 else 0
  units : s'.busy = s.busy ∧ s'.accepts = s.accepts ∧ s'.caches = s.caches
  stay : E = [] → s'.lastOp = s.lastOp
  last : ∀ e ∈ E.getLast?, s'.lastOp =
    if !(s'.stn e).inLSQ && s'.operandsReady e then none else some (e, s'.tag e)

variable {r : Ref}

variable {b : Bool}

/-- What a station that is queued if it is ready adds to the ready queue. -/
theorem Queues.sum (h : Queues b r s s') (hQ : s.queued r = false) :
    ∃ f rq new, s' = { s with
        queued := Function.update s.queued r b, rslinkFreeList := f, readyQueue := rq } ∧
      rq.Perm (new ++ s.readyQueue) ∧ (∀ l ∈ new, l.rs = r ∧ l.tag = s.tag r ∧ l.gen = s.gen r) ∧
      new.length = if b then 1 else 0 := by
  cases h with
  | wait hReady =>
    refine ⟨s.rslinkFreeList, s.readyQueue, [], ?_, List.Perm.refl _, by simp, by simp [hReady]⟩
    rw [hReady, ← hQ, update_eq_self]
  | @queue id rest hReady _ hFree =>
    refine ⟨rest, insertReady (goesFirst (s.stn r)) (newLink id r (s.stn r).seq s) s.readyQueue,
      [newLink id r (s.stn r).seq s], ?_, insertReady_perm .., ?_, by simp [hReady]⟩
    · rw [hReady]
      rfl
    · intro l hl
      rw [mem_singleton.mp hl]
      exact ⟨rfl, rfl, rfl⟩

variable {new : List (RSLink (Fin 3))}

/-- Of the three operands, each leaves at most one link. -/
theorem countP_filter_operands {p : Fin 3 → Bool}
    (h : new.map RSLink.x = ([2, 1, 0] : List (Fin 3)).filter p) (k : Fin 3) :
    new.countP (fun l => l.x = k) = if p k then 1 else 0 := by
  have hCount : new.countP (fun l => l.x = k) = (new.map RSLink.x).count k := by
    rw [List.count, countP_map]
    rfl
  rw [hCount, h]
  split
  · rename_i hp
    rw [count_filter hp]
    fin_cases k <;> rfl
  · rename_i hp
    exact count_eq_zero_of_not_mem fun hMem => hp (mem_filter.mp hMem).2

theorem mem_operands (k : Fin 3) : k ∈ ([2, 1, 0] : List (Fin 3)) := by
  fin_cases k <;> simp

theorem countP_of_rs (h : ∀ l ∈ new, l.rs = r) (k : Fin 3) :
    new.countP (fun l => l.rs = r ∧ l.x = k) = new.countP (fun l => l.x = k) :=
  countP_congr fun l hl => by simp [h l hl]

variable {r r' : Ref}

theorem countP_eq_zero_of_rs (h : ∀ l ∈ new, l.rs = r)
    (hne : r ≠ r') {k : Fin 3} : new.countP (fun l => l.rs = r' ∧ l.x = k) = 0 :=
  countP_eq_zero.mpr fun l hl => by simp [h l hl, hne]

variable {new : List (RSLink Word)}

theorem countP_rs_eq_length (h : ∀ l ∈ new, l.rs = r) :
    new.countP (fun l => l.rs = r) = new.length :=
  countP_eq_length.mpr fun l hl => by simp [h l hl]

theorem countP_rs_eq_zero (h : ∀ l ∈ new, l.rs = r)
    (hne : r ≠ r') : new.countP (fun l => l.rs = r') = 0 :=
  countP_eq_zero.mpr fun l hl => by simp [h l hl, hne]

variable {i : Insn env}

variable {lastOp : Option (Ref × Word)}

/-- The entry of an operation that is no load and no store. -/
theorem Entered.op {s₁ s₂ : State env} (h : Base cfg {} s)
    (hRoom : s.ruuNum < cfg.ruuSize) (hMem : i.op.has F.mem = false)
    (hFrame : LinkFrame (.ruu s.ruuTail) (outputNames i.out1 i.out2) (fillRuu i s) s₁)
    (hLinked : Linked (.ruu s.ruuTail) (inputNames i.in1 i.in2 i.in3) [2, 1, 0] (fillRuu i s) s₁)
    (hBase : Base cfg ⟨fun _ => false, declsOf s₁.stn (.ruu s.ruuTail), [], []⟩ s₁)
    (hQueues : Queues ((advanceRuu cfg s₁).operandsReady (.ruu s.ruuTail)) (.ruu s.ruuTail)
      (advanceRuu cfg s₁) s₂)
    (hLast : lastOp = if s₁.operandsReady (.ruu s.ruuTail) then none
      else some (.ruu s.ruuTail, s₁.tag (.ruu s.ruuTail))) :
    Entered cfg [.ruu s.ruuTail] i.inputs s { s₂ with lastOp := lastOp } := by
  have hDead : Ref.ruu s.ruuTail ∉ s.rob.prog cfg := h.queue.tailRuu_not_mem hRoom
  have hSelf : s₁.stn (.ruu s.ruuTail) =
      { ruuStation i s with onames := outputNames i.out1 i.out2 } := by
    rw [hFrame.self]
    simp [fillRuu, fill]
  have hStn : ∀ r, r ≠ .ruu s.ruuTail → s₁.stn r = s.stn r := fun r hr => by
    rw [hFrame.stn_of_ne hr]
    simp [fillRuu, fill, hr]
  have hProg₁ : s₁.rob.prog cfg = s.rob.prog cfg :=
    (hFrame.prog cfg).trans (h.fillRuu hRoom i).2.1
  obtain ⟨idep, f, o, u, c, d, hs₁⟩ := hFrame
  have hQ₁ : s₁.queued (.ruu s.ruuTail) = false := by
    rw [hs₁]
    exact update_self ..
  obtain ⟨f', rq, new, rfl, hPerm, hNew, hLen⟩ := hQueues.sum hQ₁
  have hTail : s₁.ruuTail = s.ruuTail := by rw [hs₁]; rfl
  have hProg : (s₁.rob.pushRuu cfg).prog cfg = s.rob.prog cfg ++ [.ruu s.ruuTail] := by
    have hPush := (hBase.queue.pushOp (by rw [hs₁]; exact hRoom) (by
      show (s₁.stn (.ruu s₁.ruuTail)).eaComp = false
      rw [hTail, hSelf]
      exact hMem)).2
    rw [hPush, hProg₁]
    show _ ++ [Ref.ruu s₁.ruuTail] = _
    rw [hTail]
  have hIssued : s₁.issued = Function.update s.issued (.ruu s.ruuTail) false := by rw [hs₁]; rfl
  have hCompleted : s₁.completed = Function.update s.completed (.ruu s.ruuTail) false := by
    rw [hs₁]; rfl
  have hOlder : older ((s₁.rob.pushRuu cfg).prog cfg) (.ruu s.ruuTail) = s.rob.prog cfg := by
    rw [hProg]
    exact older_append hDead
  have hNe : ∀ r ∈ s.rob.prog cfg, r ≠ .ruu s.ruuTail := fun r hr hEq => hDead (hEq ▸ hr)
  have hProducer : ∀ {t : State env}, t.stn = s₁.stn → t.completed = s₁.completed → ∀ name,
      producer t (s.rob.prog cfg) name = (fillRuu i s).producerOf name := by
    intro t hStn' hC' name
    have hRead := h.producerOf (E := []) name
    rw [append_nil] at hRead
    refine (producer_congr (fun r hr => ?_) (fun r hr => ?_) name).trans hRead.symm
    · rw [hStn', hStn r (hNe r hr)]
      exact ⟨rfl, rfl⟩
    · rw [hC', hCompleted, update_of_ne (hNe r hr)]
  have hInputs : i.inputs (.ruu s.ruuTail) = inputNames i.in1 i.in2 i.in3 := by
    simp [Insn.inputs, hMem]
  refine ⟨hProg, by simpa using hDead, by rw [hs₁]; rfl, by rw [hs₁]; rfl, by rw [hs₁]; rfl,
    by rw [hs₁]; rfl, by rw [hs₁]; rfl, fun r hr => hStn r (by simpa using hr), ?_, ?_, ?_, ?_, ?_,
    ?_, ?_, ?_, ?_, ?_, by rw [hs₁]; exact ⟨rfl, rfl, rfl⟩, by simp, ?_⟩
  · intro e he
    rw [mem_singleton.mp he]
    show (s₁.stn (.ruu s.ruuTail)).specMode = _
    rw [hSelf]
    rfl
  · intro e he
    rw [mem_singleton.mp he]
    show (s₁.stn (.ruu s.ruuTail)).recoverInst = true → _
    rw [hSelf]
    exact fun h => absurd h (by simp [ruuStation])
  · intro e he
    rw [mem_singleton.mp he]
    show (s₁.stn (.ruu s.ruuTail)).inLSQ = true → _
    rw [hSelf]
    exact fun h => absurd h (by simp [ruuStation])
  · intro r hr
    have hr : r ≠ .ruu s.ruuTail := by simpa using hr
    show Function.update s₁.queued _ _ r = _
    rw [update_of_ne hr, hs₁]
    exact update_of_ne (f := s.queued) hr _
  · intro r
    show s₁.issued r = _
    rw [hIssued, update_apply]
    simp
  · intro r
    show s₁.completed r = _
    rw [hCompleted, update_apply]
    simp
  · intro r k
    show s₁.idepReady (r, k) = _
    split
    · rename_i hr
      rw [mem_singleton.mp hr, hLinked.ready k (mem_operands k), hInputs]
      exact congrArg Option.isNone ((congrArg (fun P => producer _ P _) hOlder).trans
        (hProducer rfl rfl _)).symm
    · rename_i hr
      exact hLinked.other r k fun hEq => absurd (mem_singleton.mpr hEq) hr
  · intro e he
    rw [mem_singleton.mp he]
    show Function.update s₁.queued (.ruu s.ruuTail) _ (.ruu s.ruuTail) =
      (_ && (!(s₁.stn (.ruu s.ruuTail)).inLSQ || _))
    rw [update_self, hSelf]
    simp [ruuStation]
    rfl
  · intro q
    obtain ⟨links, hLists, hCur, hMap⟩ := hLinked.lists q
    refine ⟨links, hLists, fun l hl => ?_, fun e he k => ?_⟩
    · obtain ⟨hRs, hTag, hGen⟩ := hCur l hl
      rw [hRs]
      exact ⟨by simp, hTag, hGen⟩
    · rw [mem_singleton.mp he, countP_of_rs fun l hl => (hCur l hl).1,
        countP_filter_operands hMap, hInputs]
      refine if_congr ?_ rfl rfl
      rw [decide_eq_true_eq, ← hProducer (t := { s₁ with lastOp := lastOp }) rfl rfl, ← hOlder]
      rfl
  · have hReadyQueue : s₁.readyQueue = s.readyQueue := by rw [hs₁]; rfl
    refine ⟨new, by rw [← hReadyQueue]; exact hPerm, fun l hl => ?_, fun e he => ?_⟩
    · obtain ⟨hRs, hTag, hGen⟩ := hNew l hl
      rw [hRs]
      refine ⟨by simp, hTag.trans ?_, hGen.trans ?_⟩
      · rw [hs₁]; rfl
      · rw [hs₁]; rfl
    · rw [mem_singleton.mp he]
      show _ = if Function.update s₁.queued (.ruu s.ruuTail) _ (.ruu s.ruuTail) then 1 else 0
      rw [update_self, ← hLen, countP_eq_length]
      exact fun l hl => by simpa using (hNew l hl).1
  · intro e he
    obtain rfl : Ref.ruu s.ruuTail = e := by simpa using he
    show lastOp = if !(s₁.stn (.ruu s.ruuTail)).inLSQ && _ then _ else _
    rw [hLast, hSelf]
    rfl

/-- The two entries of a load or a store. -/
theorem Entered.mem {s₁ s₂ s₃ s₄ : State env} (h : Base cfg {} s)
    (hRoom : s.ruuNum < cfg.ruuSize) (hRoomL : s.lsqNum < cfg.lsqSize)
    (hMem : i.op.has F.mem = true)
    (hFrame : LinkFrame (.ruu s.ruuTail) (outputNames DTMP NA) (fillLsq i (fillRuu i s)) s₁)
    (hLinked : Linked (.ruu s.ruuTail) (inputNames NA i.in2 i.in3) [2, 1, 0]
      (fillLsq i (fillRuu i s)) s₁)
    (hBase : Base cfg ⟨fun _ => false, declsOf s₁.stn (.ruu s.ruuTail), [], []⟩ s₁)
    (hFrameL : LinkFrame (.lsq s.lsqTail) (outputNames i.out1 i.out2) s₁ s₂)
    (hLinkedL : Linked (.lsq s.lsqTail) (inputNames i.in1 DTMP NA) [2, 1, 0] s₁ s₂)
    (hBaseL : Base cfg ⟨fun _ => false,
      declsOf s₁.stn (.ruu s.ruuTail) ++ declsOf s₂.stn (.lsq s.lsqTail), [], []⟩ s₂)
    (hQueues : Queues ((advanceLsq cfg (advanceRuu cfg s₂)).operandsReady (.ruu s.ruuTail))
      (.ruu s.ruuTail) (advanceLsq cfg (advanceRuu cfg s₂)) s₃)
    (hQueuesL : Queues (i.op.has (F.mem ||| F.store) && s₃.operandsReady (.lsq s.lsqTail))
      (.lsq s.lsqTail) { s₃ with lastOp := lastOp } s₄)
    (hLast : lastOp = some (.lsq s.lsqTail, s₃.tag (.lsq s.lsqTail))) :
    Entered cfg [.ruu s.ruuTail, .lsq s.lsqTail] i.inputs s s₄ := by
  have hDead : Ref.ruu s.ruuTail ∉ s.rob.prog cfg := h.queue.tailRuu_not_mem hRoom
  have hDeadL : Ref.lsq s.lsqTail ∉ s.rob.prog cfg := h.queue.tailLsq_not_mem hRoomL
  have hRL : Ref.ruu s.ruuTail ≠ .lsq s.lsqTail := by simp
  have hStn₁ : ∀ r, r ≠ .ruu s.ruuTail → r ≠ .lsq s.lsqTail → s₁.stn r = s.stn r := by
    intro r hr hl
    rw [hFrame.stn_of_ne hr]
    simp [fillLsq, fillRuu, fill, hr, hl]
  have hSelf : s₂.stn (.ruu s.ruuTail) = { ruuStation i s with onames := outputNames DTMP NA } := by
    rw [hFrameL.stn_of_ne hRL, hFrame.self]
    simp [fillLsq, fillRuu, fill]
  have hSelfL : s₂.stn (.lsq s.lsqTail) =
      { lsqStation i (fillRuu i s) with onames := outputNames i.out1 i.out2 } := by
    rw [hFrameL.self, hFrame.stn_of_ne hRL.symm]
    simp [fillLsq, fillRuu, fill]
  have hPartner : Partner s₂.stn (.ruu s.ruuTail) (.lsq s.lsqTail) := by
    constructor <;> rw [hSelfL] <;> first | rw [hSelf]; rfl | rfl
  have hProg₁ : s₁.rob.prog cfg = s.rob.prog cfg := by
    obtain ⟨hBase₁, hProgR, _⟩ := h.fillRuu hRoom i
    exact ((hFrame.prog cfg).trans (hBase₁.fillLsq hRoomL i).2.1).trans hProgR
  have hProg₂ : s₂.rob.prog cfg = s.rob.prog cfg := (hFrameL.prog cfg).trans hProg₁
  have hStn₂ : ∀ r, r ≠ .lsq s.lsqTail → s₂.stn r = s₁.stn r := fun r => hFrameL.stn_of_ne
  obtain ⟨idep, f, o, u, c, d, hs₁⟩ := hFrame
  obtain ⟨idep', f', o', u', c', d', hs₂⟩ := hFrameL
  have hQueued : s₂.queued = Function.update (Function.update s.queued (.ruu s.ruuTail) false)
      (.lsq s.lsqTail) false := by rw [hs₂, hs₁]; rfl
  obtain ⟨f₃, rq₃, new, hs₃, hPerm, hNew, hLen⟩ := hQueues.sum (by
    show s₂.queued _ = false
    simp [hQueued])
  have hQueued₃ : s₃.queued = Function.update s₂.queued (.ruu s.ruuTail)
      ((advanceLsq cfg (advanceRuu cfg s₂)).operandsReady (.ruu s.ruuTail)) := by rw [hs₃]; rfl
  obtain ⟨f₄, rq₄, newL, hs₄, hPermL, hNewL, hLenL⟩ := hQueuesL.sum (by
    show s₃.queued _ = false
    simp [hQueued₃, hQueued])
  have hQueued₄ : s₄.queued = Function.update s₃.queued (.lsq s.lsqTail)
      (i.op.has (F.mem ||| F.store) && s₃.operandsReady (.lsq s.lsqTail)) := by rw [hs₄]
  have hRob₄ : s₄.rob = (s₂.rob.pushRuu cfg).pushLsq cfg := by rw [hs₄, hs₃]; rfl
  have hStn₄ : s₄.stn = s₂.stn := congrArg Rob.stn hRob₄
  have hIdep₄ : s₄.idepReady = s₂.idepReady := by rw [hs₄, hs₃]; rfl
  have hIssued₄ : s₄.issued = s₂.issued := by rw [hs₄, hs₃]; rfl
  have hCompleted₄ : s₄.completed = s₂.completed := by rw [hs₄, hs₃]; rfl
  have hReady₄ : ∀ r, s₄.operandsReady r = s₂.operandsReady r := fun r => by
    unfold State.operandsReady
    rw [hIdep₄]
  have hQueuedR : s₄.queued (.ruu s.ruuTail) = s₂.operandsReady (.ruu s.ruuTail) := by
    rw [hQueued₄, update_of_ne hRL, hQueued₃, update_self]
    rfl
  have hQueuedL : s₄.queued (.lsq s.lsqTail) =
      (i.op.has (F.mem ||| F.store) && s₂.operandsReady (.lsq s.lsqTail)) := by
    rw [hQueued₄, update_self, hs₃]
    rfl
  have hTail : s₂.ruuTail = s.ruuTail := by rw [hs₂, hs₁]; rfl
  have hTailL : s₂.lsqTail = s.lsqTail := by rw [hs₂, hs₁]; rfl
  have hProg : ((s₂.rob.pushRuu cfg).pushLsq cfg).prog cfg =
      s.rob.prog cfg ++ [.ruu s.ruuTail, .lsq s.lsqTail] := by
    have hPush := (hBaseL.queue.pushMem (by rw [hs₂, hs₁]; exact hRoom)
      (by rw [hs₂, hs₁]; exact hRoomL) (by
        show (s₂.stn (.ruu s₂.ruuTail)).eaComp = true
        rw [hTail, hSelf]
        exact hMem) (by
        show Partner s₂.stn (.ruu s₂.ruuTail) (.lsq s₂.lsqTail)
        rw [hTail, hTailL]
        exact hPartner)).2
    rw [hPush, hProg₂]
    show _ ++ [Ref.ruu s₂.ruuTail, Ref.lsq s₂.lsqTail] = _
    rw [hTail, hTailL]
  have hIssued : s₂.issued = Function.update (Function.update s.issued (.ruu s.ruuTail) false)
      (.lsq s.lsqTail) false := by rw [hs₂, hs₁]; rfl
  have hCompleted : s₂.completed = Function.update
      (Function.update s.completed (.ruu s.ruuTail) false) (.lsq s.lsqTail) false := by
    rw [hs₂, hs₁]; rfl
  have hCompleted₁ : s₂.completed = s₁.completed := by rw [hs₂]
  have hOlder : older (((s₂.rob.pushRuu cfg).pushLsq cfg).prog cfg) (.ruu s.ruuTail) =
      s.rob.prog cfg := by
    rw [hProg]
    exact older_append hDead
  have hOlderL : older (((s₂.rob.pushRuu cfg).pushLsq cfg).prog cfg) (.lsq s.lsqTail) =
      s.rob.prog cfg ++ [.ruu s.ruuTail] := by
    rw [hProg, append_cons]
    exact older_append (by simp [hDeadL])
  have hNe : ∀ r ∈ s.rob.prog cfg, r ≠ .ruu s.ruuTail ∧ r ≠ .lsq s.lsqTail := fun r hr =>
    ⟨fun hEq => hDead (hEq ▸ hr), fun hEq => hDeadL (hEq ▸ hr)⟩
  have hProducer : ∀ {t : State env}, t.stn = s₂.stn → t.completed = s₂.completed → ∀ name,
      producer t (s.rob.prog cfg) name = (fillLsq i (fillRuu i s)).producerOf name := by
    intro t hStn' hC' name
    have hRead := h.producerOf (E := []) name
    rw [append_nil] at hRead
    refine (producer_congr (fun r hr => ?_) (fun r hr => ?_) name).trans hRead.symm
    · rw [hStn', hStn₂ r (hNe r hr).2, hStn₁ r (hNe r hr).1 (hNe r hr).2]
      exact ⟨rfl, rfl⟩
    · rw [hC', hCompleted, update_of_ne (hNe r hr).2, update_of_ne (hNe r hr).1]
  have hProducerL : ∀ {t : State env}, t.stn = s₂.stn → t.completed = s₂.completed → ∀ name,
      producer t (s.rob.prog cfg ++ [.ruu s.ruuTail]) name = s₁.producerOf name := by
    intro t hStn' hC' name
    have hExtra : declsOf s₁.stn (.ruu s.ruuTail) = decls s₁.stn [.ruu s.ruuTail] := by
      simp [decls]
    rw [hExtra] at hBase
    have hRead := hBase.producerOf name
    rw [hProg₁] at hRead
    refine (producer_congr (fun r hr => ?_) (fun r hr => ?_) name).trans hRead.symm
    · have hr : r ≠ .lsq s.lsqTail := by
        rcases mem_append.mp hr with hr | hr
        · exact (hNe r hr).2
        · rw [mem_singleton.mp hr]
          exact hRL
      rw [hStn', hStn₂ r hr]
      exact ⟨rfl, rfl⟩
    · rw [hC', hCompleted₁]
  have hInputs : i.inputs (.ruu s.ruuTail) = inputNames NA i.in2 i.in3 := by
    simp [Insn.inputs, hMem]
  have hInputsL : i.inputs (.lsq s.lsqTail) = inputNames i.in1 DTMP NA := rfl
  have hPair : ∀ {r : Ref}, r ∉ [.ruu s.ruuTail, .lsq s.lsqTail] →
      r ≠ .ruu s.ruuTail ∧ r ≠ .lsq s.lsqTail := fun hr => by simpa using hr
  rw [← hRob₄] at hProg hOlder hOlderL
  refine ⟨hProg, ?_, by rw [hs₄, hs₃, hs₂, hs₁]; rfl, by rw [hs₄, hs₃, hs₂, hs₁]; rfl,
    by rw [hs₄, hs₃, hs₂, hs₁]; rfl, by rw [hs₄, hs₃, hs₂, hs₁]; rfl,
    by rw [hs₄, hs₃, hs₂, hs₁]; rfl, fun r hr => ?_, fun e he => ?_, fun e he => ?_,
    fun e he => ?_, fun r hr => ?_, fun r => ?_, fun r => ?_, fun r k => ?_, fun e he => ?_,
    fun q => ?_, ?_, by rw [hs₄, hs₃, hs₂, hs₁]; exact ⟨rfl, rfl, rfl⟩, by simp, fun e he => ?_⟩
  · simp [hDead, hDeadL]
  · obtain ⟨hr, hl⟩ := hPair hr
    rw [hStn₄, hStn₂ r hl, hStn₁ r hr hl]
  · rw [hStn₄]
    rcases mem_pair.mp he with rfl | rfl
    · rw [hSelf]
      rfl
    · rw [hSelfL]
      rfl
  · rw [hStn₄]
    rcases mem_pair.mp he with rfl | rfl
    · rw [hSelf]
      exact fun h => absurd h (by simp [ruuStation])
    · rw [hSelfL]
      exact fun h => absurd h (by simp [lsqStation])
  · rw [hStn₄]
    rcases mem_pair.mp he with rfl | rfl
    · rw [hSelf]
      exact fun h => absurd h (by simp [ruuStation])
    · rw [hSelfL]
      exact fun _ => hMem
  · obtain ⟨hr, hl⟩ := hPair hr
    rw [hQueued₄, update_of_ne hl, hQueued₃, update_of_ne hr, hQueued,
      update_of_ne hl, update_of_ne hr]
  · rw [hIssued₄, hIssued, update_apply, update_apply]
    by_cases hr : r = .ruu s.ruuTail <;> by_cases hl : r = .lsq s.lsqTail <;> simp [hr, hl]
  · rw [hCompleted₄, hCompleted, update_apply, update_apply]
    by_cases hr : r = .ruu s.ruuTail <;> by_cases hl : r = .lsq s.lsqTail <;> simp [hr, hl]
  · rw [hIdep₄]
    split
    · rename_i hr
      rcases mem_pair.mp hr with rfl | rfl
      · rw [hLinkedL.other _ k (by simp), hLinked.ready k (mem_operands k), hOlder, hInputs,
          hProducer hStn₄ hCompleted₄]
      · rw [hLinkedL.ready k (mem_operands k), hOlderL, hInputsL, hProducerL hStn₄ hCompleted₄]
    · rename_i hr
      obtain ⟨hr, hl⟩ := hPair hr
      rw [hLinkedL.other r k (by simp [hl]), hLinked.other r k (by simp [hr])]
      rfl
  · unfold State.isStore
    rw [hReady₄, hStn₄]
    rcases mem_pair.mp he with rfl | rfl
    · rw [hQueuedR, hSelf]
      simp [ruuStation]
    · rw [hQueuedL, hSelfL, Bool.and_comm]
      simp [lsqStation]
  · obtain ⟨links, hLists, hCur, hMap⟩ := hLinked.lists q
    obtain ⟨linksL, hListsL, hCurL, hMapL⟩ := hLinkedL.lists q
    have hOdep₄ : s₄.odepList = s₂.odepList := by rw [hs₄, hs₃]; rfl
    have hTags : s₁.tag = s.tag ∧ s₁.gen = s.gen := by
      rw [hs₁]
      exact ⟨rfl, rfl⟩
    refine ⟨linksL ++ links, ?_, fun l hl => ?_, fun e he k => ?_⟩
    · rw [hOdep₄, hListsL, hLists, append_assoc]
      rfl
    · rcases mem_append.mp hl with hl | hl
      · obtain ⟨hRs, hTag, hGen⟩ := hCurL l hl
        rw [hRs, ← hTags.1, ← hTags.2]
        exact ⟨by simp, hTag, hGen⟩
      · obtain ⟨hRs, hTag, hGen⟩ := hCur l hl
        rw [hRs]
        exact ⟨by simp, hTag, hGen⟩
    · rw [countP_append]
      rcases mem_pair.mp he with rfl | rfl
      · rw [countP_eq_zero_of_rs (fun l hl => (hCurL l hl).1) hRL.symm,
          countP_of_rs fun l hl => (hCur l hl).1, countP_filter_operands hMap, hOlder, hInputs,
          hProducer hStn₄ hCompleted₄, Nat.zero_add]
        simp
      · rw [countP_eq_zero_of_rs (fun l hl => (hCur l hl).1) hRL,
          countP_of_rs fun l hl => (hCurL l hl).1, countP_filter_operands hMapL, hOlderL, hInputsL,
          hProducerL hStn₄ hCompleted₄, Nat.add_zero]
        simp
  · have hReadyQueue : s₂.readyQueue = s.readyQueue := by rw [hs₂, hs₁]; rfl
    have hTags : s₂.tag = s.tag ∧ s₂.gen = s.gen := by
      rw [hs₂, hs₁]
      exact ⟨rfl, rfl⟩
    have hTags₃ : s₃.tag = s.tag ∧ s₃.gen = s.gen := by
      rw [hs₃]
      exact hTags
    have hQueue₃ : s₃.readyQueue = rq₃ := by rw [hs₃]
    refine ⟨newL ++ new, ?_, fun l hl => ?_, fun e he => ?_⟩
    · rw [hs₄, append_assoc, ← hReadyQueue]
      refine hPermL.trans ?_
      show (newL ++ s₃.readyQueue).Perm _
      rw [hQueue₃]
      exact hPerm.append_left newL
    · rcases mem_append.mp hl with hl | hl
      · obtain ⟨hRs, hTag, hGen⟩ := hNewL l hl
        rw [hRs, ← hTags₃.1, ← hTags₃.2]
        exact ⟨by simp, hTag, hGen⟩
      · obtain ⟨hRs, hTag, hGen⟩ := hNew l hl
        rw [hRs, ← hTags.1, ← hTags.2]
        exact ⟨by simp, hTag, hGen⟩
    · rw [countP_append]
      rcases mem_pair.mp he with rfl | rfl
      · rw [hQueuedR, countP_rs_eq_zero (fun l hl => (hNewL l hl).1) hRL.symm, Nat.zero_add,
          countP_rs_eq_length fun l hl => (hNew l hl).1, hLen]
        rfl
      · rw [hQueuedL, countP_rs_eq_zero (fun l hl => (hNew l hl).1) hRL, Nat.add_zero,
          countP_rs_eq_length fun l hl => (hNewL l hl).1, hLenL, hs₃]
        rfl
  · obtain rfl : Ref.lsq s.lsqTail = e := by simpa using he
    rw [hStn₄, hSelfL, hs₄]
    exact hLast

theorem Allocated.entered (hA : Allocated cfg i s s') (h : Base cfg {} s)
    (hRoom : s.ruuNum < cfg.ruuSize) (hRoomL : s.lsqNum < cfg.lsqSize) :
    Entered cfg (newEntries i s) i.inputs s s' := by
  cases hA with
  | nop hNop =>
    rw [newEntries, if_pos hNop]
    exact ⟨(append_nil _).symm, by simp, rfl, rfl, rfl, rfl, rfl, fun _ _ => rfl,
      by simp, by simp, by simp, fun _ _ => rfl, by simp, by simp, by simp, by simp,
      fun q => ⟨[], rfl, by simp, by simp⟩, ⟨[], List.Perm.refl _, by simp, by simp⟩,
      ⟨rfl, rfl, rfl⟩, fun _ => rfl, by simp⟩
  | op lastOp hNop hMem hFrame hLinked hBase hQueues hLast =>
    rw [newEntries, if_neg hNop, if_neg (by simp [hMem])]
    exact .op h hRoom hMem hFrame hLinked hBase hQueues hLast
  | mem lastOp hNop hMem hFrame hLinked hBase hFrameL hLinkedL hBaseL hQueues hQueuesL hLast =>
    rw [newEntries, if_neg hNop, if_pos hMem]
    exact .mem h hRoom hRoomL hMem hFrame hLinked hBase hFrameL hLinkedL hBaseL hQueues
      hQueuesL hLast

theorem Queues.specMode (h : Queues b r s s') : s'.specMode = s.specMode := by
  cases h <;> rfl

theorem LinkFrame.specMode {on : Fin 2 → Nat} (h : LinkFrame r on s s') :
    s'.specMode = s.specMode := by
  obtain ⟨_, _, _, _, _, _, rfl⟩ := h
  rfl

theorem Allocated.specMode (h : Allocated cfg i s s') :
    s'.specMode = s.specMode := by
  cases h with
  | nop => rfl
  | op _ _ _ hFrame _ _ hQueues => exact hQueues.specMode.trans hFrame.specMode
  | mem _ _ _ hFrame _ _ hFrameL _ _ hQueues hQueuesL =>
    have hLinks := hFrameL.specMode.trans hFrame.specMode
    exact (hQueuesL.specMode.trans hQueues.specMode).trans hLinks

/-! ### The whole iteration -/

variable {names : Ref → Fin 3 → Nat}

/-- Execution does not touch the pipeline. -/
theorem Entered.of_executed {op : Opcode} {x : Exec env}
    (h : Entered cfg E names (executed cfg op x (atHead s)) s') : Entered cfg E names s s' := by
  unfold executed at h
  split at h
  · exact { h with }
  · exact { h with }

variable {rs : Option Ref}

/-- What recording can change of a station. -/
theorem RecordFrame.stn (h : RecordFrame rs s s') (r : Ref) :
    s'.stn r = s.stn r ∨ rs = some r ∧ s.specMode = false ∧
      s'.stn r = { s.stn r with recoverInst := true } := by
  obtain ⟨stn', _, _, _, _, _, _, _, rfl, hStn | ⟨hSpec, x, hx, hStn⟩⟩ := h
  · exact .inl (congrFun hStn r)
  · by_cases hr : r = x
    · subst hr
      exact .inr ⟨hx, hSpec, (congrFun hStn r).trans (update_self ..)⟩
    · exact .inl ((congrFun hStn r).trans (update_of_ne hr ..))

theorem Entered.record
    {s₂ : State env} (h : Entered cfg E names s s₂) (hMode : s₂.specMode = s.specMode)
    (hRs : ∀ r, rs = some r → r ∈ E)
    (hRec : RecordFrame rs s₂ s') : Entered cfg E names s s' := by
  have hSame : ∀ r, (s'.stn r).onames = (s₂.stn r).onames ∧
      (s'.stn r).specMode = (s₂.stn r).specMode ∧ (s'.stn r).eaComp = (s₂.stn r).eaComp ∧
      (s'.stn r).inLSQ = (s₂.stn r).inLSQ ∧ (s'.stn r).op = (s₂.stn r).op := by
    intro r
    rcases hRec.stn r with hEq | ⟨_, _, hEq⟩ <;> rw [hEq] <;> exact ⟨rfl, rfl, rfl, rfl, rfl⟩
  have hStn : ∀ r ∉ E, s'.stn r = s.stn r := by
    intro r hr
    rcases hRec.stn r with hEq | ⟨hSome, _⟩
    · rw [hEq, h.stn r hr]
    · exact absurd (hRs r hSome) hr
  have hBranch : ∀ e ∈ E, (s'.stn e).recoverInst = true → (s'.stn e).specMode = false := by
    intro e he hRecover
    rcases hRec.stn e with hEq | ⟨_, hOff, _⟩
    · rw [hEq] at hRecover ⊢
      exact h.branch e he hRecover
    · rw [(hSame e).2.1, h.spec e he, ← hMode, hOff]
  obtain ⟨stn', _, _, _, _, _, _, _, rfl, _⟩ := hRec
  have hProg : Rob.prog { s₂.rob with stn := stn' } cfg = s₂.rob.prog cfg :=
    weave_congr (fun r _ => (hSame r).2.2.1) _
  have hProducer : ∀ P name, producer { s₂ with stn := stn' } P name = producer s₂ P name :=
    fun P name => producer_congr (fun r _ => ⟨(hSame r).1, (hSame r).2.1⟩) (fun _ _ => rfl) name
  refine ⟨hProg.trans h.prog, h.dead, h.tag, h.gen, h.simCycle, h.eventQueue, h.loads, hStn,
    fun e he => (hSame e).2.1.trans (h.spec e he), hBranch, fun e he hIn => ?_,
    h.queued, h.issued, h.completed, fun r k => ?_, fun e he => ?_, fun q => ?_, h.nodes, h.units,
    h.stay, fun e he => ?_⟩
  · exact (hSame e).2.2.2.2 ▸ h.access e he ((hSame e).2.2.2.1.symm.trans hIn)
  · refine (h.idepReady r k).trans ?_
    rw [← hProducer, ← hProg]
    rfl
  · refine (h.ready e he).trans ?_
    obtain ⟨_, _, _, hIn, hOp⟩ := hSame e
    show _ = (_ && (!(stn' e).inLSQ || (stn' e).op.has (F.mem ||| F.store)))
    rw [show (stn' e).inLSQ = (s₂.stn e).inLSQ from hIn, show (stn' e).op = (s₂.stn e).op from hOp]
    rfl
  · obtain ⟨new, hNew, hCur, hCount⟩ := h.lists q
    refine ⟨new, hNew, hCur, fun e he k => ?_⟩
    rw [hCount e he k, ← hProducer, ← hProg]
    rfl
  · refine (h.last e he).trans ?_
    rw [← (hSame e).2.2.2.1]
    rfl

/-- The instruction that an iteration dispatches. -/
def insnAt (cfg : Config) (op : Opcode) (x : Exec env) (s : State env) : Insn env :=
  ⟨s.fetchData s.fetchHead, dispatchOp op, x.nextPC,
    (executed cfg (dispatchOp op) x (atHead s)).predPC, x.addr⟩

theorem newEntries_executed (i : Insn env) (op : Opcode) (x : Exec env) :
    newEntries i (executed cfg op x (atHead s)) = newEntries i s := by
  have hRob : (executed cfg op x (atHead s)).rob = s.rob := executed_rob op x
  have hTail : (executed cfg op x (atHead s)).ruuTail = s.ruuTail := congrArg Rob.ruuTail hRob
  have hTailL : (executed cfg op x (atHead s)).lsqTail = s.lsqTail := congrArg Rob.lsqTail hRob
  unfold newEntries
  rw [hTail, hTailL]

theorem DispatchStep.entered {ld : Segments} {d d' : DispatchLocals} (h : Base cfg {} s)
    (hStep : DispatchStep cfg ld d s (some d', s')) :
    ∃ op x, (s.fetchData s.fetchHead).IR.decode = some op ∧
      Entered cfg (newEntries (insnAt cfg op x s) s) (insnAt cfg op x s).inputs s s' := by
  cases hStep with
  | @inst op x _ s₁ s₂ _ ds hRuu hLsq hNum hGo hOp hTrap hExec hs₁ hAlloc hRecord hRed hDisp hFront =>
    refine ⟨op, x, hOp, ?_⟩
    have hHead : Base cfg {} (atHead s) := { h with }
    have hRob : s₁.rob = s.rob := by
      rw [hs₁]
      exact executed_rob _ _
    rw [hs₁] at hAlloc hRecord hRob
    have hEnter := hAlloc.entered (hHead.executed _ _) ((congrArg Rob.ruuNum hRob).trans_lt hRuu)
      ((congrArg Rob.lsqNum hRob).trans_lt hLsq)
    have hEntries : newEntries (insnAt cfg op x s) (executed cfg (dispatchOp op) x (atHead s)) =
        newEntries (insnAt cfg op x s) s := newEntries_executed _ _ x
    rw [← hEntries]
    refine Entered.of_executed (Entered.record hEnter hAlloc.specMode (fun r hr => ?_) hRecord)
    by_cases hNop : dispatchOp op = .nop
    · rw [if_pos hNop] at hr
      cases hr
    · rw [if_neg hNop] at hr
      cases hr
      show _ ∈ newEntries (insnAt cfg op x s) _
      unfold newEntries
      rw [if_neg (show (insnAt cfg op x s).op ≠ .nop from hNop)]
      split <;> simp

/-! ### Renaming -/

/-- The states between the iterations of `ruu_dispatch`, in any run. -/
inductive Dispatching (cfg : Config) (img : Image) : DispatchLocals → State env → Prop where
  | start {s : State env} (h : Reachable cfg img s) : Dispatching cfg img (dispatchLocals s) s
  | step {d d' : DispatchLocals} {s s' : State env} (h : Dispatching cfg img d s)
      (hRun : dispatchOne cfg img.ld d s = .ok (some d', s')) : Dispatching cfg img d' s'

theorem Dispatching.base {img : Image} {d : DispatchLocals} (h : Dispatching cfg img d s) :
    Base cfg {} s := by
  induction h with
  | start h => exact base_reachable h
  | @step d _ _ _ _ hRun ih =>
    have hKeeps : Keeps Tolerated (dispatchOne cfg img.ld d _) _ := dispatchOne_base trivial ih d
    rw [hRun] at hKeeps
    exact hKeeps.1

end SimpleScalar.Outorder

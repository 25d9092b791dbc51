import SimpleScalar.Outorder.Invariant

/-!
# Commit, writeback, scheduling and issue keep the invariant

Each section has the moves of one stage, as lemmas about `Base`, and the result for
the whole stage.

* `ruuCommit_base`, `ruuWriteback_base`, `lsqRefresh_base`, `ruuIssue_base`
-/

namespace SimpleScalar.Outorder

open List Outcome
open Function (update_eq_self update_of_ne update_self)

variable {env : Env} {cfg : Config} {k : Slack} {s : State env} {A : Check → Prop} {rs : Ref} {id : Nat}
  {op : CVLink → Bool} {loose : List Nat}

/-! ### Speculation -/

variable {r : Ref}

namespace SpecInv

variable {q q' : Rob env} {specMode : Bool} {recoverPC : Word} {completed : Ref → Bool}

/-- The queue, oldest first, is a part on the correct path and a part on the wrong
path. -/
theorem split (h : SpecInv cfg q specMode recoverPC completed) (hQ : QueueInv cfg q) :
    ∃ P₁ P₂, q.prog cfg = P₁ ++ P₂ ∧ (∀ r ∈ P₁, (q.stn r).specMode = false) ∧
      (∀ r ∈ P₂, (q.stn r).specMode = true) ∧ (specMode = false → P₂ = []) := by
  have hSync := hQ.sync
  unfold SpecInv at h
  split at h
  · rename_i hOn
    obtain ⟨pre, b, post, hRuu, _, _, hPre, hPost⟩ := h
    rw [hRuu, append_cons] at hSync
    obtain ⟨L₁, L₂, hLsq, h₁, h₂⟩ := hSync.split
    refine ⟨_, _, ?_, h₁.specMode_weave hPre, h₂.specMode_weave hPost, ?_⟩
    · unfold Rob.prog
      rw [hRuu, hLsq, append_cons, h₁.weave_append]
    · intro hOff
      rw [hOn] at hOff
      cases hOff
  · exact ⟨_, [], (append_nil _).symm, hSync.specMode_weave h.2, by simp, fun _ => rfl⟩

/-- A completed entry at the head is on the correct path. -/
theorem head_settled (h : SpecInv cfg q specMode recoverPC completed) {R : List Ref}
    (hRuu : q.ruu cfg = r :: R) (hC : completed r = true) : (q.stn r).specMode = false := by
  unfold SpecInv at h
  split at h
  · obtain ⟨pre, b, post, hEq, hb, _, hPre, _⟩ := h
    rw [hRuu] at hEq
    cases pre with
    | nil =>
      obtain ⟨rfl, _⟩ := List.cons.inj hEq
      have := ((hb r).mpr rfl).2
      rw [hC] at this
      cases this
    | cons c pre =>
      obtain ⟨rfl, _⟩ := List.cons.inj hEq
      exact hPre r (by simp)
  · exact h.2 r (by simp [hRuu])

/-- It may leave. -/
theorem tail (h : SpecInv cfg q specMode recoverPC completed)
    (hRuu : q.ruu cfg = r :: q'.ruu cfg) (hStn : q'.stn = q.stn) (hC : completed r = true) :
    SpecInv cfg q' specMode recoverPC completed := by
  unfold SpecInv at h ⊢
  rw [hStn]
  split at h
  · rename_i hOn
    rw [if_pos hOn]
    obtain ⟨pre, b, post, hEq, hb, hPC, hPre, hPost⟩ := h
    rw [hRuu] at hEq
    cases pre with
    | nil =>
      obtain ⟨rfl, _⟩ := List.cons.inj hEq
      have := ((hb r).mpr rfl).2
      rw [hC] at this
      cases this
    | cons c pre =>
      obtain ⟨_, hRest⟩ := List.cons.inj hEq
      exact ⟨pre, b, post, hRest, hb, hPC, fun r hr => hPre r (mem_cons_of_mem _ hr), hPost⟩
  · rename_i hOff
    rw [if_neg hOff]
    exact ⟨h.1, fun x hx => h.2 x (by rw [hRuu]; exact mem_cons_of_mem _ hx)⟩

/-- Completing a station that is no mis-predicted branch changes nothing. -/
theorem complete (h : SpecInv cfg q specMode recoverPC completed)
    (hRec : (q.stn rs).recoverInst = false) :
    SpecInv cfg q specMode recoverPC (Function.update completed rs true) := by
  have hSame : ∀ r, Unresolved q.stn (Function.update completed rs true) r ↔
      Unresolved q.stn completed r := by
    intro r
    unfold Unresolved
    by_cases hr : r = rs
    · subst hr
      simp [hRec]
    · rw [update_of_ne hr]
  unfold SpecInv at h ⊢
  simpa only [hSame] using h

end SpecInv

theorem decls_ordered {stn : Ref → Station env} {P₁ P₂ : List Ref}
    (h₁ : ∀ r ∈ P₁, (stn r).specMode = false) (h₂ : ∀ r ∈ P₂, (stn r).specMode = true) :
    (decls stn (P₁ ++ P₂)).Pairwise fun a b => a.spec = true → b.spec = true := by
  have hD₁ : ∀ d ∈ decls stn P₁, d.spec = false := fun d hd => by
    rw [spec_of_mem_decls hd, h₁ _ (key_mem hd)]
  have hD₂ : ∀ d ∈ decls stn P₂, d.spec = true := fun d hd => by
    rw [spec_of_mem_decls hd, h₂ _ (key_mem hd)]
  rw [decls_append, pairwise_append]
  refine ⟨pairwise_of_forall_mem_list fun a ha b _ hSpec => ?_,
    pairwise_of_forall_mem_list fun a _ b hb _ => hD₂ b hb, fun a ha b hb _ => hD₂ b hb⟩
  rw [hD₁ a ha] at hSpec
  cases hSpec

/-! ### Commit -/

theorem settledEntries_cons {q q' : Rob env} (hRuu : q.ruu cfg = r :: q'.ruu cfg)
    (hStn : q'.stn = q.stn) (hSpec : (q.stn r).specMode = false) :
    settledEntries cfg q = (q.stn r).dispatch :: settledEntries cfg q' := by
  simp [settledEntries, hRuu, hStn, hSpec]

variable {completed : Ref → Bool}

/-- Finished entries leave the create vectors alone. -/
theorem NamesInv.retire {P Q : List Ref} {stn : Ref → Station env}
    {odepList : CVLink → List (RSLink (Fin 3))} {cv scv : Nat → Option CVLink} {use : Nat → Bool}
    (h : NamesInv (decls stn (P ++ Q)) (broadcastDone completed fun _ => false) odepList cv scv use)
    (hP : ∀ r ∈ P, completed r = true ∧ (stn r).specMode = false) :
    NamesInv (decls stn Q) (broadcastDone completed fun _ => false) odepList cv scv use := by
  have hExact := h.exact
  rw [decls_append] at hExact
  refine ⟨hExact.retire fun d hd => ?_, fun p hp => ?_⟩
  · obtain ⟨hC, hSpec⟩ := hP _ (key_mem hd)
    exact ⟨by simp [broadcastDone, hC], by rw [spec_of_mem_decls hd, hSpec]⟩
  · obtain ⟨hDone, d, hd, rfl⟩ := h.lists p hp
    rw [decls_append, mem_append] at hd
    rcases hd with hd | hd
    · rw [broadcastDone, (hP _ (key_mem hd)).1] at hDone
      cases hDone
    · exact ⟨hDone, d, hd, rfl⟩

variable {undone : List Dispatch}

theorem Base.names_live (h : Base cfg ⟨op, [], loose, undone⟩ s) :
    NamesInv (decls s.stn (s.rob.prog cfg)) (broadcastDone s.completed op) s.odepList
      s.createVector s.specCreateVector s.useSpecCv := by
  have hNames := h.names
  rwa [append_nil] at hNames

/-- Completed stations have no consumers. -/
theorem Base.odepList_eq_nil (h : Base cfg {} s) (hC : s.completed r = true)
    (i : Fin 2) : s.odepList (r, i) = [] := by
  by_contra hList
  have hDone := (h.names.lists (r, i) hList).1
  simp [broadcastDone, hC] at hDone

theorem Base.retireOp (h : Base cfg {} s) (hNum : s.ruuNum ≠ 0)
    (hC : s.completed (.ruu s.ruuHead) = true) (hEa : (s.stn (.ruu s.ruuHead)).eaComp = false)
    (pred : env.Pred) : Base cfg {} (retiredOp cfg pred s) := by
  obtain ⟨hQ, hProg⟩ := h.queue.retireOp hNum hEa
  have hRuu := Rob.ruu_cons h.queue.ruuHead_lt hNum
  have hSpec := h.spec.head_settled hRuu hC
  refine ⟨hQ, h.spec.tail hRuu rfl hC, ⟨?_, h.hist.order, h.hist.bound⟩, h.links, ?_⟩
  · have hEq := h.hist.eq
    rw [settledEntries_cons hRuu rfl hSpec] at hEq
    exact (append_assoc ..).trans hEq
  · have hNames := h.names_live
    rw [hProg] at hNames
    have hRest := NamesInv.retire (P := [.ruu s.ruuHead]) hNames (by
      rintro r hr
      rw [mem_singleton.mp hr]
      exact ⟨hC, hSpec⟩)
    show NamesInv (decls _ _ ++ []) _ _ _ _ _
    rw [append_nil]
    exact hRest

theorem Base.retireMem (h : Base cfg {} s) (hNum : s.ruuNum ≠ 0)
    (hC : s.completed (.ruu s.ruuHead) = true) (hEa : (s.stn (.ruu s.ruuHead)).eaComp = true)
    (hCL : s.completed (.lsq s.lsqHead) = true) (busy : Nat → Nat) (accepts : List Accept)
    (caches : env.Caches) (pred : env.Pred) :
    Base cfg {} (retiredMem cfg busy accepts caches pred s) := by
  obtain ⟨_, hPartner, hQ, hProg⟩ := h.queue.retireMem hNum hEa
  have hRuu : s.rob.ruu cfg = .ruu s.ruuHead :: ((s.rob.popLsq cfg).popRuu cfg).ruu cfg :=
    Rob.ruu_cons h.queue.ruuHead_lt hNum
  have hSpec := h.spec.head_settled hRuu hC
  refine ⟨hQ, h.spec.tail hRuu rfl hC, ⟨?_, h.hist.order, h.hist.bound⟩, h.links, ?_⟩
  · have hEq := h.hist.eq
    rw [settledEntries_cons hRuu rfl hSpec] at hEq
    exact (append_assoc ..).trans hEq
  · have hNames := h.names_live
    rw [hProg] at hNames
    have hRest := NamesInv.retire (P := [.ruu s.ruuHead, .lsq s.lsqHead]) hNames (by
      intro r hr
      rcases mem_pair.mp hr with rfl | rfl
      · exact ⟨hC, hSpec⟩
      · exact ⟨hCL, hPartner.specMode.trans hSpec⟩)
    show NamesInv (decls _ _ ++ []) _ _ _ _ _
    rw [append_nil]
    exact hRest

theorem Base.retires {s' : State env} (h : Base cfg {} s) (hNum : s.ruuNum ≠ 0)
    (hStep : Retires cfg s s') : Base cfg {} s' := by
  cases hStep with
  | op pred hC hEa => exact h.retireOp hNum hC hEa pred
  | mem pred hC hEa hCL => exact h.retireMem hNum hC hEa hCL _ _ _ pred

theorem commitOne_base (h : Base cfg {} s) (hNum : s.ruuNum ≠ 0) :
    Keeps A (commitOne cfg s) fun o => ∀ s', o = some s' → Retires cfg s s' := by
  refine commitOne_keeps (fun hEa => ?_) fun hC => h.odepList_eq_nil hC
  obtain ⟨hLsq, hPartner, _⟩ := h.queue.retireMem hNum hEa
  exact ⟨hLsq, hPartner.inLSQ⟩

/-- Commit, with whatever else every retirement keeps. -/
theorem ruuCommit_base {I : State env → Prop} (h : Base cfg {} s) (hI : I s)
    (hStep : ∀ s s', Base cfg {} s → I s → s.ruuNum ≠ 0 → Retires cfg s s' → I s') :
    Keeps A (ruuCommit cfg s) fun s' => Base cfg {} s' ∧ I s' := by
  refine ruuCommitLoop_keeps (I := fun s => Base cfg {} s ∧ I s) (fun s hs hNum => ?_) _ ⟨h, hI⟩
  refine (commitOne_base hs.1 hNum).mono fun o hO s' hs' => ?_
  exact ⟨hs.1.retires hNum (hO s' hs'), hStep s s' hs.1 hs.2 hNum (hO s' hs')⟩

/-! ### Links -/

theorem Base.pop (h : Base cfg k s) {ev : RSLink Int} {rest : List (RSLink Int)}
    (hq : s.eventQueue = ev :: rest) : Base cfg k (popEvent ev rest s) := by
  have hLinks := h.links
  rw [hq] at hLinks
  exact ⟨h.queue, h.spec, h.hist, hLinks.pop, h.names⟩

variable {rest : List Nat}

theorem Base.enqueue (h : Base cfg k s) (rs : Ref)
    (hFree : s.rslinkFreeList = id :: rest) : Base cfg k (enqueued id rest rs s) := by
  have hLinks := h.links
  rw [hFree] at hLinks
  exact ⟨h.queue, h.spec, h.hist, LinkInv.enqueue hLinks, h.names⟩

theorem Base.schedule (h : Base cfg k s) (rs : Ref) (when : Int)
    (hFree : s.rslinkFreeList = id :: rest) : Base cfg k (scheduled id rest rs when s) := by
  have hLinks := h.links
  rw [hFree] at hLinks
  exact ⟨h.queue, h.spec, h.hist, LinkInv.schedule hLinks, h.names⟩

theorem Base.release {extra : List (Rename.Decl CVLink Nat)}
    (h : Base cfg ⟨op, extra, id :: loose, undone⟩ s) :
    Base cfg ⟨op, extra, loose, undone⟩ (rslinkFree id s) :=
  ⟨h.queue, h.spec, h.hist, h.links.release, h.names⟩

/-! ### Writeback -/

/-- Both outputs of `rs` are still to be broadcast. -/
def bothOutputs (rs : Ref) : CVLink → Bool := fun p => decide (p.1 = rs)

/-- Completing a station announces nothing yet. -/
theorem broadcastDone_complete (hC : completed rs = false) :
    broadcastDone (Function.update completed rs true) (bothOutputs rs) =
      broadcastDone completed fun _ => false := by
  funext p
  by_cases hp : p.1 = rs
  · simp [broadcastDone, bothOutputs, hp, hC]
  · simp [broadcastDone, bothOutputs, hp]

theorem broadcastDone_announce (op : CVLink → Bool) {p : CVLink}
    (hC : completed p.1 = true) :
    broadcastDone completed (Function.update op p false) =
      Function.update (broadcastDone completed op) p true := by
  funext p'
  by_cases hp : p' = p
  · subst hp
    simp [broadcastDone, hC]
  · simp [broadcastDone, hp]

theorem Base.complete (h : Base cfg {} s) (hC : s.completed rs = false)
    (hRec : (s.stn rs).recoverInst = false) :
    Base cfg ⟨bothOutputs rs, [], [], []⟩
      { s with completed := Function.update s.completed rs true } := by
  refine ⟨h.queue, h.spec.complete hRec, h.hist, h.links, ?_⟩
  have hNames := h.names
  rw [← broadcastDone_complete hC] at hNames
  exact hNames

/-- Where a consumer list is not empty, the station is live. -/
theorem Base.mem_linkKeys
    (h : Base cfg ⟨op, [], loose, undone⟩ s) {p : CVLink} (hp : s.odepList p ≠ []) :
    p ∈ linkKeys cfg := by
  obtain ⟨_, d, hd, rfl⟩ := h.names_live.lists p hp
  exact h.queue.mem_linkKeys (key_mem hd) _

/-- Output `i` is announced. -/
theorem Base.announce (h : Base cfg ⟨op, [], [], []⟩ s) (hC : s.completed rs = true) (i : Fin 2) :
    Base cfg ⟨Function.update op (rs, i) false, [], (s.odepList (rs, i)).map RSLink.id, []⟩
      (announced rs i s) := by
  have hDone := @broadcastDone_announce s.completed op (rs, i) hC
  obtain ⟨P₁, P₂, hP, h₁, h₂, _⟩ := h.spec.split h.queue
  have hOrd := decls_ordered h₁ h₂
  rw [← hP] at hOrd
  have hKey : ∀ d ∈ decls s.stn (s.rob.prog cfg), d.key = (rs, i) →
      d.name = (s.stn rs).onames i ∧ d.spec = (s.stn rs).specMode := by
    intro d hd hk
    exact ⟨by rw [name_of_mem_decls hd, hk], by rw [spec_of_mem_decls hd, hk]⟩
  have hFinish := h.names_live.exact.finish hOrd hKey
  have hLinks : LinkInv cfg s.rslinkFreeList s.eventQueue s.readyQueue
      (Function.update s.odepList (rs, i) []) ((s.odepList (rs, i)).map RSLink.id) := by
    by_cases hList : s.odepList (rs, i) = []
    · rw [hList, map_nil]
      rw [show Function.update s.odepList (rs, i) [] = s.odepList from by
        rw [← hList]; exact update_eq_self ..]
      exact h.links
    · exact h.links.takeList (h.mem_linkKeys hList)
  unfold announced
  rw [clearCreator_eq]
  refine ⟨h.queue, h.spec, h.hist, hLinks, ?_, fun p hp => ?_⟩
  · rw [hDone, append_nil]
    exact hFinish
  · change Function.update s.odepList (rs, i) [] p ≠ [] at hp
    have hp' : p ≠ (rs, i) := by
      rintro rfl
      exact hp (update_self ..)
    have hList : s.odepList p ≠ [] := by
      rwa [update_of_ne hp'] at hp
    obtain ⟨hNot, hd⟩ := h.names.lists p hList
    refine ⟨?_, hd⟩
    rw [hDone, update_of_ne hp']
    exact hNot

/-- An output without a name needs no broadcast. -/
theorem Base.announceNone (h : Base cfg ⟨op, [], [], []⟩ s)
    {i : Fin 2} (hC : s.completed rs = true) (hNA : (s.stn rs).onames i = NA) :
    Base cfg ⟨Function.update op (rs, i) false, [], [], []⟩ s := by
  have hDone := @broadcastDone_announce s.completed op (rs, i) hC
  have hKey : ∀ d ∈ decls s.stn (s.rob.prog cfg) ++ [], d.key ≠ (rs, i) := by
    rw [append_nil]
    intro d hd hk
    obtain ⟨r, _, j, hj, rfl⟩ := mem_decls.mp hd
    cases hk
    exact hj hNA
  refine ⟨h.queue, h.spec, h.hist, h.links, ?_, fun p hp => ?_⟩
  · refine h.names.exact.congr fun d hd => ?_
    rw [hDone, update_of_ne (hKey d hd)]
  · obtain ⟨hNot, d, hd, rfl⟩ := h.names.lists p hp
    refine ⟨?_, d, hd, rfl⟩
    rw [hDone, update_of_ne (hKey d hd)]
    exact hNot

/-- A link of a consumer list that has been taken. -/
theorem wakeLink_base {l : RSLink (Fin 3)} (h : Base cfg ⟨op, [], l.id :: loose, []⟩ s) :
    Keeps Tolerated (wakeLink l s) fun s' =>
      Base cfg ⟨op, [], loose, []⟩ (rslinkFree l.id s') ∧ s'.completed = s.completed := by
  have hReady : Base cfg ⟨op, [], l.id :: loose, []⟩ (operandReady l.rs l.x s) :=
    { h with }
  refine wakeLink_keeps (fun _ => ⟨h.release, rfl⟩) (fun _ _ => trivial)
    (fun _ _ _ => ⟨hReady.release, rfl⟩) (fun id rest _ _ _ _ hFree => ?_)
    (fun _ _ _ _ => trivial) fun _ => trivial
  exact ⟨(hReady.enqueue l.rs hFree).release, rfl⟩

theorem broadcast_base (h : Base cfg ⟨op, [], [], []⟩ s) (hC : s.completed rs = true) (i : Fin 2) :
    Keeps Tolerated (broadcast rs i s) fun s' =>
      Base cfg ⟨Function.update op (rs, i) false, [], [], []⟩ s' ∧ s'.completed = s.completed := by
  refine broadcast_keeps (fun hNA => ⟨h.announceNone hC hNA, rfl⟩) fun _ => ?_
  have hStart := h.announce hC i
  have hCompleted : (announced rs i s).completed = s.completed := by
    unfold announced
    rw [clearCreator_eq]
  refine wakeAll_keeps (I := fun ls s' => Base cfg ⟨Function.update op (rs, i) false, [],
    ls.map RSLink.id, []⟩ s' ∧ s'.completed = s.completed) (fun l ls s' hs' => ?_)
    ⟨hStart, hCompleted⟩
  refine (wakeLink_base hs'.1).mono fun s'' hs'' => ⟨hs''.1, ?_⟩
  exact hs''.2.trans hs'.2

/-- The state after a completing branch has been recovered from. -/
def resolved (cfg : Config) (rs : Ref) (m n : Nat) (D : List Ref) (free : List Nat)
    (pred : env.Pred) (s : State env) : State env :=
  restarted cfg pred
    (recovered cfg m n D free { s with completed := Function.update s.completed rs true })

/-- A mis-predicted branch that completes is the one that `spec_mode` waits for. -/
theorem Base.unresolved (h : Base cfg k s) (hC : s.completed rs = false)
    (hRec : (s.stn rs).recoverInst = true) :
    s.specMode = true ∧ (s.stn rs).nextPC = s.recoverPC ∧ ∃ i pre post, rs = .ruu i ∧
      s.rob.ruu cfg = pre ++ .ruu i :: post ∧ (∀ r ∈ pre ++ [.ruu i], (s.stn r).specMode = false) ∧
      (∀ r ∈ post, (s.stn r).specMode = true) ∧ ∀ r, Unresolved s.stn s.completed r ↔ r = rs := by
  have hSpec := h.spec
  unfold SpecInv at hSpec
  split at hSpec
  · obtain ⟨pre, b, post, hRuu, hb, hPC, hPre, hPost⟩ := hSpec
    obtain rfl := (hb rs).mp ⟨hRec, hC⟩
    have hMem : rs ∈ s.rob.ruu cfg := by simp [hRuu]
    obtain ⟨i, _, rfl⟩ := mem_map.mp hMem
    exact ⟨‹_›, hPC, i, pre, post, rfl, hRuu, hPre, hPost, hb⟩
  · exact absurd ⟨hRec, hC⟩ (hSpec.1 rs)

/-- What a recovery from the branch in `RUU[i]` finds: the entries `pre` and `L₁` are older,
the entries `post` and `L₂` are squashed, and the free list becomes `free`. -/
structure Recovers (cfg : Config) (s : State env) (i : Nat) (pre post L₁ L₂ : List Ref)
    (free : List Nat) : Prop where
  branch : (s.stn (.ruu i)).recoverInst = true
  ruu : s.rob.ruu cfg = pre ++ .ruu i :: post
  lsq : s.rob.lsq cfg = L₁ ++ L₂
  right : ∀ r ∈ pre ++ [.ruu i], (s.stn r).specMode = false
  wrong : ∀ r ∈ post, (s.stn r).specMode = true
  unique : ∀ r, Unresolved s.stn s.completed r ↔ r = .ruu i
  older : InSync s.stn (pre ++ [.ruu i]) L₁
  younger : InSync s.stn post L₂
  links : (free : Multiset Nat) +
      Pool.held (linkKeys cfg) (odepIds (dropLists (weave s.stn post L₂) s.odepList)) =
    s.rslinkFreeList + Pool.held (linkKeys cfg) (odepIds s.odepList)

/-- **Recovery.**  Cutting both queues after the branch restores the invariant of the
correct path. -/
theorem Base.recover (h : Base cfg {} s) {i : Nat} (hC : s.completed (.ruu i) = false)
    {pre post L₁ L₂ : List Ref} {free : List Nat} (hRec : Recovers cfg s i pre post L₁ L₂ free)
    (pred : env.Pred) :
    Base cfg ⟨bothOutputs (.ruu i), [], [], []⟩
      (resolved cfg (.ruu i) (pre.length + 1) L₁.length (weave s.stn post L₂) free pred s) := by
  have hCut := hRec.ruu
  rw [append_cons] at hCut
  obtain ⟨hQ, hRuu', hLsq', hProg⟩ := h.queue.truncate hCut hRec.lsq hRec.older
  rw [length_append, length_singleton] at hQ hRuu' hLsq' hProg
  have hSettled : settledEntries cfg s.rob =
      settledEntries cfg (s.rob.truncate cfg (pre.length + 1) L₁.length) := by
    have hNone : post.filter (fun r => !(s.stn r).specMode) = [] :=
      filter_eq_nil_iff.mpr fun r hr => by simp [hRec.wrong r hr]
    unfold settledEntries
    rw [hRuu', hCut, filter_append]
    show ((List.filter _ _) ++ post.filter (fun r => !(s.stn r).specMode)).map _ = _
    rw [hNone, append_nil]
    rfl
  refine ⟨hQ, ?_, ⟨?_, h.hist.order, h.hist.bound⟩, h.links.squash hRec.links, ?_⟩
  · refine ⟨fun r hr => ?_, fun r hr => ?_⟩
    · obtain ⟨hRecr, hCr⟩ := hr
      change Function.update s.completed (.ruu i) true r = false at hCr
      by_cases hri : r = .ruu i
      · rw [hri, update_self] at hCr
        cases hCr
      · rw [update_of_ne hri] at hCr
        exact hri ((hRec.unique r).mp ⟨hRecr, hCr⟩)
    · exact hRec.right r (by rw [← hRuu']; exact hr)
  · have hEq := h.hist.eq
    rw [hSettled] at hEq
    exact hEq
  · have hNames := h.names_live
    rw [hProg] at hNames
    have hWrong := hRec.younger.specMode_weave hRec.wrong
    have hRight : ∀ r ∈ (s.rob.truncate cfg (pre.length + 1) L₁.length).prog cfg,
        (s.stn r).specMode = false := by
      have hWeave := hRec.older.specMode_weave hRec.right
      rwa [← hRuu', ← hLsq'] at hWeave
    have hDone : broadcastDone (Function.update s.completed (.ruu i) true) (bothOutputs (.ruu i)) =
        broadcastDone s.completed fun _ => false := broadcastDone_complete hC
    have hExact := hNames.exact
    rw [decls_append, ← hDone] at hExact
    refine ⟨?_, fun p hp => ?_⟩
    · show Rename.Exact _ (decls s.stn _ ++ []) _ _ _
      rw [append_nil]
      refine hExact.rollback (fun d hd => ?_) fun d hd => ?_
      · rw [spec_of_mem_decls hd, hRight _ (key_mem hd)]
      · rw [spec_of_mem_decls hd, hWrong _ (key_mem hd)]
    · change dropLists (weave s.stn post L₂) s.odepList p ≠ [] at hp
      unfold dropLists at hp
      split at hp
      · exact absurd rfl hp
      · rename_i hLive
        obtain ⟨hNot, d, hd, rfl⟩ := hNames.lists p hp
        rw [decls_append, mem_append] at hd
        show broadcastDone (Function.update s.completed (.ruu i) true) (bothOutputs (.ruu i)) d.key =
            false ∧ ∃ e ∈ decls s.stn _ ++ [], e.key = d.key
        rw [hDone, append_nil]
        rcases hd with hd | hd
        · exact ⟨hNot, d, hd, rfl⟩
        · exact absurd (key_mem hd) hLive

/-- A completing operation was predicted well, or it is the branch to recover from. -/
theorem resolve_keeps {Q : State env → Prop} (h : Base cfg {} s)
    (hC : s.completed rs = false)
    (hPlain : (s.stn rs).recoverInst = false →
      Q { s with completed := Function.update s.completed rs true })
    (hRecover : ∀ i pre post L₁ L₂ free pred, rs = .ruu i →
      Recovers cfg s i pre post L₁ L₂ free →
      Q (resolved cfg rs (pre.length + 1) L₁.length (weave s.stn post L₂) free pred s)) :
    Keeps A (resolve cfg rs { s with completed := Function.update s.completed rs true }) Q := by
  refine keeps_ite (fun hRec => ?_) fun hRec => hPlain (by simpa using hRec)
  change (s.stn rs).recoverInst = true at hRec
  obtain ⟨hSpec, hPC, i, pre, post, rfl, hRuu, hPre, hPost, hUnique⟩ := h.unresolved hC hRec
  obtain ⟨L₁, L₂, free, hLsq, h₁, h₂, hRun, hSame⟩ :=
    @ruuRecover_eq env cfg { s with completed := Function.update s.completed (.ruu i) true }
      h.queue pre post i hRuu
  have hKeys : ∀ r ∈ weave s.stn post L₂, ∀ j, (r, j) ∈ linkKeys cfg := by
    intro r hr j
    refine h.queue.mem_linkKeys ?_ j
    rcases h₂.mem_weave.mp hr with hr | hr
    · refine h.queue.mem_prog.mpr (.inl ?_)
      rw [hRuu]
      simp [hr]
    · refine h.queue.mem_prog.mpr (.inr ?_)
      rw [show s.rob.lsq cfg = L₁ ++ L₂ from hLsq]
      simp [hr]
  refine recoverBranch_keeps (h.queue.ruu_inLSQ i) hRun hSpec fun pred => ?_
  exact hRecover i pre post L₁ L₂ free pred rfl
    ⟨hRec, hRuu, hLsq, hPre, hPost, hUnique, h₁, h₂, hSame _ hKeys⟩

theorem resolve_base (h : Base cfg {} s) (hC : s.completed rs = false) :
    Keeps A (resolve cfg rs { s with completed := Function.update s.completed rs true })
      fun s' => Base cfg ⟨bothOutputs rs, [], [], []⟩ s' ∧ s'.completed rs = true := by
  refine resolve_keeps h hC (fun hRec => ?_) fun i pre post L₁ L₂ free pred hi hRec => ?_
  · exact ⟨h.complete hC hRec, update_self ..⟩
  · subst hi
    exact ⟨h.recover hC hRec pred, update_self ..⟩

theorem bothOutputs_announced (rs : Ref) :
    Function.update (Function.update (bothOutputs rs) (rs, 0) false) (rs, 1) false =
      fun _ => false := by
  funext ⟨r, i⟩
  by_cases hr : r = rs
  · subst hr
    fin_cases i <;> simp
  · simp [bothOutputs, hr]

theorem writebackEvent_base (h : Base cfg {} s) (rs : Ref) :
    Keeps Tolerated (writebackEvent cfg rs s) (Base cfg {}) := by
  refine writebackEvent_keeps (fun _ => trivial) (fun _ _ _ hC => resolve_base h hC)
    (fun s' pred hs' => ⟨⟨hs'.1.queue, hs'.1.spec, hs'.1.hist, hs'.1.links, hs'.1.names⟩, hs'.2⟩)
    (K := fun s' => Base cfg ⟨Function.update (bothOutputs rs) (rs, 0) false, [], [], []⟩ s' ∧
      s'.completed rs = true) (fun s' hs' => ?_) fun s' hs' => ?_
  · refine (broadcast_base hs'.1 hs'.2 0).mono fun s'' hs'' => ⟨hs''.1, ?_⟩
    rw [hs''.2]
    exact hs'.2
  · refine (broadcast_base hs'.1 hs'.2 1).mono fun s'' hs'' => ?_
    have hBase := hs''.1
    rwa [bothOutputs_announced] at hBase

theorem ruuWriteback_base (h : Base cfg {} s) :
    Keeps Tolerated (ruuWriteback cfg s) (Base cfg {}) :=
  ruuWritebackLoop_keeps (fun _ _ _ hs hq _ _ => hs.pop hq)
    (fun _ ev _ hs hq _ _ => writebackEvent_base (hs.pop hq) ev.rs) _ h

/-! ### Load scheduling -/

theorem refreshLoad_base (h : Base cfg {} s) (rs : Ref) (std : List Word) :
    Keeps Tolerated (refreshLoad rs std s) (Base cfg {}) :=
  refreshLoad_keeps (fun _ => h) (fun _ _ _ _ hFree => h.enqueue rs hFree) fun _ _ _ => trivial

theorem lsqRefresh_base (h : Base cfg {} s) : Keeps Tolerated (lsqRefresh cfg s) (Base cfg {}) :=
  lsqRefreshLoop_keeps (J := fun _ _ _ s => Base cfg {} s) (fun _ _ _ hs => hs)
    (fun _ _ _ _ hs _ => hs) (fun _ _ _ _ _ hs _ => refreshLoad_base hs _ _)
    (fun _ _ _ _ _ _ _ _ _ => trivial) h

/-! ### Issue -/

/-- A store has no outputs, so that its completion announces nothing. -/
theorem Base.storeDone (h : Base cfg ⟨fun _ => false, [], loose, []⟩ s)
    (hNone : ∀ i, (s.stn rs).onames i = NA) (hRec : (s.stn rs).recoverInst = false) :
    Base cfg ⟨fun _ => false, [], loose, []⟩ (storeDone rs s) := by
  have hKey : ∀ d ∈ decls s.stn (s.rob.prog cfg) ++ [], d.key.1 ≠ rs := by
    rw [append_nil]
    intro d hd hk
    obtain ⟨r, _, j, hj, rfl⟩ := mem_decls.mp hd
    cases hk
    exact hj (hNone j)
  have hDone : ∀ d ∈ decls s.stn (s.rob.prog cfg) ++ [],
      broadcastDone (Function.update s.completed rs true) (fun _ => false) d.key =
        broadcastDone s.completed (fun _ => false) d.key := by
    intro d hd
    simp [broadcastDone, hKey d hd]
  refine ⟨h.queue, h.spec.complete hRec, h.hist, h.links, h.names.exact.congr hDone, fun p hp => ?_⟩
  obtain ⟨hNot, d, hd, rfl⟩ := h.names.lists p hp
  exact ⟨(hDone d hd).trans hNot, d, hd, rfl⟩

theorem Base.putBack (h : Base cfg k s) (rs : Ref)
    (hFree : s.rslinkFreeList = id :: rest) : Base cfg k (putBack id rest rs s) := by
  have hFlag : Base cfg k { s with queued := Function.update s.queued rs false } :=
    { h with }
  exact hFlag.enqueue rs hFree

theorem issueLink_base {node : RSLink Word}
    (h : Base cfg ⟨fun _ => false, [], node.id :: loose, []⟩ s) :
    Keeps Tolerated (issueLink cfg node s) fun r =>
      Base cfg ⟨fun _ => false, [], loose, []⟩ (rslinkFree node.id r.2) := by
  refine keeps_ite (fun _ => ?_) fun _ => h.release
  refine issueNode_keeps (fun _ => trivial) (fun _ _ _ hNone hRec => ?_) (fun _ _ _ _ => trivial)
    (fun hIn hRec => ?_) (fun id rest when busy accepts caches _ _ hStarts => ?_)
    (fun id rest _ _ hFree => ?_) (fun _ => trivial) fun _ => trivial
  · exact (h.storeDone hNone hRec).release
  · -- only RUU entries are mis-predicted branches
    cases hRs : node.rs with
    | ruu i =>
      rw [hRs] at hIn
      rw [show (s.stn (.ruu i)).inLSQ = false from h.queue.ruu_inLSQ i] at hIn
      cases hIn
    | lsq i =>
      rw [hRs] at hRec
      rw [show (s.stn (.lsq i)).recoverInst = false from h.queue.lsq_recoverInst i] at hRec
      cases hRec
  · have hStarted : Base cfg ⟨fun _ => false, [], node.id :: loose, []⟩ { s with
        queued := Function.update s.queued node.rs false
        issued := Function.update s.issued node.rs true
        busy := busy
        accepts := accepts
        caches := caches
        loads := startedLoads cfg node.rs s } := { h with }
    exact (hStarted.schedule node.rs when hStarts.free).release
  · exact (h.putBack node.rs hFree).release

theorem requeue_base {node : RSLink Word}
    (h : Base cfg ⟨fun _ => false, [], node.id :: loose, []⟩ s) :
    Keeps Tolerated (requeue node s) fun s' =>
      Base cfg ⟨fun _ => false, [], loose, []⟩ (rslinkFree node.id s') :=
  requeue_keeps (fun _ => h.release)
    (fun _ _ _ hFree => (h.putBack node.rs hFree).release) fun _ => trivial

theorem ruuIssue_base (h : Base cfg {} s) : Keeps Tolerated (ruuIssue cfg s) (Base cfg {}) :=
  issueLoop_keeps (I := fun nodes s => Base cfg ⟨fun _ => false, [], nodes.map RSLink.id, []⟩ s)
    (fun _ _ _ hs => issueLink_base hs) (fun _ _ _ hs => requeue_base hs)
    ⟨h.queue, h.spec, h.hist, h.links.takeQueue, h.names⟩

end SimpleScalar.Outorder

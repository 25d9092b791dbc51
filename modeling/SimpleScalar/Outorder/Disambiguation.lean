import SimpleScalar.Outorder.Wakeup
import SimpleScalar.Outorder.LoadSelection

/-!
# Memory disambiguation

`lsq_refresh` queues a load when the addresses of all older stores are known and the youngest of
them to its address has its data.  The load may be issued much later.  Until then older
entries leave the LSQ at its head, operands become ready, and what is squashed or dispatched is
younger; none of this invalidates the check.

* `Cleared`: every queued load has passed the check, and would pass it now.
* `disambiguation`: so it does when `ruu_issue` starts it.
-/

namespace SimpleScalar.Outorder

open List Outcome

variable {env : Env} {cfg : Config} {img : Image} {s s' : State env} {r : Ref} {pre : List Ref}

/-! ### The check -/

/-- The load `r` may be issued, `pre` being the entries before it. -/
structure Clear (s : State env) (pre : List Ref) (r : Ref) : Prop where
  known : pre.all (addrKnown s) = true
  ready : blocked s pre (s.stn r).addr = false

/-- Every queued load of the list may be issued. -/
def Cleared (s : State env) (L : List Ref) : Prop :=
  ∀ pre r post, L = pre ++ r :: post → s.queued r = true → s.isLoad r = true → Clear s pre r

/-- The entry holds what it held, and its operands stay ready. -/
structure Carries (s s' : State env) (r : Ref) : Prop where
  stn : s'.stn r = s.stn r
  idepReady : ∀ k, s.idepReady (r, k) = true → s'.idepReady (r, k) = true

namespace Carries

theorem isStore (h : Carries s s' r) : s'.isStore r = s.isStore r := by
  rw [State.isStore, h.stn, State.isStore]

theorem isLoad (h : Carries s s' r) : s'.isLoad r = s.isLoad r := by
  rw [State.isLoad, h.stn, State.isLoad]

theorem operandsReady (h : Carries s s' r) (hReady : s.operandsReady r = true) :
    s'.operandsReady r = true := by
  simp only [State.operandsReady, Bool.and_eq_true] at hReady ⊢
  exact ⟨⟨h.idepReady 0 hReady.1.1, h.idepReady 1 hReady.1.2⟩, h.idepReady 2 hReady.2⟩

theorem addrKnown (h : Carries s s' r) (hKnown : addrKnown s r = true) :
    Outorder.addrKnown s' r = true := by
  unfold Outorder.addrKnown at hKnown ⊢
  rw [h.isStore]
  rw [Bool.or_eq_true] at hKnown ⊢
  exact hKnown.imp_right (h.idepReady 1)

end Carries

variable {a : Word}

/-- A store may get its data, but it cannot lose them. -/
theorem blocked_carry (h : ∀ r ∈ pre, Carries s s' r) (hFree : blocked s pre a = false) :
    blocked s' pre a = false := by
  induction pre using List.reverseRecOn with
  | nil => rfl
  | append_singleton pre r ih =>
    have hr := h r (by simp)
    rw [blocked_concat] at hFree ⊢
    rw [hr.isStore, hr.stn]
    split at hFree
    · rw [if_pos ‹_›]
      simp only [Bool.not_eq_false'] at hFree ⊢
      exact hr.operandsReady hFree
    · rw [if_neg ‹_›]
      exact ih (fun r' hr' => h r' (mem_append_left _ hr')) hFree

/-- The youngest store to an address is not affected by what leaves at the head. -/
theorem blocked_of_append {D : List Ref} (h : blocked s (D ++ pre) a = false) :
    blocked s pre a = false := by
  induction pre using List.reverseRecOn with
  | nil => rfl
  | append_singleton pre r ih =>
    rw [← append_assoc, blocked_concat] at h
    rw [blocked_concat]
    split at h
    · rw [if_pos ‹_›]
      exact h
    · rw [if_neg ‹_›]
      exact ih h

theorem Clear.of_append {D : List Ref} (h : Clear s (D ++ pre) r) : Clear s pre r := by
  refine ⟨?_, blocked_of_append h.ready⟩
  have hKnown := h.known
  rw [all_append, Bool.and_eq_true] at hKnown
  exact hKnown.2

theorem Clear.carry (h : Clear s pre r) (hPre : ∀ r ∈ pre, Carries s s' r)
    (hr : s'.stn r = s.stn r) : Clear s' pre r := by
  refine ⟨?_, ?_⟩
  · have hKnown := h.known
    rw [all_eq_true] at hKnown ⊢
    exact fun e he => (hPre e he).addrKnown (hKnown e he)
  · rw [hr]
    exact blocked_carry hPre h.ready

variable {D M T E : List Ref}

/-- Entries leave at both ends of the LSQ, and others are added that are no queued loads. -/
theorem Cleared.carry (h : Cleared s (D ++ M ++ T)) (hM : ∀ r ∈ M, Carries s s' r)
    (hQueued : ∀ r ∈ M, s'.queued r = true → s'.isLoad r = true → s.queued r = true)
    (hE : ∀ e ∈ E, s'.queued e = true → s'.isLoad e = false) :
    Cleared s' (M ++ E) := by
  intro pre r post hList hQ hLoad
  have hOld : r ∉ E := fun hr => by
    rw [hE r hr hQ] at hLoad
    cases hLoad
  obtain ⟨c, rfl⟩ : ∃ c, M = pre ++ r :: c := by
    rcases append_eq_append_iff.mp hList with ⟨c, rfl, hc⟩ | ⟨c, rfl, hc⟩
    · exact absurd (hc ▸ by simp) hOld
    · cases c with
      | nil => exact absurd (by rw [nil_append] at hc; rw [← hc]; simp) hOld
      | cons e c =>
        obtain ⟨rfl, -⟩ := List.cons.inj hc
        exact ⟨c, rfl⟩
  have hr := hM r (by simp)
  have hClear : Clear s (D ++ pre) r :=
    h (D ++ pre) r (c ++ T) (by simp) (hQueued r (by simp) hQ hLoad) (hr.isLoad ▸ hLoad)
  exact hClear.of_append.carry (fun e he => hM e (mem_append_left _ he)) hr.stn

/-! ### A load that is issued -/

/-- Every older store has its address, and the youngest one to the address of the load has its
data.  The search for a forwarding store looks at older entries only, and stops at a store
that has its data. -/
structure Disambiguated (l : LoadIssue) : Prop where
  known : ∀ v ∈ l.older, v.store = true → v.addrReady = true
  ready : ∀ v ∈ l.older.reverse.find? fun v => v.store && v.addr == l.addr,
    v.operandsReady = true
  visited : ∀ i ∈ l.visited, ∃ v ∈ l.older, v.index = i ∧
    (v.store = true → v.addr = l.addr → v.operandsReady = true)

/-- The store in slot `i` can forward. -/
def forwards (addr : Word) (stn : Ref → Station env) (i : Nat) : Bool :=
  (stn (.lsq i)).op.has F.store && (stn (.lsq i)).addr == addr

variable {stn : Ref → Station env}

/-- The search goes through the older entries from the youngest on, and ends with the first
one that can forward. -/
theorem forwardScan_visits {addr : Word} {head : Nat}
    (hHead : head < cfg.lsqSize) : ∀ {k n : Nat}, 0 < k →
    ∀ j ∈ (forwardScan cfg addr stn head n ((head + k) % cfg.lsqSize)).2,
      j ∈ CircularQueue.slots cfg.lsqSize head k ∧
      (forwards addr stn j = true →
        (CircularQueue.slots cfg.lsqSize head k).reverse.find? (forwards addr stn) = some j) := by
  intro k
  induction k with
  | zero => intro n hk; exact absurd hk (Nat.lt_irrefl 0)
  | succ k ih =>
    intro n _ j hj
    cases n with
    | zero => cases hj
    | succ n =>
      rw [forwardScan, CircularQueue.prev_tail cfg.lsq_pos, ← forwards] at hj
      rw [CircularQueue.slots_succ_right, reverse_append, reverse_singleton,
        singleton_append, List.find?_cons]
      cases hHere : forwards addr stn ((head + k) % cfg.lsqSize) with
      | true =>
        rw [hHere, if_pos rfl] at hj
        rw [mem_singleton.mp hj]
        exact ⟨by simp, fun _ => rfl⟩
      | false =>
        rw [hHere, if_neg (by simp)] at hj
        -- only the entry at the head ends the search without a store
        have hRest : j = (head + k) % cfg.lsqSize ∨ 0 < k ∧
            j ∈ (forwardScan cfg addr stn head n ((head + k) % cfg.lsqSize)).2 := by
          split at hj
          · exact .inl (mem_singleton.mp hj)
          · next hMore =>
            refine (mem_cons.mp hj).imp_right fun hj => ⟨Nat.pos_of_ne_zero ?_, hj⟩
            rintro rfl
            exact hMore (Nat.mod_eq_of_lt hHead)
        rcases hRest with rfl | ⟨hk, hj⟩
        · refine ⟨by simp, fun hStore => ?_⟩
          rw [hHere] at hStore
          cases hStore
        · obtain ⟨hMem, hFirst⟩ := ih hk j hj
          exact ⟨mem_append_left _ hMem, hFirst⟩

/-- A load that has passed the check. -/
theorem Clear.disambiguated {i : Nat} {pre post : List Nat} (hHead : s.lsqHead < cfg.lsqSize)
    (hNum : s.lsqNum ≤ cfg.lsqSize)
    (hSlots : CircularQueue.slots cfg.lsqSize s.lsqHead s.lsqNum = pre ++ i :: post)
    (h : Clear s (pre.map .lsq) (.lsq i)) : Disambiguated (loadIssue cfg i s) := by
  have hNot : i ∉ pre := by
    have hNodup := @CircularQueue.nodup_slots _ s.lsqHead _ hNum
    rw [hSlots, nodup_append] at hNodup
    exact fun hi => hNodup.2.2 i hi i mem_cons_self rfl
  have hOlder : (loadIssue cfg i s).older = pre.map (lsqView s) := by
    unfold loadIssue
    rw [hSlots, takeWhile_append_of_pos fun a ha => by
      simpa using fun hEq : a = i => hNot (hEq ▸ ha)]
    simp
  have hKnown := h.known
  rw [all_map, all_eq_true] at hKnown
  -- the youngest store to the address, as the check sees it
  have hYoungest : ∀ j, pre.reverse.find? (forwards (s.stn (.lsq i)).addr s.stn) = some j →
      s.operandsReady (.lsq j) = true := by
    intro j hj
    have hReady := h.ready
    unfold blocked at hReady
    have hSame : (fun r => s.isStore r && (s.stn r).addr == (s.stn (.lsq i)).addr) ∘ Ref.lsq =
        forwards (s.stn (.lsq i)).addr s.stn := by
      funext j
      rw [Function.comp_apply, forwards, Opcode.has_store, State.isStore]
    rw [← map_reverse, List.find?_map, hSame, hj] at hReady
    simpa using hReady
  refine ⟨fun v hv hStore => ?_, fun v hv => ?_, fun j hj => ?_⟩
  · rw [hOlder] at hv
    obtain ⟨j, hj, rfl⟩ := mem_map.mp hv
    have hAddr : (!s.isStore (.lsq j) || s.storeAddrReady (.lsq j)) = true := hKnown j hj
    rw [show s.isStore (.lsq j) = true from hStore] at hAddr
    exact hAddr
  · rw [hOlder, ← map_reverse, List.find?_map] at hv
    obtain ⟨j, hj, rfl⟩ := Option.mem_map.mp hv
    refine hYoungest j ?_
    rw [← Option.mem_def.mp hj]
    refine congrArg (fun p => pre.reverse.find? p) (funext fun j => ?_)
    rw [Function.comp_apply, forwards, Opcode.has_store]
    rfl
  · obtain ⟨hPre, hi⟩ := CircularQueue.slots_split hSlots
    have hVisits : j ∈ pre ∧ (forwards (s.stn (.lsq i)).addr s.stn j = true →
        pre.reverse.find? (forwards (s.stn (.lsq i)).addr s.stn) = some j) := by
      have hj : j ∈ (forwardSearch cfg i (s.stn (.lsq i)).addr s).2 := hj
      unfold forwardSearch at hj
      split at hj
      · cases hj
      · next hBehind =>
        have hPos : 0 < pre.length := by
          refine Nat.pos_of_ne_zero fun hZero => hBehind ?_
          rw [hi, hZero, Nat.add_zero, Nat.mod_eq_of_lt hHead]
        rw [hPre]
        refine forwardScan_visits (n := cfg.lsqSize) hHead hPos j ?_
        rwa [← hi]
    refine ⟨lsqView s j, hOlder ▸ mem_map_of_mem hVisits.1, rfl, fun hStore hAddr => ?_⟩
    refine hYoungest j (hVisits.2 ?_)
    rw [forwards, Opcode.has_store, Bool.and_eq_true, beq_iff_eq]
    exact ⟨hStore, hAddr⟩

/-! ### The stages -/

/-- The invariant. -/
structure Disambiguates (cfg : Config) (s : State env) : Prop where
  cleared : Cleared s (s.rob.lsq cfg)
  loads : ∀ l ∈ s.loads, Disambiguated l

theorem Disambiguates.carry (h : Disambiguates cfg s)
    (hList : s.rob.lsq cfg = D ++ M ++ T) (hList' : s'.rob.lsq cfg = M ++ E)
    (hM : ∀ r ∈ M, Carries s s' r)
    (hQueued : ∀ r ∈ M, s'.queued r = true → s'.isLoad r = true → s.queued r = true)
    (hE : ∀ e ∈ E, s'.queued e = true → s'.isLoad e = false)
    (hLoads : ∀ l ∈ s'.loads, Disambiguated l) : Disambiguates cfg s' := by
  refine ⟨?_, hLoads⟩
  have hCleared := h.cleared
  rw [hList] at hCleared
  rw [hList']
  exact hCleared.carry hM hQueued hE

/-- The queues stay as they are, and no load is queued. -/
theorem Disambiguates.same (h : Disambiguates cfg s) (hRob : s'.rob.lsq cfg = s.rob.lsq cfg)
    (hStn : s'.stn = s.stn) (hReady : s'.idepReady = s.idepReady)
    (hQ : ∀ r, s'.queued r = true → s.queued r = true) (hLoads : ∀ l ∈ s'.loads, Disambiguated l) :
    Disambiguates cfg s' :=
  h.carry (D := []) (M := s.rob.lsq cfg) (T := []) (E := []) (by simp) (by simpa using hRob)
    (fun r _ => ⟨congrFun hStn r, fun k hk => hReady ▸ hk⟩) (fun r _ hr _ => hQ r hr) (by simp)
    hLoads

theorem Disambiguates.retires (h : Disambiguates cfg s) (hB : Base cfg {} s) (hNum : s.ruuNum ≠ 0)
    (hStep : Retires cfg s s') : Disambiguates cfg s' := by
  cases hStep with
  | op pred hC hEa => exact h.same rfl rfl rfl (fun _ hr => hr) h.loads
  | mem pred hC hEa hCL hUnits hCaches =>
    obtain ⟨hLsq, -⟩ := hB.queue.retireMem hNum hEa
    have hList : s.rob.lsq cfg = [.lsq s.lsqHead] ++ (s.rob.popLsq cfg).lsq cfg ++ [] := by
      rw [Rob.lsq_cons hB.queue.lsqHead_lt hLsq, append_nil]
      rfl
    exact h.carry hList (append_nil _).symm
      (fun _ _ => ⟨rfl, fun _ hk => hk⟩) (fun _ _ hr _ => hr) (by simp) h.loads

/-- The entries of the LSQ, among all entries. -/
def Ref.isLsq : Ref → Bool
  | .lsq _ => true
  | .ruu _ => false

theorem InSync.filter_weave {R L : List Ref} (h : InSync stn R L)
    (hR : ∀ r ∈ R, r.isLsq = false) (hL : ∀ l ∈ L, l.isLsq = true) :
    (weave stn R L).filter Ref.isLsq = L := by
  induction h with
  | nil => rfl
  | op hEa _ ih =>
    rw [weave, if_neg (by simp [hEa]), filter_cons_of_neg (by simp [hR _ mem_cons_self])]
    exact ih (fun r hr => hR r (mem_cons_of_mem _ hr)) hL
  | @mem r l R L hEa _ _ ih =>
    have hRest := ih (fun r hr => hR r (mem_cons_of_mem _ hr))
      fun l hl => hL l (mem_cons_of_mem _ hl)
    rw [weave, if_pos hEa, filter_cons_of_neg (by simp [hR _ mem_cons_self])]
    show (l :: weave _ R L).filter _ = _
    rw [filter_cons_of_pos (hL l mem_cons_self), hRest]

variable {q : Rob env}

theorem QueueInv.filter_prog (h : QueueInv cfg q) :
    (q.prog cfg).filter Ref.isLsq = q.lsq cfg := by
  refine h.sync.filter_weave (fun r hr => ?_) fun l hl => ?_
  · obtain ⟨i, _, rfl⟩ := mem_map.mp hr
    rfl
  · obtain ⟨i, _, rfl⟩ := mem_map.mp hl
    rfl

variable {l : Ref}

theorem QueueInv.inLSQ (h : QueueInv cfg q) (hl : l ∈ q.lsq cfg) :
    (q.stn l).inLSQ = true := by
  obtain ⟨r, hPartner⟩ : ∃ r, Partner q.stn r l := by
    have hAll := h.sync.forall₂
    obtain ⟨n, hn, rfl⟩ := getElem_of_mem hl
    exact ⟨_, hAll.get (by rw [hAll.length_eq]; exact hn) hn⟩
  exact hPartner.inLSQ

/-- What is queued with its operands is no load. -/
theorem QueueInv.not_load (h : QueueInv cfg q) (hl : l ∈ q.lsq cfg)
    (hStore : (!(q.stn l).inLSQ || (q.stn l).op.has (F.mem ||| F.store)) = true) :
    (q.stn l).op.has (F.mem ||| F.load) = false := by
  rw [h.inLSQ hl] at hStore
  exact Opcode.not_load_of_store _ hStore

theorem Disambiguates.entered {E : List Ref} {names : Ref → Fin 3 → Nat} (h : Disambiguates cfg s)
    (hQ : QueueInv cfg s.rob) (hQ' : QueueInv cfg s'.rob) (hStep : Entered cfg E names s s') :
    Disambiguates cfg s' := by
  have hList : s'.rob.lsq cfg = s.rob.lsq cfg ++ E.filter Ref.isLsq := by
    rw [← hQ'.filter_prog, hStep.prog, filter_append, hQ.filter_prog]
  have hOld : ∀ r ∈ s.rob.lsq cfg, r ∉ E := fun r hr hE =>
    hStep.dead r hE (hQ.mem_prog.mpr (.inr hr))
  refine h.carry (D := []) (T := []) (by simp) hList (fun r hr => ⟨hStep.stn r (hOld r hr), ?_⟩)
    (fun r hr hQueued _ => hStep.queued r (hOld r hr) ▸ hQueued) (fun e he hQueued => ?_)
    (hStep.loads ▸ h.loads)
  · intro k hk
    rw [hStep.idepReady, if_neg (hOld r hr)]
    exact hk
  · have hE := (mem_filter.mp he).1
    rw [hStep.ready e hE, Bool.and_eq_true] at hQueued
    exact hQ'.not_load (hList ▸ mem_append_right _ he) hQueued.2

/-! ### Writeback -/

/-- Nothing is queued but what may be queued as soon as its operands are ready. -/
structure Enrols (s s' : State env) : Prop where
  stn : s'.stn = s.stn
  queued : ∀ r, s'.queued r = true →
    s.queued r = true ∨ (!(s.stn r).inLSQ || s.isStore r) = true

theorem broadcast_enrols {s₀ : State env} (h : Enrols s₀ s) (rs : Ref) (i : Fin 2) :
    Keeps AnyCheck (broadcast rs i s) (Enrols s₀) := by
  refine broadcast_keeps (fun _ => h) fun _ => ?_
  refine wakeAll_keeps (I := fun _ => Enrols s₀) (fun l _ s₁ hs₁ => ?_) ?_
  · refine wakeLink_keeps (fun _ => ⟨hs₁.stn, hs₁.queued⟩) (fun _ _ => trivial)
      (fun _ _ _ => ⟨hs₁.stn, hs₁.queued⟩) (fun id rest _ _ hWakes _ _ => ?_)
      (fun _ _ _ _ => trivial) fun _ => trivial
    refine ⟨hs₁.stn, fun r hr => ?_⟩
    have hr : Function.update s₁.queued l.rs true r = true := hr
    by_cases hKey : r = l.rs
    · have hMay := (Bool.and_eq_true_iff.mp hWakes).2
      rw [State.isStore, hs₁.stn] at hMay
      exact .inr (hKey ▸ hMay)
    · rw [Function.update_of_ne hKey] at hr
      exact hs₁.queued r hr
  · unfold announced
    rw [clearCreator_eq]
    exact ⟨h.stn, h.queued⟩

theorem writebackEvent_enrols (hB : Base cfg {} s) (rs : Ref) :
    Keeps AnyCheck (writebackEvent cfg rs s) (Enrols s) := by
  refine writebackEvent_keeps (J := Enrols s) (fun _ => trivial) (fun _ _ _ hC => ?_)
    (fun _ _ hs => ⟨hs.stn, hs.queued⟩) (fun _ hs => broadcast_enrols hs rs 0)
    fun _ hs => broadcast_enrols hs rs 1
  exact resolve_keeps hB hC (fun _ => ⟨rfl, fun _ hr => .inl hr⟩)
    fun _ _ _ _ _ _ _ _ _ => ⟨rfl, fun _ hr => .inl hr⟩

variable {rs : Ref}

theorem Disambiguates.wroteBack (h : Disambiguates cfg s) (hQ : QueueInv cfg s.rob)
    (hQ' : QueueInv cfg s'.rob) (hStep : WroteBack cfg rs s s') (hEnrols : Enrols s s') :
    Disambiguates cfg s' := by
  obtain ⟨T, hT⟩ : s'.rob.lsq cfg <+: s.rob.lsq cfg := by
    rw [← hQ.filter_prog, ← hQ'.filter_prog]
    exact hStep.prog.filter _
  refine h.carry (D := []) (T := T) (E := []) hT.symm (append_nil _).symm
    (fun r _ => ⟨congrFun hStep.stn r, fun k => hStep.idepReady (r, k)⟩)
    (fun r hr hQueued hLoad => ?_) (by simp) (hStep.loads ▸ h.loads)
  refine (hEnrols.queued r hQueued).resolve_right fun hMay => ?_
  have hIn : r ∈ s.rob.lsq cfg := hT ▸ mem_append_left _ hr
  rw [State.isLoad, hStep.stn, show (s.stn r).op.has _ = false from hQ.not_load hIn hMay] at hLoad
  cases hLoad

theorem ruuWriteback_disambiguates (hB : Base cfg {} s) (hW : Wake cfg .early {} s)
    (h : Disambiguates cfg s) : Keeps AnyCheck (ruuWriteback cfg s) (Disambiguates cfg) := by
  refine (ruuWritebackLoop_keeps
    (I := fun s => (Base cfg {} s ∧ Wake cfg .early {} s) ∧ Disambiguates cfg s)
    (fun s ev rest hs hq _ hStale => ⟨⟨hs.1.1.pop hq, hs.1.2.dropEvent hq hStale⟩,
      hs.2.same rfl rfl rfl (fun _ hr => hr) hs.2.loads⟩)
    (fun s ev rest hs hq _ hValid => ?_) _ ⟨⟨hB, hW⟩, h⟩).mono fun _ hs => hs.2
  obtain ⟨⟨hBase, hWake⟩, hDis⟩ := hs
  have hPop := hBase.pop hq
  have hDis' : Disambiguates cfg (popEvent ev rest s) :=
    hDis.same rfl rfl rfl (fun _ hr => hr) hDis.loads
  have hKeeps : Keeps (Expected s) _ _ := writebackEvent_wake hBase hWake hq hValid
  refine (hKeeps.and
    (writebackEvent_enrols hPop ev.rs)).mono fun s' hs' => ?_
  obtain ⟨⟨hBase', hWake', hWrote⟩, hEnrols⟩ := hs'
  exact ⟨⟨hBase', hWake'⟩, hDis'.wroteBack hPop.queue hBase'.queue hWrote hEnrols⟩

/-! ### Load scheduling and issue -/

theorem lsqRefresh_rob : Keeps AnyCheck (lsqRefresh cfg s) fun s' =>
    s'.rob = s.rob ∧ s'.loads = s.loads :=
  lsqRefreshLoop_keeps (J := fun _ _ _ s' => s'.rob = s.rob ∧ s'.loads = s.loads)
    (fun _ _ _ hs => hs) (fun _ _ _ _ hs _ => hs)
    (fun _ _ _ _ _ hs _ => refreshLoad_keeps (fun _ => hs) (fun _ _ _ _ _ => hs)
      fun _ _ _ => trivial)
    (fun _ _ _ _ _ _ _ _ _ => trivial) ⟨rfl, rfl⟩

/-- The loads that are selected pass the check. -/
theorem clear_of_goes (h : goes s pre r = true) : Clear s pre r := by
  simp only [goes, Bool.and_eq_true, Bool.not_eq_true'] at h
  refine ⟨h.1.2, ?_⟩
  by_contra hBlocked
  have hMem := (mem_stdOf (s.stn r).addr).mpr (.inl (by simpa using hBlocked))
  simp [hMem] at h

theorem lsqRefresh_disambiguates (hB : Base cfg {} s) (h : Disambiguates cfg s) :
    Keeps AnyCheck (lsqRefresh cfg s) (Disambiguates cfg) := by
  refine (lsqRefresh_rob.and lsqRefresh_rob.self).mono fun s' hs' => ?_
  obtain ⟨⟨hRob, hLoads⟩, hRun⟩ := hs'
  have hNodup := s.rob.nodup_lsq cfg hB.queue.lsqNum_le
  obtain ⟨hSound, -⟩ := @refreshList_spec env s (s.rob.lsq cfg) [] [] s (.refl s) rfl hNodup
    (fun _ _ => not_mem_nil) (Nat.zero_le _)
  rw [lsqRefresh_eq hB.queue] at hRun
  obtain ⟨hEnd, -⟩ := hSound s' hRun
  refine ⟨?_, hLoads ▸ h.loads⟩
  rw [hRob]
  intro pre r post hList hQ hLoad
  have hClear : Clear s pre r := by
    rw [hEnd.enqueues.2 r, Bool.or_eq_true, decide_eq_true_iff] at hQ
    rcases hQ with hOld | hNew
    · refine h.cleared pre r post hList hOld ?_
      rw [State.isLoad, hEnd.stn] at hLoad
      exact hLoad
    · obtain ⟨p, q, hSplit, hGoes⟩ := mem_pick.mp hNew
      obtain rfl := eq_of_split hNodup hList hSplit
      exact clear_of_goes hGoes
  exact hClear.carry (fun e _ => ⟨congrFun hEnd.stn e, fun k hk => hEnd.idepReady ▸ hk⟩)
    (congrFun hEnd.stn r)

/-- A queued load that is live is issued after a check. -/
theorem Disambiguates.startedLoads (h : Disambiguates cfg s) (hQ : QueueInv cfg s.rob)
    (hLive : rs ∈ s.rob.prog cfg) (hQueued : s.queued rs = true) :
    ∀ l ∈ startedLoads cfg rs s, Disambiguated l := by
  cases rs with
  | ruu i => exact h.loads
  | lsq i =>
    dsimp only [Outorder.startedLoads]
    split
    · next hLoad =>
      have hIn : Ref.lsq i ∈ s.rob.lsq cfg := by
        refine (hQ.mem_prog.mp hLive).resolve_left fun hRuu => ?_
        obtain ⟨j, _, hj⟩ := mem_map.mp hRuu
        cases hj
      obtain ⟨j, hj, hEq⟩ := mem_map.mp hIn
      cases hEq
      obtain ⟨p, q, hSlots⟩ := append_of_mem hj
      have hList : s.rob.lsq cfg = p.map .lsq ++ .lsq i :: q.map .lsq := by
        rw [Rob.lsq, hSlots, map_append, map_cons]
      have hClear := h.cleared _ _ _ hList hQueued (Bool.and_eq_true_iff.mp hLoad).2
      intro l hl
      rcases mem_append.mp hl with hl | hl
      · exact h.loads l hl
      · rw [mem_singleton.mp hl]
        exact hClear.disambiguated hQ.lsqHead_lt hQ.lsqNum_le hSlots
    · exact h.loads

theorem Disambiguates.putBack (h : Disambiguates cfg s) (hQueued : s.queued rs = true)
    (id : Nat) (rest : List Nat) : Disambiguates cfg (putBack id rest rs s) := by
  refine h.same rfl rfl rfl (fun r hr => ?_) h.loads
  have hr : Function.update (Function.update s.queued rs false) rs true r = true := hr
  by_cases hKey : r = rs
  · rw [hKey]
    exact hQueued
  · rwa [Function.update_of_ne hKey, Function.update_of_ne hKey] at hr

theorem Disambiguates.free (h : Disambiguates cfg s) (id : Nat) :
    Disambiguates cfg (rslinkFree id s) :=
  h.same rfl rfl rfl (fun _ hr => hr) h.loads

variable {node : RSLink Word} {nodes : List (RSLink Word)}

theorem issueLink_disambiguates
    (hQ : QueueInv cfg s.rob) (hW : Wake cfg .late { nodes := node :: nodes } s)
    (h : Disambiguates cfg s) :
    Keeps AnyCheck (issueLink cfg node s) fun r => Disambiguates cfg (rslinkFree node.id r.2) := by
  refine keeps_ite (fun hValid => ?_) fun _ => h.free _
  obtain ⟨hLive, hCan⟩ := hW.node_due hValid
  have hOff : ∀ r, Function.update s.queued node.rs false r = true → s.queued r = true := by
    intro r hr
    by_cases hKey : r = node.rs
    · rw [hKey]
      exact hCan.queued
    · rwa [Function.update_of_ne hKey] at hr
  refine issueNode_keeps (fun _ => trivial) (fun _ _ _ _ _ => ?_) (fun _ _ _ _ => trivial)
    (fun _ _ => trivial) (fun id rest when busy accepts caches _ _ _ => ?_)
    (fun id rest _ _ _ => (h.putBack hCan.queued id rest).free _) (fun _ => trivial) fun _ => trivial
  · exact h.same rfl rfl rfl hOff h.loads
  · exact h.same rfl rfl rfl hOff (h.startedLoads hQ hLive hCan.queued)

theorem requeue_disambiguates
    (hW : Wake cfg .late { nodes := node :: nodes } s) (h : Disambiguates cfg s) :
    Keeps AnyCheck (requeue node s) fun s' => Disambiguates cfg (rslinkFree node.id s') :=
  requeue_keeps (fun _ => h.free _)
    (fun id rest hValid _ => (h.putBack (hW.node_due hValid).2.queued id rest).free _)
    fun _ => trivial

theorem ruuIssue_disambiguates (hB : Base cfg {} s) (hW : Wake cfg .middle {} s)
    (h : Disambiguates cfg s) : Keeps AnyCheck (ruuIssue cfg s) (Disambiguates cfg) := by
  have hStart : Base cfg ⟨fun _ => false, [], s.readyQueue.map RSLink.id, []⟩
      { s with readyQueue := [] } := ⟨hB.queue, hB.spec, hB.hist, hB.links.takeQueue, hB.names⟩
  refine (issueLoop_keeps (I := fun nodes s' =>
    Base cfg ⟨fun _ => false, [], nodes.map RSLink.id, []⟩ s' ∧
      Wake cfg .late { nodes := nodes } s' ∧ Disambiguates cfg s')
    (fun node nodes s' hs' => ?_) (fun node nodes s' hs' => ?_)
    ⟨hStart, hW.takeQueue, h.same rfl rfl rfl (fun _ hr => hr) h.loads⟩).mono fun _ hs => hs.2.2
  · obtain ⟨hBase, hWake, hDis⟩ := hs'
    have hLink : Keeps (Expected s') _ _ := issueLink_wake hBase.queue hWake id
    exact ((issueLink_base hBase).and (hLink.and
      (issueLink_disambiguates hBase.queue hWake hDis))).mono
      fun r hr => ⟨hr.1, hr.2.1.1, hr.2.2⟩
  · obtain ⟨hBase, hWake, hDis⟩ := hs'
    have hRequeue : Keeps (Expected s') _ _ := requeue_wake hWake
    exact ((requeue_base hBase).and (hRequeue.and
      (requeue_disambiguates hWake hDis))).mono fun r hr => ⟨hr.1, hr.2.1.1, hr.2.2⟩

/-! ### Whole runs -/

theorem runStage_disambiguates {ld : Segments} {st : Stage} {ph ph' : Phase}
    (hAfter : ph.after st = some ph') (hB : Base cfg {} s) (hW : Wake cfg ph {} s)
    (h : Disambiguates cfg s) : Keeps AnyCheck (runStage cfg ld st s) (Disambiguates cfg) := by
  cases st with
  | sanity =>
    exact keeps_ite (fun _ => keeps_any) fun _ => keeps_ite (fun _ => keeps_any) fun _ =>
      keeps_ite (fun _ => keeps_any) fun _ => h
  | commit =>
    exact (ruuCommit_base hB h fun _ _ hBase hDis hNum hStep => hDis.retires hBase hNum hStep).mono
      fun _ hs => hs.2
  | releaseFu => exact h.same rfl rfl rfl (fun _ hr => hr) h.loads
  | writeback =>
    cases ph with
    | early => exact ruuWriteback_disambiguates hB hW h
    | middle | late => cases hAfter
  | refresh => exact lsqRefresh_disambiguates hB h
  | issue =>
    cases ph with
    | middle => exact ruuIssue_disambiguates hB hW h
    | early | late => cases hAfter
  | dispatch =>
    refine (ruuDispatch_base (I := fun _ => Disambiguates cfg) trivial hB h
      fun d s p hBase hBase' hDis hStep => ?_).mono fun _ hs => hs.2.elim fun _ hDis => hDis
    obtain ⟨_ | d', s'⟩ := p
    · cases hStep with
      | stop => exact hDis
      | wait => exact hDis.same rfl rfl rfl (fun _ hr => hr) hDis.loads
    · obtain ⟨_, _, _, hEntered⟩ := hStep.entered hBase
      exact hDis.entered hBase.queue hBase'.queue hEntered
  | fetch =>
    exact fetchStage_keeps h (fun _ _ h => h.same rfl rfl rfl (fun _ hr => hr) h.loads)
      (fun _ _ _ h _ => h.same rfl rfl rfl (fun _ hr => hr) h.loads)
      fun _ _ _ _ h _ _ _ _ => h.same rfl rfl rfl (fun _ hr => hr) h.loads
  | tick => exact h.same rfl rfl rfl (fun _ hr => hr) h.loads

theorem reach_disambiguates {rest : List Stage} (h : Reach cfg img rest s) :
    Disambiguates cfg s := by
  induction h with
  | init => exact ⟨fun _ _ _ _ hQ => (by cases hQ), forall_mem_nil _⟩
  | @step st _ _ _ hs hRun ih =>
    have hKeeps : Keeps _ (runStage cfg img.ld st _) _ :=
      runStage_disambiguates (phase_after (reach_suffix hs)) (base_reachable (reach_reachable hs))
        (reach_wake hs) ih
    rw [hRun] at hKeeps
    exact hKeeps
  | next _ ih => exact ih

/-- **Memory disambiguation.**  Whenever a load has been started, all older stores that were still
in the LSQ had their addresses, and the youngest of them to the address of the load had its
data; the search for a forwarding store looked at older entries only, and at no store to that
address without its data. -/
theorem disambiguation {rest : List Stage} (h : Reach cfg img rest s) :
    ∀ l ∈ s.loads, Disambiguated l :=
  (reach_disambiguates h).loads

/-- `sw $29,0($29); lw $3,0($29)` and a jump to itself. -/
def storeThenLoad : Image :=
  Image.ofInsts [⟨0x1a, 0x1d1d0000⟩, ⟨18, 0x1d030000⟩, ⟨2, 0x100004⟩]

/-- The load finds the store in slot 0. -/
theorem disambiguation_storeThenLoad : ∃ s : State Env.bare,
    simMain Config.bare storeThenLoad 4 = .ok s ∧ s.loads.map LoadIssue.visited = [[0]] ∧
    ∀ l ∈ s.loads, Disambiguated l := by
  obtain ⟨s, hs, hLoads⟩ : ∃ s : State Env.bare, simMain Config.bare storeThenLoad 4 = .ok s ∧
      decide (s.loads.map LoadIssue.visited = [[0]]) = true :=
    exists_ok_of_any (by decide +kernel)
  exact ⟨s, hs, of_decide_eq_true hLoads, disambiguation (reach_simMain hs)⟩

end SimpleScalar.Outorder

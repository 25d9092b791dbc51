import SimpleScalar.Outorder.Frontend

/-!
# Which loads `lsq_refresh` selects

The walk of `lsq_refresh` over the LSQ remembers the addresses of the stores whose data is
not ready (`std_unknowns`).  A later store with data takes such an address out by writing 0
in its place, which is an address as well.

* `mem_stdOf`: what the remembered addresses say about the entries walked so far.
* `refreshList_spec`: what a walk queues, and when it stops with an error.
* `load_selection`: the loads it queues are the right ones, except where a load from
  address 0 meets an address that was taken out.
-/

namespace SimpleScalar.Outorder

open List Outcome

variable {env : Env} {cfg : Config} {s s' : State env} {r : Ref} {pre : List Ref}

/-! ### The loads to select -/

/-- The youngest store to `a` among `pre` has no data yet. -/
def blocked (s : State env) (pre : List Ref) (a : Word) : Bool :=
  (pre.reverse.find? fun r => s.isStore r && (s.stn r).addr == a).any fun r => !s.operandsReady r

/-- A store with a known address, or no store. -/
def addrKnown (s : State env) (r : Ref) : Bool := !s.isStore r || s.storeAddrReady r

/-- The load `r` may go, `pre` being the entries before it. -/
def mayGo (s : State env) (pre : List Ref) (r : Ref) : Bool :=
  waitingLoad r s && pre.all (addrKnown s) && !blocked s pre (s.stn r).addr

/-- The entries of a list that satisfy `c`, which also sees the entries before. -/
def pick (c : List Ref → Ref → Bool) : List Ref → List Ref → List Ref
  | _, [] => []
  | pre, r :: rest => (if c pre r then [r] else []) ++ pick c (pre ++ [r]) rest

/-- The loads of the LSQ that may go. -/
def selectedLoads (cfg : Config) (s : State env) : List Ref := pick (mayGo s) [] (s.rob.lsq cfg)

/-- `rs` and nothing else has been queued. -/
def Enqueues (s : State env) (rs : List Ref) (s' : State env) : Prop :=
  (s'.readyQueue.map RSLink.rs).Perm (rs ++ s.readyQueue.map RSLink.rs) ∧
    ∀ r, s'.queued r = (s.queued r || decide (r ∈ rs))

theorem mem_pick {c : List Ref → Ref → Bool} : ∀ {pre rest : List Ref},
    r ∈ pick c pre rest ↔ ∃ p q, rest = p ++ r :: q ∧ c (pre ++ p) r = true := by
  intro pre rest
  induction rest generalizing pre with
  | nil => simp [pick]
  | cons a rest ih =>
    rw [pick, mem_append, ih]
    constructor
    · rintro (hHead | ⟨p, q, rfl, hc⟩)
      · split at hHead
        · next hc =>
          obtain rfl := mem_singleton.mp hHead
          exact ⟨[], rest, rfl, by simpa using hc⟩
        · cases hHead
      · exact ⟨a :: p, q, rfl, by simpa using hc⟩
    · rintro ⟨p, q, hList, hc⟩
      cases p with
      | nil =>
        obtain ⟨rfl, rfl⟩ := List.cons.inj hList
        rw [append_nil] at hc
        exact .inl (by simp [hc])
      | cons b p =>
        obtain ⟨rfl, rfl⟩ := List.cons.inj hList
        exact .inr ⟨p, q, rfl, by simpa using hc⟩

variable {c c' : List Ref → Ref → Bool}

theorem pick_congr : ∀ {pre rest : List Ref},
    (∀ p r q, rest = p ++ r :: q → c (pre ++ p) r = c' (pre ++ p) r) →
    pick c pre rest = pick c' pre rest := by
  intro pre rest
  induction rest generalizing pre with
  | nil => intro _; rfl
  | cons a rest ih =>
    intro h
    have hHead : c pre a = c' pre a := by simpa using h [] a rest rfl
    rw [pick, pick, hHead, ih fun p r q hRest => ?_]
    simpa using h (a :: p) r q (by rw [hRest]; rfl)

/-- In a list without repetitions an entry is in one place. -/
theorem eq_of_split {l p p' q q' : List Ref} (hl : l.Nodup) (h : l = p ++ r :: q)
    (h' : l = p' ++ r :: q') : p = p' := by
  have hNot : r ∉ p ∧ r ∉ q := by
    rw [h, nodup_append, nodup_cons] at hl
    exact ⟨fun hp => hl.2.2 r hp r mem_cons_self rfl, hl.2.1.1⟩
  exact ((append_cons_inj_of_notMem hNot.1 hNot.2).mp (h.symm.trans h')).1

variable {l : List Ref}

/-- The picked entries determine the choices, too. -/
theorem pick_mem_congr (hl : l.Nodup) (h : ∀ r, r ∈ pick c [] l ↔ r ∈ pick c' [] l) :
    ∀ p r q, l = p ++ r :: q → c p r = c' p r := by
  have hOnly : ∀ {c : List Ref → Ref → Bool} {p r q}, l = p ++ r :: q →
      (r ∈ pick c [] l ↔ c p r = true) := by
    intro c p r q hList
    rw [mem_pick]
    constructor
    · rintro ⟨p', q', hList', hc⟩
      rw [eq_of_split hl hList hList']
      simpa using hc
    · exact fun hc => ⟨p, q, hList, by simpa using hc⟩
  intro p r q hList
  exact Bool.eq_iff_iff.mpr ((hOnly hList).symm.trans ((h r).trans (hOnly hList)))

/-! ### The remembered addresses -/

/-- What `refreshStore` does to the remembered addresses. -/
def stdStep (s : State env) (std : List Word) (r : Ref) : List Word :=
  if !s.isStore r then std
  else if !s.operandsReady r then std ++ [(s.stn r).addr]
  else std.map fun a => if a = (s.stn r).addr then 0 else a

def stdOf (s : State env) (pre : List Ref) : List Word := pre.foldl (stdStep s) []

theorem stdOf_concat (pre : List Ref) (r : Ref) : stdOf s (pre ++ [r]) = stdStep s (stdOf s pre) r := by
  simp [stdOf]

/-- There is a store to `a` without data. -/
def lacksData (s : State env) (pre : List Ref) (a : Word) : Prop :=
  ∃ u ∈ pre, s.isStore u = true ∧ (s.stn u).addr = a ∧ s.operandsReady u = false

/-- A store without data was followed by one with data, to the same address. -/
def cancelled (s : State env) (pre : List Ref) : Prop :=
  ∃ p v q, pre = p ++ v :: q ∧ s.isStore v = true ∧ s.operandsReady v = true ∧
    lacksData s p (s.stn v).addr

theorem blocked_concat (a : Word) : blocked s (pre ++ [r]) a =
    if s.isStore r && (s.stn r).addr == a then !s.operandsReady r else blocked s pre a := by
  unfold blocked
  rw [reverse_append, reverse_singleton, singleton_append, List.find?_cons]
  cases s.isStore r && (s.stn r).addr == a <;> rfl

theorem lacksData_concat (a : Word) : lacksData s (pre ++ [r]) a ↔ lacksData s pre a ∨
    s.isStore r = true ∧ (s.stn r).addr = a ∧ s.operandsReady r = false := by
  simp only [lacksData, mem_append, mem_singleton, or_and_right, exists_or, exists_eq_left]

theorem cancelled_concat : cancelled s (pre ++ [r]) ↔ cancelled s pre ∨
    s.isStore r = true ∧ s.operandsReady r = true ∧ lacksData s pre (s.stn r).addr := by
  constructor
  · rintro ⟨p, v, q, hList, h⟩
    rcases eq_nil_or_concat q with rfl | ⟨q', b, rfl⟩
    · obtain ⟨rfl, hLast⟩ := append_inj' hList rfl
      cases hLast
      exact .inr h
    · rw [concat_eq_append, ← cons_append, ← append_assoc] at hList
      exact .inl ⟨p, v, q', (append_inj' hList rfl).1, h⟩
  · rintro (⟨p, v, q, rfl, h⟩ | h)
    · exact ⟨p, v, q ++ [r], by simp, h⟩
    · exact ⟨pre, r, [], rfl, h⟩

variable {a : Word}

theorem lacksData_of_blocked (h : blocked s pre a = true) : lacksData s pre a := by
  induction pre using List.reverseRecOn with
  | nil => cases h
  | append_singleton pre r ih =>
    rw [blocked_concat] at h
    rw [lacksData_concat]
    split at h
    · next hHere =>
      simp only [Bool.and_eq_true, beq_iff_eq] at hHere
      exact .inr ⟨hHere.1, hHere.2, by simpa using h⟩
    · exact .inl (ih h)

/-- If the youngest store to `a` has its data, an older one without is hidden by it. -/
theorem blocked_or_cancelled (h : lacksData s pre a) :
    blocked s pre a = true ∨ cancelled s pre := by
  induction pre using List.reverseRecOn with
  | nil => obtain ⟨u, hu, -⟩ := h; cases hu
  | append_singleton pre r ih =>
    rw [blocked_concat, cancelled_concat]
    rcases (lacksData_concat a).mp h with hOld | ⟨hStore, hAddr, hNot⟩
    · by_cases hHere : s.isStore r = true ∧ (s.stn r).addr = a
      · obtain ⟨hStore, rfl⟩ := hHere
        cases hReady : s.operandsReady r with
        | false => exact .inl (by simp [hStore])
        | true => exact .inr (.inr ⟨hStore, rfl, hOld⟩)
      · have hSkip : (s.isStore r && (s.stn r).addr == a) = false := by simpa using hHere
        rw [hSkip]
        exact (ih hOld).imp id .inl
    · exact .inl (by simp [hStore, hAddr, hNot])

/-- **The remembered addresses** are those of the blocking stores, and 0 once one of them
has been taken out. -/
theorem mem_stdOf (a : Word) : a ∈ stdOf s pre ↔
    blocked s pre a = true ∨ a = 0 ∧ cancelled s pre := by
  induction pre using List.reverseRecOn generalizing a with
  | nil => simp [stdOf, blocked, cancelled]
  | append_singleton pre r ih =>
    rw [stdOf_concat, blocked_concat, cancelled_concat, stdStep]
    cases hStore : s.isStore r with
    | false => simp [ih]
    | true =>
      cases hReady : s.operandsReady r with
      | false =>
        by_cases hHere : (s.stn r).addr = a
        · simp [hHere]
        · simp [hHere, Ne.symm hHere, ih]
      | true =>
        simp only [Bool.not_true, Bool.false_eq_true, if_false, Bool.true_and, mem_map, ih,
          true_and, beq_iff_eq]
        constructor
        · -- an address that is taken out was blocked, or is 0 already
          rintro ⟨x, hx, rfl⟩
          by_cases hHere : x = (s.stn r).addr
          · subst hHere
            refine .inr ⟨if_pos rfl, hx.symm.imp And.right lacksData_of_blocked⟩
          · rw [if_neg hHere, if_neg (Ne.symm hHere)]
            exact hx.imp_right (And.imp_right .inl)
        · rintro (hBlocked | ⟨rfl, hCancelled | hLacks⟩)
          · split at hBlocked
            · cases hBlocked
            · next hNot => exact ⟨a, .inl hBlocked, if_neg (Ne.symm hNot)⟩
          · exact ⟨0, .inr ⟨rfl, hCancelled⟩, ite_self 0⟩
          · rcases blocked_or_cancelled hLacks with hBlocked | hCancelled
            · exact ⟨_, .inl hBlocked, if_pos rfl⟩
            · exact ⟨0, .inr ⟨rfl, hCancelled⟩, ite_self 0⟩

/-! ### The walk -/

/-- The walk of `lsq_refresh` over a list of entries. -/
def refreshList : List Ref → List Word → State env → Except Stop (State env)
  | [], _, s => .ok s
  | r :: rest, std, s => do
    match ← refreshStore r std s with
    | none => return s
    | some std =>
      let s ← refreshLoad r std s
      refreshList rest std s

theorem lsqRefreshLoop_eq : ∀ {n i : Nat} {std : List Word} {s : State env}, i < cfg.lsqSize →
    lsqRefreshLoop cfg n i std s =
      refreshList ((CircularQueue.slots cfg.lsqSize i n).map .lsq) std s := by
  intro n
  induction n with
  | zero => intros; rfl
  | succ n ih =>
    intro i std s hi
    have hNext : (i + 1) % cfg.lsqSize < cfg.lsqSize := Nat.mod_lt _ (by omega)
    rw [CircularQueue.slots_succ_left, Nat.mod_eq_of_lt hi, map_cons]
    show (refreshStore (.lsq i) std s >>= _) = (refreshStore (.lsq i) std s >>= _)
    refine congrArg _ (funext fun o => ?_)
    cases o with
    | none => rfl
    | some std' => exact congrArg _ (funext fun s' => ih hNext)

theorem lsqRefresh_eq (h : QueueInv cfg s.rob) :
    lsqRefresh cfg s = refreshList (s.rob.lsq cfg) [] s :=
  lsqRefreshLoop_eq h.lsqHead_lt

/-- The loads that the walk selects. -/
def goes (s : State env) (pre : List Ref) (r : Ref) : Bool :=
  waitingLoad r s && pre.all (addrKnown s) && !(stdOf s pre).contains (s.stn r).addr

/-- How many stores have an address and no data. -/
def lacking (s : State env) (l : List Ref) : Nat :=
  l.countP fun r => s.isStore r && !s.operandsReady r

theorem length_stdOf : (stdOf s pre).length = lacking s pre := by
  induction pre using List.reverseRecOn with
  | nil => rfl
  | append_singleton pre r ih =>
    rw [stdOf_concat, lacking, countP_append, ← lacking, ← ih, stdStep]
    cases hStore : s.isStore r <;> cases hReady : s.operandsReady r <;> simp [hStore, hReady]

theorem not_waiting_of_store (h : s.isStore r = true) : waitingLoad r s = false := by
  have hNot : s.isLoad r = false := Opcode.not_load_of_store _ h
  simp [waitingLoad, hNot]

/-- Nothing is selected behind a store whose address is not known. -/
theorem pick_goes_of_unknown {rest : List Ref} (h : pre.all (addrKnown s) = false) :
    pick (goes s) pre rest = [] := by
  refine eq_nil_iff_forall_not_mem.mpr fun r hr => ?_
  obtain ⟨p, q, -, hGoes⟩ := mem_pick.mp hr
  simp [goes, h] at hGoes

/-- `refreshStore` remembers the address, stops, or finds no room. -/
theorem refreshStore_eq (std : List Word) : refreshStore r std s =
    if addrKnown s r = false then .ok none
    else if (s.isStore r && !s.operandsReady r) = true ∧ std.length = maxStdUnknowns then
      .error (.check .stdUnknownOverflow)
    else .ok (some (stdStep s std r)) := by
  unfold refreshStore addrKnown stdStep
  cases s.isStore r <;> cases s.storeAddrReady r <;> cases s.operandsReady r <;>
    by_cases hFull : std.length = maxStdUnknowns <;> simp [hFull]

/-- The loads `ps` have been queued since `s₀`. -/
structure Queued (s₀ : State env) (ps : List Ref) (s : State env) : Prop where
  stn : s.stn = s₀.stn
  idepReady : s.idepReady = s₀.idepReady
  issued : s.issued = s₀.issued
  completed : s.completed = s₀.completed
  enqueues : Enqueues s₀ ps s
  free : s.rslinkFreeList.length + ps.length = s₀.rslinkFreeList.length

namespace Queued

variable {s₀ : State env} {ps : List Ref}

theorem refl (s : State env) : Queued s [] s :=
  ⟨rfl, rfl, rfl, rfl, ⟨.refl _, fun r => by simp⟩, rfl⟩

theorem enqueue (h : Queued s₀ ps s) {id : Nat} {rest : List Nat}
    (hFree : s.rslinkFreeList = id :: rest) (r : Ref) :
    Queued s₀ (ps ++ [r]) (enqueued id rest r s) := by
  refine ⟨h.stn, h.idepReady, h.issued, h.completed, ⟨?_, fun r' => ?_⟩, ?_⟩
  · have hPerm := ((insertReady_perm (goesFirst (s.stn r)) (newLink id r (s.stn r).seq s)
      s.readyQueue).map RSLink.rs).trans (h.enqueues.1.cons r)
    rw [append_assoc]
    exact hPerm.trans perm_middle.symm
  · have hOld := h.enqueues.2 r'
    by_cases hr : r' = r
    · simp [enqueued, hr]
    · simp [enqueued, hr, hOld]
  · have hLen := h.free
    rw [hFree, length_cons] at hLen
    rw [length_append, length_singleton]
    show rest.length + (ps.length + 1) = _
    omega

theorem refreshStore (h : Queued s₀ ps s) (std : List Word) :
    refreshStore r std s = Outorder.refreshStore r std s₀ := by
  have hStore : s.isStore r = s₀.isStore r := by rw [State.isStore, h.stn, State.isStore]
  have hAddr : s.storeAddrReady r = s₀.storeAddrReady r := by
    rw [State.storeAddrReady, h.idepReady, State.storeAddrReady]
  have hReady : s.operandsReady r = s₀.operandsReady r := by
    rw [State.operandsReady, h.idepReady, State.operandsReady]
  unfold Outorder.refreshStore
  rw [hStore, hAddr, hReady, h.stn]

theorem waitingLoad (h : Queued s₀ ps s) (hr : r ∉ ps) :
    waitingLoad r s = Outorder.waitingLoad r s₀ := by
  have hQueued : s.queued r = s₀.queued r := by simp [h.enqueues.2 r, hr]
  simp only [Outorder.waitingLoad, State.isLoad, State.operandsReady, h.stn, h.idepReady, h.issued,
    h.completed, hQueued]

theorem refreshLoad (h : Queued s₀ ps s) (hr : r ∉ ps) (hKnown : pre.all (addrKnown s₀) = true) :
    refreshLoad r (stdOf s₀ (pre ++ [r])) s =
      if goes s₀ pre r then readyqEnqueue r s else .ok s := by
  unfold Outorder.refreshLoad goes
  rw [h.waitingLoad hr, hKnown, Bool.and_true, h.stn]
  cases hStore : s₀.isStore r with
  | true => rw [not_waiting_of_store hStore]; rfl
  | false => rw [stdOf_concat, stdStep, hStore]; rfl

end Queued

/-- **A walk** from the middle of the LSQ on: it has no errors exactly if there is room for
the addresses and there are link records for the loads it selects, and it queues those. -/
theorem refreshList_spec {s₀ : State env} : ∀ {rest pre ps : List Ref} {s : State env},
    Queued s₀ ps s → pre.all (addrKnown s₀) = true → rest.Nodup → (∀ r ∈ rest, r ∉ ps) →
    lacking s₀ pre ≤ maxStdUnknowns →
    (∀ s', refreshList rest (stdOf s₀ pre) s = .ok s' →
      Queued s₀ (ps ++ pick (goes s₀) pre rest) s' ∧
      lacking s₀ (pre ++ rest.takeWhile (addrKnown s₀)) ≤ maxStdUnknowns) ∧
    (lacking s₀ (pre ++ rest.takeWhile (addrKnown s₀)) ≤ maxStdUnknowns →
      (pick (goes s₀) pre rest).length ≤ s.rslinkFreeList.length →
      ∃ s', refreshList rest (stdOf s₀ pre) s = .ok s') := by
  intro rest
  induction rest with
  | nil =>
    intro pre ps s h _ _ _ hRoom
    refine ⟨fun s' hRun => ?_, fun _ _ => ⟨s, rfl⟩⟩
    cases hRun
    simpa [pick] using ⟨h, hRoom⟩
  | cons r rest ih =>
    intro pre ps s h hKnown hNodup hFresh hRoom
    obtain ⟨hr, hNodup⟩ := nodup_cons.mp hNodup
    rw [refreshList, h.refreshStore, refreshStore_eq, pick]
    cases hAddr : addrKnown s₀ r with
    | false =>
      -- the walk ends here, at a store
      have hStore : s₀.isStore r = true := by
        cases hStore : s₀.isStore r with
        | true => rfl
        | false => simp [addrKnown, hStore] at hAddr
      have hStay : goes s₀ pre r = false := by simp [goes, not_waiting_of_store hStore]
      have hRest : pick (goes s₀) (pre ++ [r]) rest = [] :=
        pick_goes_of_unknown (by simp [hAddr])
      rw [hStay, hRest, takeWhile_cons_of_neg (by simp [hAddr])]
      refine ⟨fun s' hRun => ?_, fun _ _ => ⟨s, rfl⟩⟩
      cases hRun
      simpa using ⟨h, hRoom⟩
    | true =>
      have hCount : lacking s₀ (pre ++ [r]) =
          lacking s₀ pre + if s₀.isStore r && !s₀.operandsReady r then 1 else 0 := by
        simp [lacking, countP_append, countP_singleton]
      have hWhile : pre ++ (r :: rest).takeWhile (addrKnown s₀) =
          (pre ++ [r]) ++ rest.takeWhile (addrKnown s₀) := by
        rw [takeWhile_cons_of_pos hAddr, append_assoc, singleton_append]
      rw [hWhile, length_stdOf]
      by_cases hFull : (s₀.isStore r && !s₀.operandsReady r) = true ∧ lacking s₀ pre = maxStdUnknowns
      · rw [if_neg (by simp), if_pos hFull]
        refine ⟨fun s' hRun => (by cases hRun), fun hFew => ?_⟩
        rw [hFull.1, hFull.2] at hCount
        rw [lacking, countP_append, ← lacking, hCount, if_pos rfl] at hFew
        omega
      rw [if_neg (by simp), if_neg hFull, ← stdOf_concat]
      have hRoom' : lacking s₀ (pre ++ [r]) ≤ maxStdUnknowns := by
        rw [hCount]
        split
        · next hLack =>
          have hNe : lacking s₀ pre ≠ maxStdUnknowns := fun hEq => hFull ⟨hLack, hEq⟩
          omega
        · exact hRoom
      have hKnown' : (pre ++ [r]).all (addrKnown s₀) = true := by simp [hKnown, hAddr]
      have hFresh' : ∀ r' ∈ rest, r' ∉ ps := fun r' hr' => hFresh r' (.tail _ hr')
      show (∀ s', (Outorder.refreshLoad r _ s >>= _) = Except.ok s' → _) ∧
        (_ → _ → ∃ s', (Outorder.refreshLoad r _ s >>= _) = Except.ok s')
      rw [h.refreshLoad (hFresh r mem_cons_self) hKnown]
      cases hGoes : goes s₀ pre r with
      | false => exact ih h hKnown' hNodup hFresh' hRoom'
      | true =>
        have hWait : waitingLoad r s = true := by
          rw [h.waitingLoad (hFresh r mem_cons_self)]
          simp only [goes, Bool.and_eq_true] at hGoes
          exact hGoes.1.1
        have hIdle : s.queued r = false := by
          simp only [waitingLoad, Bool.and_eq_true, Bool.not_eq_true'] at hWait
          exact hWait.1.1.1.2
        cases hFree : s.rslinkFreeList with
        | nil =>
          have hOut : readyqEnqueue r s = .error (.check .outOfRsLinks) := by
            simp [readyqEnqueue, rslinkNew, hIdle, hFree, bind, Except.bind]
          rw [if_pos rfl, hOut]
          exact ⟨fun s' hRun => (by cases hRun), fun _ hLen => by simp at hLen⟩
        | cons id free =>
          have hOk : readyqEnqueue r s = .ok (enqueued id free r s) := by
            simp [readyqEnqueue, rslinkNew, hIdle, hFree, bind, Except.bind, enqueued, newLink, pure,
              Except.pure]
          obtain ⟨hSound, hRuns⟩ := ih (h.enqueue hFree r) hKnown' hNodup (fun r' hr' => by
            simpa using ⟨hFresh' r' hr', fun hEq => hr (hEq ▸ hr')⟩) hRoom'
          rw [if_pos rfl, hOk]
          refine ⟨fun s' hRun => ?_, fun hFew hLen => hRuns hFew ?_⟩
          · simpa using hSound s' hRun
          · simpa [enqueued] using hLen

/-! ### The selection -/

/-- No load from address 0 is held up by an address that was taken out. -/
def ZeroFree (cfg : Config) (s : State env) : Prop :=
  ∀ pre r post, s.rob.lsq cfg = pre ++ r :: post → waitingLoad r s = true →
    pre.all (addrKnown s) = true → (s.stn r).addr = 0 → cancelled s pre → blocked s pre 0 = true

theorem goes_eq_mayGo_iff : goes s pre r = mayGo s pre r ↔
    (waitingLoad r s = true → pre.all (addrKnown s) = true → (s.stn r).addr = 0 →
      cancelled s pre → blocked s pre 0 = true) := by
  have hStd : (stdOf s pre).contains (s.stn r).addr = true ↔
      blocked s pre (s.stn r).addr = true ∨ (s.stn r).addr = 0 ∧ cancelled s pre := by
    rw [contains_iff_mem, mem_stdOf]
  unfold goes mayGo
  cases waitingLoad r s with
  | false => simp
  | true =>
    cases pre.all (addrKnown s) with
    | false => simp
    | true =>
      simp only [Bool.true_and, Bool.not_inj_iff, true_implies]
      rw [Bool.eq_iff_iff, hStd]
      constructor
      · intro h hZero hCancelled
        rw [← hZero]
        exact h.mp (.inr ⟨hZero, hCancelled⟩)
      · intro h
        refine ⟨fun hOr => hOr.elim id fun ⟨hZero, hCancelled⟩ => ?_, .inl⟩
        rw [hZero]
        exact h hZero hCancelled

theorem goes_waits (p : List Ref) (r : Ref) (h : goes s p r = true) : waitingLoad r s = true := by
  simp only [goes, Bool.and_eq_true] at h
  exact h.1.1

theorem mayGo_waits (p : List Ref) (r : Ref) (h : mayGo s p r = true) : waitingLoad r s = true := by
  simp only [mayGo, Bool.and_eq_true] at h
  exact h.1.1

theorem idle_of_mem_pick {c : List Ref → Ref → Bool}
    (hc : ∀ p r, c p r = true → waitingLoad r s = true) (hr : r ∈ pick c [] l) :
    ¬ s.queued r = true := by
  obtain ⟨p, q, -, hGoes⟩ := mem_pick.mp hr
  have hWait := hc _ r hGoes
  simp only [waitingLoad, Bool.and_eq_true, Bool.not_eq_true'] at hWait
  simp [hWait.1.1.1.2]

/-- **Load selection** is exact: `lsq_refresh` comes to an end without an error, and queues the
loads that may go and no others, exactly if at most 64 stores before the first one with an
unknown address have no data, there are link records for those loads, and no load from
address 0 is held up for nothing. -/
theorem load_selection {img : Image} (h : Reachable cfg img s) :
    (∃ s', lsqRefresh cfg s = .ok s' ∧ Enqueues s (selectedLoads cfg s) s') ↔
      lacking s ((s.rob.lsq cfg).takeWhile (addrKnown s)) ≤ maxStdUnknowns ∧
      (selectedLoads cfg s).length ≤ s.rslinkFreeList.length ∧ ZeroFree cfg s := by
  have hQueue := (base_reachable h).queue
  have hNodup := s.rob.nodup_lsq cfg hQueue.lsqNum_le
  obtain ⟨hSound, hRuns⟩ := @refreshList_spec env s (s.rob.lsq cfg) [] [] s (.refl s) rfl hNodup
    (fun _ _ => not_mem_nil) (Nat.zero_le _)
  rw [lsqRefresh_eq hQueue]
  -- the walk selects the right loads where no address was taken out
  have hZero : ZeroFree cfg s ↔
      ∀ p r q, s.rob.lsq cfg = p ++ r :: q → goes s p r = mayGo s p r :=
    forall_congr' fun p => forall_congr' fun r => forall_congr' fun q => imp_congr_right fun _ =>
      goes_eq_mayGo_iff.symm
  constructor
  · rintro ⟨s', hRun, -, hQueued⟩
    obtain ⟨hEnd, hFew⟩ := hSound s' hRun
    have hSame : ∀ p r q, s.rob.lsq cfg = p ++ r :: q → goes s p r = mayGo s p r := by
      refine pick_mem_congr hNodup fun r => ?_
      have hBoth := (hEnd.enqueues.2 r).symm.trans (hQueued r)
      cases hOld : s.queued r with
      | false =>
        rw [hOld, Bool.false_or, Bool.false_or, decide_eq_decide] at hBoth
        exact hBoth
      | true =>
        -- what waits is not queued
        exact ⟨fun hr => absurd hOld (idle_of_mem_pick goes_waits hr),
          fun hr => absurd hOld (idle_of_mem_pick mayGo_waits hr)⟩
    have hPicks : pick (goes s) [] (s.rob.lsq cfg) = selectedLoads cfg s := pick_congr hSame
    refine ⟨hFew, ?_, hZero.mpr hSame⟩
    have hFree := hEnd.free
    rw [nil_append, hPicks] at hFree
    omega
  · rintro ⟨hFew, hLen, hNone⟩
    have hPicks : pick (goes s) [] (s.rob.lsq cfg) = selectedLoads cfg s :=
      pick_congr (hZero.mp hNone)
    obtain ⟨s', hRun⟩ := hRuns hFew (hPicks ▸ hLen)
    refine ⟨s', hRun, ?_⟩
    have hEnd := (hSound s' hRun).1.enqueues
    rwa [nil_append, hPicks] at hEnd

/-- `lui $4,0x1000; lw $3,0($4)` and a loop. -/
def oneLoad : Image := Image.ofInsts [⟨113, 0x00041000⟩, ⟨18, 0x04030000⟩, ⟨2, 0x100004⟩]

/-- The load is selected as soon as its address has been written back. -/
theorem load_selection_oneLoad : ∃ s₀ s s' : State Env.bare,
    simMain Config.bare oneLoad 4 = .ok s₀ ∧ ruuWriteback Config.bare s₀ = .ok s ∧
    selectedLoads Config.bare s = [.lsq 0] ∧ lsqRefresh Config.bare s = .ok s' ∧
    Enqueues s [.lsq 0] s' := by
  obtain ⟨s₀, hs₀, hAny⟩ : ∃ s₀ : State Env.bare, simMain Config.bare oneLoad 4 = .ok s₀ ∧
      ((ruuWriteback Config.bare s₀).toOption.any fun s =>
        decide (selectedLoads Config.bare s = [.lsq 0] ∧ s.lsqNum = 1 ∧ s.rslinkFreeList ≠ [] ∧
          lacking s ((s.rob.lsq Config.bare).takeWhile (addrKnown s)) = 0)) = true :=
    exists_ok_of_any (by decide +kernel)
  obtain ⟨s, hs, hFacts⟩ := exists_ok_of_any hAny
  obtain ⟨hSelected, hNum, hFree, hFew⟩ := of_decide_eq_true hFacts
  have hReach : Reachable Config.bare oneLoad s :=
    .step .writeback (reach_reachable (reach_simMain hs₀)) hs
  have hZero : ZeroFree Config.bare s := by
    -- nothing is older than the only entry
    intro pre r post hList _ _ _ hCancelled
    have hLen := congrArg List.length hList
    rw [Rob.length_lsq, show s.rob.lsqNum = 1 from hNum, length_append, length_cons] at hLen
    obtain rfl : pre = [] := eq_nil_of_length_eq_zero (by omega)
    obtain ⟨p, v, q, hNil, -⟩ := hCancelled
    simp at hNil
  have hRoom : (selectedLoads Config.bare s).length ≤ s.rslinkFreeList.length := by
    rw [hSelected]
    exact length_pos_iff.mpr hFree
  obtain ⟨s', hs', hEnq⟩ := (load_selection hReach).mpr ⟨hFew.trans_le (Nat.zero_le _), hRoom, hZero⟩
  exact ⟨s₀, s, s', hs₀, hs, hSelected, hs', hSelected ▸ hEnq⟩

/-- A branch on the result of a division, predicted the wrong way; behind it
`sw $5,4($0); sw $0,4($0); lw $3,0($0)`, where `$5` waits for the division too. -/
def loadFromZero : Image :=
  Image.ofInsts [⟨55, 0x00020001⟩, ⟨60, 0x02020000⟩, ⟨64, 0x00000500⟩, ⟨6, 0x0502000f⟩,
    ⟨26, 0x00050004⟩, ⟨26, 0x00000004⟩, ⟨18, 0x00030000⟩, ⟨2, 0x10000e⟩]

/-- The second store takes the address of the first one out, and the load from address 0 is
held up although no store to 0 is older. -/
theorem zero_held_up : ∃ s s' : State Env.bare, simMain Config.notTaken loadFromZero 6 = .ok s ∧
    selectedLoads Config.notTaken s = [.lsq 2] ∧ lsqRefresh Config.notTaken s = .ok s' ∧
    s'.readyQueue = s.readyQueue ∧ s'.queued (.lsq 2) = false := by
  obtain ⟨s, hs, hFacts⟩ : ∃ s : State Env.bare, simMain Config.notTaken loadFromZero 6 = .ok s ∧
      (decide (selectedLoads Config.notTaken s = [.lsq 2]) &&
        (lsqRefresh Config.notTaken s).toOption.any fun s' =>
          decide (s'.readyQueue = s.readyQueue ∧ s'.queued (.lsq 2) = false)) = true :=
    exists_ok_of_any (by decide +kernel)
  obtain ⟨hSelected, hAny⟩ := Bool.and_eq_true_iff.mp hFacts
  obtain ⟨s', hs', hSame⟩ := exists_ok_of_any hAny
  exact ⟨s, s', hs, of_decide_eq_true hSelected, hs', of_decide_eq_true hSame⟩

end SimpleScalar.Outorder

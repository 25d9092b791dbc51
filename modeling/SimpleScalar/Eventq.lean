import SimpleScalar.Lib.LinkedList
import Mathlib.Data.List.Perm.Basic
import Mathlib.Data.List.Sort

/-!
# The generic event queue

`eventq.c` keeps event records in two linked lists, the pending events in the order of
their times and the free records.  `eventq_service_events` performs the pending events that
are due, `eventq_execute` performs one at once, `eventq_remove` drops one.  An action may be
a callback, and a callback may call the queue again.

A callback is arbitrary code.  The state therefore says which action is in progress, and
between the call of a callback and its return (`ret`) any operation may happen.  The serial
numbers of the events and the lists of those performed and removed are not in the source;
they say what has happened to each insertion.

`eventq_execute` takes its record out of the list before the action.
`eventq_service_events` leaves it at the head of the list during the action, and takes out
whatever is behind it afterwards: an event that the callback has put in front is lost, and a
record that the callback has removed is freed twice.  `Careful` excludes both.

* `Queue.Inv.step`: a careful step keeps the lists and the account of the events.
* `queueCorrect_of_careful`: in every careful run each event is performed once, or removed
  and not performed, and each record is in one list.
* `lost_insertion`: an event that a callback schedules for the present is never performed.
-/

namespace SimpleScalar

namespace Eventq

open List LinkedList

/-! ### Records -/

/-- `enum eventq_action` with `union eventq_data`; pointers are addresses. -/
inductive Action where
  | setBit (bmap : ℕ) (sz bitnum : ℤ)
  | clearBit (bmap : ℕ) (sz bitnum : ℤ)
  | setFlag (pflag : ℕ) (value : ℤ)
  | addOp (summand : ℕ) (addend : ℤ)
  | callback (fn : ℕ) (arg : ℤ)
  deriving DecidableEq, Repr

def Action.isCallback : Action → Bool
  | .callback _ _ => true
  | _ => false

/-- `struct eventq_desc` without its link, with the number of the insertion. -/
structure Desc where
  when : ℤ
  id : BitVec 32
  action : Action
  serial : ℕ
  deriving DecidableEq, Repr

/-- An action that was performed, with the time it was told. -/
structure Performed where
  serial : ℕ
  action : Action
  now : ℤ
  deriving DecidableEq, Repr

/-- A call of `eventq_service_events`: its argument, the record whose callback is running, and
the times of the events it has performed. -/
structure Service where
  now : ℤ
  ev : Option ℕ
  done : List ℤ
  deriving DecidableEq, Repr

structure Queue where
  maxEvents : ℤ
  eventCount : ℤ
  pending : Option ℕ
  free : Option ℕ
  nextId : BitVec 32
  next : ℕ → Option ℕ
  desc : ℕ → Desc
  /-- the records that were allocated are those below -/
  top : ℕ
  /-- events inserted so far -/
  count : ℕ
  performed : List Performed
  removed : List ℕ
  /-- the call of `eventq_service_events` in progress -/
  service : Option Service
  /-- the records of the calls of `eventq_execute` in progress, the innermost first -/
  executing : List ℕ

namespace Queue

/-- `eventq_init`, at the start of the program. -/
def init (maxEvents : ℤ) : Queue where
  maxEvents := maxEvents
  eventCount := 0
  pending := none
  free := none
  nextId := 1
  next _ := none
  desc _ := ⟨0, 0, .setFlag 0 0, 0⟩
  top := 0
  count := 0
  performed := []
  removed := []
  service := none
  executing := []

/-- The records of the pending list. -/
def pendingList (q : Queue) : List ℕ := follow q.next q.top q.pending

/-- The records of the free list. -/
def freeList (q : Queue) : List ℕ := follow q.next q.top q.free

/-! ### Operations

The result is `none` where the simulator stops with `too many events`, and where a loop
along a list does not end because the list has become a cycle. -/

/-- A free event descriptor, allocated if there is none. -/
def takeFree (q : Queue) : Option (ℕ × Queue) :=
  match q.free with
  | some new => some (new, { q with free := q.next new })
  | none =>
    if q.maxEvents ≠ 0 ∧ q.eventCount ≥ q.maxEvents then none
    else some (q.top, { q with next := Function.update q.next q.top none, top := q.top + 1 })

/-- Plug in event data. -/
def plugIn (q : Queue) (new : ℕ) (when : ℤ) (action : Action) : Queue :=
  { q with
    desc := Function.update q.desc new ⟨when, q.nextId, action, q.count⟩
    nextId := q.nextId + 1
    count := q.count + 1 }

/-- `__QUEUE_EVENT`. -/
def queueEvent (when : ℤ) (action : Action) (q : Queue) : Option Queue := do
  let (new, q) ← q.takeFree
  let q := q.plugIn new when action
  let (prev, _) ← scan q.next (fun ev => !decide ((q.desc ev).when < when)) (q.top + 1) none q.pending
  return { q with
    next := (insertAfter q.next q.pending prev new).1
    pending := (insertAfter q.next q.pending prev new).2 }

/-- Put the record on the free list. -/
def release (q : Queue) (ev : ℕ) : Queue :=
  { q with next := Function.update q.next ev q.free, free := some ev }

/-- The loop of `eventq_execute` and `eventq_remove`. -/
def findId (q : Queue) (id : BitVec 32) : Option (Option ℕ × Option ℕ) :=
  scan q.next (fun ev => decide ((q.desc ev).id = id)) (q.top + 1) none q.pending

/-- The record is taken out of the pending list. -/
def unlink (q : Queue) (prev : Option ℕ) (ev : ℕ) : Queue :=
  { q with
    next := (unlinkAfter q.next q.pending prev ev).1
    pending := (unlinkAfter q.next q.pending prev ev).2 }

/-- `EXECUTE_ACTION` up to the body of a callback. -/
def perform (q : Queue) (ev : ℕ) (now : ℤ) : Queue :=
  { q with performed := q.performed ++ [⟨(q.desc ev).serial, (q.desc ev).action, now⟩] }

/-- `eventq_remove`. -/
def remove (id : BitVec 32) (q : Queue) : Option Queue := do
  match ← q.findId id with
  | (_, none) => return q
  | (prev, some ev) =>
    let q := (q.unlink prev ev).release ev
    return { q with removed := q.removed ++ [(q.desc ev).serial] }

/-- `eventq_execute`; a callback is told that the time is `0`. -/
def execute (id : BitVec 32) (q : Queue) : Option Queue := do
  match ← q.findId id with
  | (_, none) => return q
  | (prev, some ev) =>
    let q := (q.unlink prev ev).perform ev 0
    if (q.desc ev).action.isCallback then
      return { q with executing := ev :: q.executing }
    else
      return q.release ev

/-- The end of a turn of the loop of `eventq_service_events`. -/
def finish (q : Queue) (ev : ℕ) : Queue := { q with pending := q.next ev }.release ev

/-- A turn of that loop, up to the body of a callback, or the end of the loop. -/
def turn (sv : Service) (q : Queue) : Queue :=
  match q.pending with
  | none => { q with service := none }
  | some ev =>
    if (q.desc ev).when ≤ sv.now then
      let done := sv.done ++ [(q.desc ev).when]
      let q := q.perform ev sv.now
      if (q.desc ev).action.isCallback then
        { q with service := some ⟨sv.now, some ev, done⟩ }
      else
        { q.finish ev with service := some ⟨sv.now, none, done⟩ }
    else
      { q with service := none }

/-! ### Runs -/

/-- What may happen next. -/
inductive Op where
  | queue (when : ℤ) (action : Action)
  | remove (id : BitVec 32)
  | execute (id : BitVec 32)
  | service (now : ℤ)
  | turn
  | ret
  deriving DecidableEq, Repr

/-- The program outside the queue is running: no call is in progress, or a callback is. -/
def userCode (q : Queue) : Bool :=
  match q.executing, q.service with
  | [], some ⟨_, none, _⟩ => false
  | _, _ => true

/-- One step.  The loop of `eventq_service_events` is not called by callbacks. -/
def step (q : Queue) : Op → Option Queue
  | .queue when action => if q.userCode then q.queueEvent when action else none
  | .remove id => if q.userCode then q.remove id else none
  | .execute id => if q.userCode then q.execute id else none
  | .service now =>
    match q.executing, q.service with
    | [], none => some { q with service := some ⟨now, none, []⟩ }
    | _, _ => none
  | .turn =>
    match q.executing, q.service with
    | [], some ⟨now, none, done⟩ => some (q.turn ⟨now, none, done⟩)
    | _, _ => none
  | .ret =>
    match q.executing, q.service with
    | ev :: rest, _ => some { q.release ev with executing := rest }
    | [], some ⟨now, some ev, done⟩ => some { q.finish ev with service := some ⟨now, none, done⟩ }
    | [], _ => none

def run : Queue → List Op → Option Queue
  | q, [] => some q
  | q, op :: ops => (q.step op).bind fun q => run q ops

/-! ### What the queue is for -/

/-- The record whose action `eventq_service_events` is performing. -/
def serving (q : Queue) : Option ℕ := q.service.bind Service.ev

/-- Of the records `l` of the pending list, those whose action has not been performed. -/
def waitingOf (q : Queue) (l : List ℕ) : List ℕ := if q.serving.isSome then l.tail else l

/-- The serial numbers of the events that are still to be performed. -/
def waiting (q : Queue) : List ℕ := (q.waitingOf q.pendingList).map fun a => (q.desc a).serial

/-- Each record is in one list, or held by a call of `eventq_execute`; each event that was
inserted was performed once, removed, or is waiting; an id names one pending event. -/
structure Correct (q : Queue) : Prop where
  records : (q.pendingList ++ q.freeList ++ q.executing).Perm (List.range q.top)
  events : (q.performed.map Performed.serial ++ q.removed ++ q.waiting).Perm (List.range q.count)
  ids : (q.pendingList.map fun a => (q.desc a).id).Nodup
  /-- a call of `eventq_service_events` performs events in the order of their times -/
  order : ∀ sv, q.service = some sv → sv.done.Pairwise (· ≤ ·) ∧ ∀ t ∈ sv.done, t ≤ sv.now
  /-- when it returns, no event is left that is due -/
  complete : ∀ sv q', q.service = some sv → q.step .turn = some q' → q'.service = none →
    ∀ a ∈ q'.pendingList, sv.now < (q'.desc a).when
  /-- the loops along the lists end -/
  returns : q.userCode → (∀ id, (q.step (.remove id)).isSome ∧ (q.step (.execute id)).isSome) ∧
    (0 ≤ q.maxEvents → ∀ when action, (q.step (.queue when action)).isSome)

/-- While `eventq_service_events` performs an action, no event is scheduled for its time or
before, and its own event is not removed or executed; an id is not given out again while it is
in use. -/
def Careful (q : Queue) : Op → Prop
  | .queue when _ => (∀ a ∈ q.pendingList, (q.desc a).id ≠ q.nextId) ∧
      ∀ ev, q.serving = some ev → (q.desc ev).when < when
  | .remove id => ∀ ev, q.serving = some ev → (q.desc ev).id ≠ id
  | .execute id => ∀ ev, q.serving = some ev → (q.desc ev).id ≠ id
  | _ => True

instance (q : Queue) : DecidablePred q.Careful
  | .queue when _ =>
    inferInstanceAs (Decidable ((∀ a ∈ q.pendingList, (q.desc a).id ≠ q.nextId) ∧
      ∀ ev ∈ q.serving, (q.desc ev).when < when))
  | .remove id => inferInstanceAs (Decidable (∀ ev ∈ q.serving, (q.desc ev).id ≠ id))
  | .execute id => inferInstanceAs (Decidable (∀ ev ∈ q.serving, (q.desc ev).id ≠ id))
  | .service _ => .isTrue trivial
  | .turn => .isTrue trivial
  | .ret => .isTrue trivial

/-- A run that stops before a step that is not careful. -/
def carefulRun : Queue → List Op → Option Queue
  | q, [] => some q
  | q, op :: ops => if q.Careful op then (q.step op).bind fun q => carefulRun q ops else none

/-- The states of careful runs. -/
def Reaches (q q' : Queue) : Prop :=
  Relation.ReflTransGen (fun q q' => ∃ op, q.Careful op ∧ q.step op = some q') q q'

/-! ### The invariant -/

/-- The pending list is `p` and the free list is `f`. -/
structure Inv (q : Queue) (p f : List ℕ) : Prop where
  pending : Path q.next q.pending p none
  free : Path q.next q.free f none
  parts : (p ++ f ++ q.executing).Perm (List.range q.top)
  sorted : p.Pairwise fun a b => (q.desc a).when ≤ (q.desc b).when
  ids : (p.map fun a => (q.desc a).id).Nodup
  account : (q.performed.map Performed.serial ++ q.removed ++
    (q.waitingOf p).map fun a => (q.desc a).serial).Perm (List.range q.count)
  head : ∀ ev, q.serving = some ev → p.head? = some ev
  order : ∀ sv, q.service = some sv → sv.done.Pairwise (· ≤ ·) ∧
    ∀ t ∈ sv.done, t ≤ sv.now ∧ ∀ a ∈ p, t ≤ (q.desc a).when
  mode : ∀ sv, q.service = some sv → sv.ev = none → q.executing = []
  eventCount : q.eventCount = 0

theorem inv_init (maxEvents : ℤ) : (init maxEvents).Inv [] [] where
  pending := rfl
  free := rfl
  parts := .refl _
  sorted := .nil
  ids := .nil
  account := .refl _
  head _ h := by cases h
  order _ h := by cases h
  mode _ h := by cases h
  eventCount := rfl

variable {q q' : Queue} {p f : List ℕ}

variable {a : ℕ} {sv : Service}

namespace Inv

theorem nodup (h : q.Inv p f) : (p ++ f ++ q.executing).Nodup :=
  h.parts.nodup_iff.mpr nodup_range

theorem length_le (h : q.Inv p f) : p.length ≤ q.top ∧ f.length ≤ q.top := by
  have hLength := h.parts.length_eq
  rw [length_append, length_append, length_range] at hLength
  omega

theorem pendingList_eq (h : q.Inv p f) : q.pendingList = p := h.pending.follow_eq h.length_le.1

theorem freeList_eq (h : q.Inv p f) : q.freeList = f := h.free.follow_eq h.length_le.2

theorem nodup_pending (h : q.Inv p f) : p.Nodup := (nodup_append.mp (nodup_append.mp h.nodup).1).1

theorem not_mem_free (h : q.Inv p f) (ha : a ∈ p) : a ∉ f := fun hf =>
  (nodup_append.mp (nodup_append.mp h.nodup).1).2.2 a ha a hf rfl

theorem not_mem_executing (h : q.Inv p f) (ha : a ∈ p ++ f) : a ∉ q.executing := fun hx =>
  (nodup_append.mp h.nodup).2.2 a ha a hx rfl

/-- User code is running: the service in progress is at an action. -/
theorem serving_of_userCode (h : q.Inv p f) (hUser : q.userCode)
    (hsv : q.service = some sv) : ∃ ev, sv.ev = some ev ∧ q.serving = some ev := by
  obtain ⟨now, ev, done⟩ := sv
  cases ev with
  | none =>
    have hNone := h.mode _ hsv rfl
    rw [userCode, hNone, hsv] at hUser
    cases hUser
  | some ev => exact ⟨ev, rfl, by rw [serving, hsv]; rfl⟩

/-! ### Finding a record -/

/-- The loop over the ids finds the record of the id, or reaches the end. -/
theorem findId_spec (h : q.Inv p f) (id : BitVec 32) :
    (∃ prev, q.findId id = some (prev, none)) ∨ ∃ u ev v, p = u ++ ev :: v ∧ (q.desc ev).id = id ∧
      q.findId id = some (u.getLast?, some ev) := by
  obtain ⟨u, v, rfl, -, hv, hScan⟩ := h.pending.exists_scan
    (P := fun ev => decide ((q.desc ev).id = id)) (Nat.lt_succ_of_le h.length_le.1)
  cases v with
  | nil => exact .inl ⟨_, hScan⟩
  | cons ev v => exact .inr ⟨u, ev, v, rfl, by simpa using hv ev rfl, hScan⟩

/-! ### Taking out and putting back -/

variable {u v : List ℕ} {ev : ℕ}

theorem unlink_pending (h : q.Inv (u ++ ev :: v) f) :
    Path (q.unlink u.getLast? ev).next (q.unlink u.getLast? ev).pending (u ++ v) none :=
  h.pending.unlinkAfter h.nodup_pending

theorem unlink_free (h : q.Inv (u ++ ev :: v) f) :
    Path (q.unlink u.getLast? ev).next q.free f none := by
  refine h.free.congr fun z hz => unlinkAfter_of_not_mem fun hu => ?_
  exact h.not_mem_free (mem_append_left _ hu) hz

theorem parts_release (h : q.Inv (u ++ ev :: v) f) :
    (u ++ v ++ ev :: f ++ q.executing).Perm (List.range q.top) := by
  refine perm_iff_count.mpr fun a => ?_
  have hParts := perm_iff_count.mp h.parts a
  simp only [count_append, count_cons] at hParts ⊢
  omega

theorem not_mem_rest (h : q.Inv (u ++ ev :: v) f) : ev ∉ u ++ v :=
  (nodup_middle.mp h.nodup_pending).notMem

end Inv

variable {u v l : List ℕ} {ev new : ℕ} {prev : Option ℕ} {id : BitVec 32} {now : ℤ}

variable {next : ℕ → Option ℕ}

/-- Freeing a record does not touch a list it is not in. -/
theorem path_release {a b : Option ℕ}
    (h : Path next a l none) (hev : ev ∉ l) : Path (Function.update next ev b) a l none := by
  refine h.congr fun z hz => Function.update_of_ne ?_ ..
  rintro rfl
  exact hev hz

theorem path_released {a : Option ℕ}
    (h : Path next a l none) (hev : ev ∉ l) : Path (Function.update next ev a) (some ev) (ev :: l) none := by
  refine h.cons (fun z hz => Function.update_of_ne ?_ ..) (Function.update_self ..)
  rintro rfl
  exact hev hz

/-- A record behind the one that is being served waits. -/
theorem waitingOf_middle (h : ∀ ev, q.serving = some ev → u ≠ []) :
    (q.waitingOf (u ++ a :: v)).Perm (a :: q.waitingOf (u ++ v)) := by
  unfold waitingOf
  split
  · rename_i hServing
    obtain ⟨ev, hev⟩ := Option.isSome_iff_exists.mp hServing
    obtain ⟨b, u, rfl⟩ := exists_cons_of_ne_nil (h ev hev)
    exact perm_middle
  · exact perm_middle

/-- The record with the id is not the one that is being served. -/
theorem Inv.before_ne_nil (h : q.Inv (u ++ ev :: v) f)
    (hCare : ∀ ev', q.serving = some ev' → (q.desc ev').id ≠ (q.desc ev).id) :
    ∀ ev', q.serving = some ev' → u ≠ [] := by
  rintro ev' hev' rfl
  obtain rfl : ev = ev' := Option.some.inj (h.head ev' hev')
  exact hCare ev hev' rfl

theorem head?_append_of_ne_nil {u v w : List ℕ} (h : u ≠ []) : (u ++ v).head? = (u ++ w).head? := by
  obtain ⟨b, u, rfl⟩ := exists_cons_of_ne_nil h
  rfl

/-- What the invariant says about the other pending records. -/
structure Rest (q : Queue) (p : List ℕ) : Prop where
  sorted : p.Pairwise fun a b => (q.desc a).when ≤ (q.desc b).when
  ids : (p.map fun a => (q.desc a).id).Nodup
  head : ∀ ev, q.serving = some ev → p.head? = some ev
  order : ∀ sv, q.service = some sv → sv.done.Pairwise (· ≤ ·) ∧
    ∀ t ∈ sv.done, t ≤ sv.now ∧ ∀ a ∈ p, t ≤ (q.desc a).when

theorem Inv.rest (h : q.Inv (u ++ ev :: v) f)
    (hu : ∀ ev', q.serving = some ev' → u ≠ []) : q.Rest (u ++ v) where
  sorted := h.sorted.sublist ((List.Sublist.refl u).append (sublist_cons_self ev v))
  ids := h.ids.sublist (((List.Sublist.refl u).append (sublist_cons_self ev v)).map _)
  head ev' hev' := (head?_append_of_ne_nil (hu ev' hev')).trans (h.head ev' hev')
  order sv hsv := by
    refine ⟨(h.order sv hsv).1, fun t ht => ⟨((h.order sv hsv).2 t ht).1, fun a ha => ?_⟩⟩
    refine ((h.order sv hsv).2 t ht).2 a ?_
    rw [mem_append] at ha ⊢
    exact ha.imp_right (mem_cons_of_mem ev)

theorem remove_none (h : q.findId id = some (prev, none)) :
    q.remove id = some q := by
  rw [remove, h]
  rfl

theorem remove_some (h : q.findId id = some (prev, some ev)) : q.remove id =
      some { (q.unlink prev ev).release ev with removed := q.removed ++ [(q.desc ev).serial] } := by
  rw [remove, h]
  rfl

theorem execute_none (h : q.findId id = some (prev, none)) :
    q.execute id = some q := by
  rw [execute, h]
  rfl

theorem execute_some (h : q.findId id = some (prev, some ev)) : q.execute id =
      if (q.desc ev).action.isCallback then
        some { (q.unlink prev ev).perform ev 0 with executing := ev :: q.executing }
      else some (((q.unlink prev ev).perform ev 0).release ev) := by
  rw [execute, h]
  rfl

theorem inv_remove (h : q.Inv p f) (hCare : q.Careful (.remove id)) :
    ∃ q' p' f', q.remove id = some q' ∧ q'.Inv p' f' := by
  rcases h.findId_spec id with ⟨prev, hFind⟩ | ⟨u, ev, v, rfl, hid, hFind⟩
  · exact ⟨q, p, f, remove_none hFind, h⟩
  have hu := h.before_ne_nil fun ev' hev' => hid ▸ hCare ev' hev'
  have hMem : ev ∈ u ++ ev :: v := by simp
  have hRest := h.rest hu
  refine ⟨_, u ++ v, ev :: f, remove_some hFind, ?_, ?_, ?_, hRest.sorted, hRest.ids, ?_, hRest.head,
    hRest.order, h.mode, h.eventCount⟩
  · exact path_release h.unlink_pending h.not_mem_rest
  · exact path_released h.unlink_free (h.not_mem_free hMem)
  · exact h.parts_release
  · refine perm_iff_count.mpr fun a => ?_
    have hAccount := perm_iff_count.mp h.account a
    have hWait := perm_iff_count.mp ((waitingOf_middle hu (v := v) (a := ev)).map fun b =>
      (q.desc b).serial) a
    change List.count a (q.performed.map Performed.serial ++ (q.removed ++ [(q.desc ev).serial]) ++
      (q.waitingOf (u ++ v)).map fun b => (q.desc b).serial) = List.count a (List.range q.count)
    simp only [count_append, count_cons, map_cons, count_nil] at hAccount hWait ⊢
    omega

theorem inv_execute (h : q.Inv p f) (hUser : q.userCode)
    (hCare : q.Careful (.execute id)) : ∃ q' p' f', q.execute id = some q' ∧ q'.Inv p' f' := by
  rcases h.findId_spec id with ⟨prev, hFind⟩ | ⟨u, ev, v, rfl, hid, hFind⟩
  · exact ⟨q, p, f, execute_none hFind, h⟩
  have hu := h.before_ne_nil fun ev' hev' => hid ▸ hCare ev' hev'
  have hMem : ev ∈ u ++ ev :: v := by simp
  have hRest := h.rest hu
  have hAccount : ((q.performed ++ [(⟨(q.desc ev).serial, (q.desc ev).action, 0⟩ : Performed)]).map
      Performed.serial ++ q.removed ++ (q.waitingOf (u ++ v)).map fun b => (q.desc b).serial).Perm
        (List.range q.count) := by
    refine perm_iff_count.mpr fun a => ?_
    have hAccount := perm_iff_count.mp h.account a
    have hWait := perm_iff_count.mp ((waitingOf_middle hu (v := v) (a := ev)).map fun b =>
      (q.desc b).serial) a
    simp only [count_append, count_cons, map_cons, map_append, map_nil,
      count_nil] at hAccount hWait ⊢
    omega
  rw [execute_some hFind]
  split
  · -- the record is held until the callback returns
    refine ⟨_, u ++ v, f, rfl, h.unlink_pending, h.unlink_free, ?_, hRest.sorted, hRest.ids, hAccount,
      hRest.head, hRest.order, fun sv hsv hNone => ?_, h.eventCount⟩
    · refine perm_iff_count.mpr fun a => ?_
      have hParts := perm_iff_count.mp h.parts a
      change List.count a (u ++ v ++ f ++ ev :: q.executing) = List.count a (List.range q.top)
      simp only [count_append, count_cons] at hParts ⊢
      omega
    · obtain ⟨ev', hev', -⟩ := h.serving_of_userCode hUser hsv
      rw [hNone] at hev'
      cases hev'
  · refine ⟨_, u ++ v, ev :: f, rfl, ?_, ?_, ?_, hRest.sorted, hRest.ids, hAccount, hRest.head,
      hRest.order, h.mode, h.eventCount⟩
    · exact path_release h.unlink_pending h.not_mem_rest
    · exact path_released h.unlink_free (h.not_mem_free hMem)
    · exact h.parts_release

/-! ### The service loop -/

theorem inv_service (h : q.Inv p f) (hNone : q.service = none) (hExec : q.executing = []) :
    { q with service := some ⟨now, none, []⟩ : Queue }.Inv p f where
  pending := h.pending
  free := h.free
  parts := h.parts
  sorted := h.sorted
  ids := h.ids
  account := by
    have hAccount := h.account
    rw [waitingOf, serving, hNone] at hAccount
    exact hAccount
  head ev hev := by cases hev
  order sv hsv := by
    cases hsv
    exact ⟨.nil, fun t ht => by cases ht⟩
  mode _ _ _ := hExec
  eventCount := h.eventCount

variable {done : List ℤ}

/-- The head of the pending list is freed after its action. -/
theorem inv_finish (h : q.Inv (ev :: l) f)
    (hsv : q.service = some ⟨now, some ev, done⟩) (hExec : q.executing = []) :
    { q.finish ev with service := some ⟨now, none, done⟩ : Queue }.Inv l (ev :: f) := by
  have hNodup := h.nodup_pending
  have hev : ev ∉ l := (nodup_cons.mp hNodup).1
  have hOrder := h.order _ hsv
  refine ⟨?_, ?_, ?_, h.sorted.of_cons, (nodup_cons.mp h.ids).2, ?_, ?_, ?_, ?_, h.eventCount⟩
  · exact path_release h.pending.2 hev
  · exact path_released h.free (h.not_mem_free mem_cons_self)
  · exact h.parts_release (u := [])
  · have hAccount := h.account
    rw [waitingOf, serving, hsv] at hAccount
    exact hAccount
  · intro ev' hev'
    cases hev'
  · intro sv hsv'
    cases hsv'
    exact ⟨hOrder.1, fun t ht => ⟨(hOrder.2 t ht).1, fun a ha =>
      (hOrder.2 t ht).2 a (mem_cons_of_mem ev ha)⟩⟩
  · exact fun _ _ _ => hExec

/-- The action of the head of the pending list begins. -/
theorem inv_begin (h : q.Inv (ev :: l) f)
    (hsv : q.service = some ⟨now, none, done⟩) (hDue : (q.desc ev).when ≤ now) :
    { q.perform ev now with
      service := some ⟨now, some ev, done ++ [(q.desc ev).when]⟩ : Queue }.Inv (ev :: l) f := by
  have hOrder := h.order _ hsv
  refine ⟨h.pending, h.free, h.parts, h.sorted, h.ids, ?_, ?_, ?_, ?_, h.eventCount⟩
  · refine perm_iff_count.mpr fun a => ?_
    have hAccount := perm_iff_count.mp h.account a
    have hWait : q.waitingOf (ev :: l) = ev :: l := by
      rw [waitingOf, serving, hsv]
      rfl
    rw [hWait] at hAccount
    change List.count a ((q.performed ++ [(⟨(q.desc ev).serial, (q.desc ev).action, now⟩ : Performed)]).map
      Performed.serial ++ q.removed ++ l.map fun b => (q.desc b).serial) = List.count a (List.range q.count)
    simp only [count_append, count_cons, map_cons, map_append, map_nil,
      count_nil] at hAccount ⊢
    omega
  · intro ev' hev'
    exact hev'
  · intro sv hsv'
    cases hsv'
    refine ⟨pairwise_append.mpr ⟨hOrder.1, pairwise_singleton _ _, fun t ht t' ht' => ?_⟩,
      fun t ht => ?_⟩
    · obtain rfl := mem_singleton.mp ht'
      exact (hOrder.2 t ht).2 ev mem_cons_self
    · rcases mem_append.mp ht with ht | ht
      · exact hOrder.2 t ht
      · obtain rfl := mem_singleton.mp ht
        refine ⟨hDue, fun a ha => ?_⟩
        rcases mem_cons.mp ha with rfl | ha
        · exact le_rfl
        · exact (pairwise_cons.mp h.sorted).1 a ha
  · intro sv hsv' hNone
    cases hsv'
    cases hNone


/-- The loop ends. -/
theorem inv_exit (h : q.Inv p f) (hServing : q.serving = none) :
    { q with service := none : Queue }.Inv p f where
  pending := h.pending
  free := h.free
  parts := h.parts
  sorted := h.sorted
  ids := h.ids
  account := by
    have hAccount := h.account
    rw [waitingOf, hServing] at hAccount
    exact hAccount
  head ev hev := by cases hev
  order sv hsv := by cases hsv
  mode sv hsv := by cases hsv
  eventCount := h.eventCount

theorem turn_nil (h : q.pending = none) : q.turn sv = { q with service := none } := by
  rw [turn, h]

theorem turn_cons (h : q.pending = some ev) : q.turn sv =
    if (q.desc ev).when ≤ sv.now then
      if (q.desc ev).action.isCallback then
        { q.perform ev sv.now with
          service := some ⟨sv.now, some ev, sv.done ++ [(q.desc ev).when]⟩ }
      else
        { (q.perform ev sv.now).finish ev with
          service := some ⟨sv.now, none, sv.done ++ [(q.desc ev).when]⟩ }
    else { q with service := none } := by
  rw [turn, h]
  rfl

theorem inv_turn (h : q.Inv p f)
    (hsv : q.service = some ⟨now, none, done⟩) : ∃ p' f', (q.turn ⟨now, none, done⟩).Inv p' f' := by
  have hExec := h.mode _ hsv rfl
  have hServing : q.serving = none := by
    rw [serving, hsv]
    rfl
  cases p with
  | nil =>
    rw [turn_nil h.pending]
    exact ⟨[], f, inv_exit h hServing⟩
  | cons ev l =>
    rw [turn_cons h.pending.1]
    split
    · rename_i hDue
      have hBegin := inv_begin h hsv hDue
      split
      · exact ⟨ev :: l, f, hBegin⟩
      · have hFinish := inv_finish hBegin rfl hExec
        exact ⟨l, ev :: f, hFinish⟩
    · exact ⟨ev :: l, f, inv_exit h hServing⟩

/-- A callback that was executed returns. -/
theorem inv_return {rest : List ℕ} (h : q.Inv p f) (hExec : q.executing = ev :: rest) :
    { q.release ev with executing := rest : Queue }.Inv p (ev :: f) := by
  have hOut : ∀ a ∈ p ++ f, a ≠ ev := by
    rintro a ha rfl
    refine h.not_mem_executing ha ?_
    rw [hExec]
    exact mem_cons_self
  refine ⟨?_, ?_, ?_, h.sorted, h.ids, h.account, h.head, h.order, ?_, h.eventCount⟩
  · exact path_release h.pending fun hp => hOut ev (mem_append_left f hp) rfl
  · exact path_released h.free fun hf => hOut ev (mem_append_right p hf) rfl
  · refine perm_iff_count.mpr fun a => ?_
    have hParts := perm_iff_count.mp h.parts a
    rw [hExec] at hParts
    change List.count a (p ++ ev :: f ++ rest) = List.count a (List.range q.top)
    simp only [count_append, count_cons] at hParts ⊢
    omega
  · intro sv hsv hNone
    have hMode := h.mode sv hsv hNone
    rw [hExec] at hMode
    cases hMode

/-! ### Insertion -/

/-- The links, the free list and the allocated records once `__QUEUE_EVENT` has taken `new`. -/
structure Takes (q : Queue) (p : List ℕ) (new : ℕ) (next : ℕ → Option ℕ) (free : Option ℕ) (top : ℕ)
    (f : List ℕ) : Prop where
  pending : Path next q.pending p none
  free : Path next free f none
  parts : (new :: p ++ f ++ q.executing).Perm (List.range top)

variable {q₁ : Queue}

/-- The record was free or is new. -/
theorem takes_of_inv (h : q.Inv p f) (hTake : q.takeFree = some (new, q₁)) :
    ∃ next free top f', q₁ = { q with next := next, free := free, top := top } ∧
      q.Takes p new next free top f' := by
  rw [takeFree] at hTake
  cases f with
  | cons a f =>
    rw [h.free.1] at hTake
    cases hTake
    refine ⟨q.next, q.next new, q.top, f, rfl, h.pending, h.free.2, perm_iff_count.mpr fun b => ?_⟩
    have hParts := perm_iff_count.mp h.parts b
    simp only [count_append, count_cons] at hParts ⊢
    omega
  | nil =>
    have hFree : q.free = none := h.free
    rw [hFree] at hTake
    dsimp only at hTake
    split at hTake
    · cases hTake
    cases hTake
    have hNew : q.top ∉ p := by
      intro hp
      have hRange := h.parts.mem_iff.mp (mem_append_left _ (mem_append_left _ hp))
      exact absurd (mem_range.mp hRange) (lt_irrefl _)
    refine ⟨_, none, q.top + 1, [], rfl, path_release h.pending hNew, rfl,
      perm_iff_count.mpr fun b => ?_⟩
    have hParts := perm_iff_count.mp h.parts b
    rw [range_succ]
    simp only [count_append, count_cons, count_nil] at hParts ⊢
    omega

variable {when : ℤ} {action : Action}

theorem queueEvent_eq {prev ev : Option ℕ} (hTake : q.takeFree = some (new, q₁))
    (hScan : scan q₁.next (fun ev => !decide (((q₁.plugIn new when action).desc ev).when < when))
      (q₁.top + 1) none q₁.pending = some (prev, ev)) :
    q.queueEvent when action = some { q₁.plugIn new when action with
      next := (insertAfter q₁.next q₁.pending prev new).1
      pending := (insertAfter q₁.next q₁.pending prev new).2 } := by
  have hScan' : scan (q₁.plugIn new when action).next
      (fun ev => !decide (((q₁.plugIn new when action).desc ev).when < when))
      ((q₁.plugIn new when action).top + 1) none (q₁.plugIn new when action).pending =
        some (prev, ev) := hScan
  rw [queueEvent, hTake]
  simp only [Option.bind_eq_bind, Option.bind_some, hScan']
  rfl

/-- A new record goes behind the earlier events and in front of the others. -/
theorem sorted_insert {desc : ℕ → Desc}
    (h : (u ++ v).Pairwise fun a b => (desc a).when ≤ (desc b).when)
    (hu : ∀ a ∈ u, (desc a).when < (desc new).when)
    (hv : ∀ a ∈ v.head?, (desc new).when ≤ (desc a).when) :
    (u ++ new :: v).Pairwise fun a b => (desc a).when ≤ (desc b).when := by
  obtain ⟨hU, hV, hUV⟩ := pairwise_append.mp h
  have hNew : ∀ a ∈ v, (desc new).when ≤ (desc a).when := by
    cases v with
    | nil =>
      intro a ha
      cases ha
    | cons b v =>
      have hb : (desc new).when ≤ (desc b).when := hv b rfl
      intro a ha
      rcases mem_cons.mp ha with rfl | ha
      · exact hb
      · exact hb.trans ((pairwise_cons.mp hV).1 a ha)
  refine pairwise_append.mpr ⟨hU, pairwise_cons.mpr ⟨hNew, hV⟩, fun a ha b hb => ?_⟩
  rcases mem_cons.mp hb with rfl | hb
  · exact (hu a ha).le
  · exact hUV a ha b hb

theorem inv_queue (h : q.Inv p f) (hUser : q.userCode) (hCare : q.Careful (.queue when action))
    (hTake : q.takeFree = some (new, q₁)) :
    ∃ q' p' f', q.queueEvent when action = some q' ∧ q'.Inv p' f' := by
  obtain ⟨next, free, top, f', rfl, hTakes⟩ := takes_of_inv h hTake
  set q₂ := plugIn { q with next := next, free := free, top := top } new when action with hq₂
  have hNodup : (new :: p ++ f' ++ q.executing).Nodup :=
    hTakes.parts.nodup_iff.mpr nodup_range
  have hNew : new ∉ p ++ f' := by
    rw [cons_append, cons_append] at hNodup
    exact fun hMem => (nodup_cons.mp hNodup).1 (mem_append_left _ hMem)
  have hSelf : q₂.desc new = ⟨when, q.nextId, action, q.count⟩ := Function.update_self ..
  have hDesc : ∀ a ∈ p, q₂.desc a = q.desc a := by
    intro a ha
    refine Function.update_of_ne ?_ ..
    rintro rfl
    exact hNew (mem_append_left _ ha)
  have hLength : p.length < top + 1 := by
    have hLe := hTakes.parts.length_eq
    rw [length_append, length_append, length_cons, length_range] at hLe
    omega
  obtain ⟨u, v, rfl, hu, hv, hScan⟩ := hTakes.pending.exists_scan
    (P := fun ev => !decide ((q₂.desc ev).when < when)) hLength
  have hBefore : ∀ a ∈ u, (q₂.desc a).when < when := by
    intro a ha
    simpa using hu a ha
  have hBehind : ∀ a ∈ v.head?, when ≤ (q₂.desc a).when := by
    intro a ha
    simpa using hv a ha
  have hInserted : (u ++ new :: v).Nodup := by
    rw [nodup_middle]
    exact (nodup_append.mp (nodup_append.mp hNodup).1).1
  -- the record that is being served stays at the head
  have hNonempty : ∀ ev, q.serving = some ev → u ≠ [] := by
    rintro ev hev rfl
    have hHead := h.head ev hev
    have hLate := hBehind ev hHead
    rw [hDesc ev (mem_of_mem_head? hHead)] at hLate
    exact absurd (hCare.2 ev hev) (not_lt.mpr hLate)
  have hMap : ∀ {β : Type} (g : Desc → β) (l : List ℕ), (∀ a ∈ l, a ∈ u ++ v) →
      l.map (fun a => g (q₂.desc a)) = l.map fun a => g (q.desc a) := by
    intro β g l hl
    exact map_congr_left fun a ha => congrArg g (hDesc a (hl a ha))
  refine ⟨_, u ++ new :: v, f', queueEvent_eq hTake hScan, ?_, ?_, ?_, ?_, ?_, ?_, ?_, ?_, ?_, ?_⟩
  · exact hTakes.pending.insertAfter hInserted
  · refine hTakes.free.congr fun z hz => insertAfter_of_not_mem fun hMem => ?_
    rcases mem_append.mp hMem with hMem | hMem
    · have hDisj := (nodup_append.mp (nodup_append.mp hNodup).1).2.2
      exact hDisj z (mem_cons_of_mem new (mem_append_left v hMem)) z hz rfl
    · obtain rfl := mem_singleton.mp hMem
      exact hNew (mem_append_right _ hz)
  · refine perm_iff_count.mpr fun a => ?_
    have hParts := perm_iff_count.mp hTakes.parts a
    change List.count a (u ++ new :: v ++ f' ++ q.executing) = List.count a (List.range top)
    simp only [count_append, count_cons] at hParts ⊢
    omega
  · refine sorted_insert (h.sorted.imp_of_mem fun {a b} ha hb hab => ?_) ?_ ?_
    · rwa [hDesc a ha, hDesc b hb]
    · rwa [hSelf]
    · rwa [hSelf]
  · have hIds : ((new :: (u ++ v)).map fun a => (q₂.desc a).id).Nodup := by
      rw [map_cons, nodup_cons, hMap Desc.id _ fun a ha => ha, hSelf]
      refine ⟨fun hMem => ?_, h.ids⟩
      obtain ⟨a, ha, hEq⟩ := mem_map.mp hMem
      rw [← h.pendingList_eq] at ha
      exact hCare.1 a ha hEq
    exact (List.Perm.map _ perm_middle).nodup_iff.mpr hIds
  · refine perm_iff_count.mpr fun a => ?_
    have hAccount := perm_iff_count.mp h.account a
    have hWait := perm_iff_count.mp ((waitingOf_middle hNonempty (v := v) (a := new)).map fun b =>
      (q₂.desc b).serial) a
    rw [map_cons, hMap Desc.serial (q.waitingOf (u ++ v)) ?_, hSelf] at hWait
    · change List.count a (q.performed.map Performed.serial ++ q.removed ++
        (q.waitingOf (u ++ new :: v)).map fun b => (q₂.desc b).serial) =
          List.count a (List.range (q.count + 1))
      rw [range_succ]
      simp only [count_append, count_cons, count_nil] at hAccount hWait ⊢
      omega
    · intro b hb
      unfold waitingOf at hb
      split at hb
      · exact mem_of_mem_tail hb
      · exact hb
  · intro ev hev
    exact (head?_append_of_ne_nil (hNonempty ev hev)).trans (h.head ev hev)
  · intro sv hsv
    obtain ⟨ev, -, hev⟩ := h.serving_of_userCode hUser hsv
    obtain ⟨hOrder, hDone⟩ := h.order sv hsv
    refine ⟨hOrder, fun t ht => ⟨(hDone t ht).1, fun a ha => ?_⟩⟩
    change t ≤ (q₂.desc a).when
    by_cases hEq : a = new
    · subst hEq
      have hHead := (hDone t ht).2 ev (mem_of_mem_head? (h.head ev hev))
      have hLate := hCare.2 ev hev
      rw [hSelf]
      exact (hHead.trans_lt hLate).le
    · have hMem : a ∈ u ++ v := by
        rw [mem_append, mem_cons] at ha
        rw [mem_append]
        exact ha.imp_right fun h' => h'.resolve_left hEq
      rw [hDesc a hMem]
      exact (hDone t ht).2 a hMem
  · exact h.mode
  · exact h.eventCount

/-! ### Runs of careful steps -/

theorem step_turn (h : q.step .turn = some q') : ∃ now done, q.service = some ⟨now, none, done⟩ ∧
    q' = q.turn ⟨now, none, done⟩ := by
  unfold step at h
  dsimp only at h
  split at h
  · rename_i now done _ hsv
    exact ⟨now, done, hsv, (Option.some.inj h).symm⟩
  · cases h

/-- A careful step keeps the invariant. -/
theorem Inv.step {op : Op} (h : q.Inv p f) (hCare : q.Careful op) (hStep : q.step op = some q') :
    ∃ p' f', q'.Inv p' f' := by
  cases op with
  | queue when action =>
    rw [Queue.step] at hStep
    split at hStep
    swap
    · cases hStep
    rename_i hUser
    cases hTake : q.takeFree with
    | none =>
      rw [queueEvent, hTake] at hStep
      cases hStep
    | some r =>
      obtain ⟨q₂, p', f', hQueue, hInv⟩ := inv_queue h hUser hCare hTake
      obtain rfl : q₂ = q' := Option.some.inj (hQueue.symm.trans hStep)
      exact ⟨p', f', hInv⟩
  | remove id =>
    rw [Queue.step] at hStep
    split at hStep
    swap
    · cases hStep
    obtain ⟨q₂, p', f', hRemove, hInv⟩ := inv_remove h hCare
    obtain rfl : q₂ = q' := Option.some.inj (hRemove.symm.trans hStep)
    exact ⟨p', f', hInv⟩
  | execute id =>
    rw [Queue.step] at hStep
    split at hStep
    swap
    · cases hStep
    rename_i hUser
    obtain ⟨q₂, p', f', hExecute, hInv⟩ := inv_execute h hUser hCare
    obtain rfl : q₂ = q' := Option.some.inj (hExecute.symm.trans hStep)
    exact ⟨p', f', hInv⟩
  | service now =>
    unfold Queue.step at hStep
    dsimp only at hStep
    split at hStep
    · rename_i hExec hsv
      cases hStep
      exact ⟨p, f, inv_service h hsv hExec⟩
    · cases hStep
  | turn =>
    obtain ⟨now, done, hsv, rfl⟩ := step_turn hStep
    exact inv_turn h hsv
  | ret =>
    unfold Queue.step at hStep
    dsimp only at hStep
    split at hStep
    · rename_i ev rest hExec
      cases hStep
      exact ⟨p, ev :: f, inv_return h hExec⟩
    · rename_i now ev done hExec hsv
      cases hStep
      have hServing : q.serving = some ev := by
        rw [serving, hsv]
        rfl
      obtain ⟨l, rfl⟩ : ∃ l, p = ev :: l := by
        have hHead := h.head ev hServing
        cases p with
        | nil => cases hHead
        | cons b l =>
          cases hHead
          exact ⟨l, rfl⟩
      exact ⟨l, ev :: f, inv_finish h hsv hExec⟩
    · cases hStep

theorem Inv.reaches (hInit : ∃ p f, q.Inv p f) (h : q.Reaches q') : ∃ p f, q'.Inv p f := by
  induction h with
  | refl => exact hInit
  | tail _ hStep ih =>
    obtain ⟨p, f, hInv⟩ := ih
    obtain ⟨op, hCare, hNext⟩ := hStep
    exact hInv.step hCare hNext

/-- The loop of `eventq_service_events` ends where nothing is due. -/
theorem Inv.complete (h : q.Inv p f) (hsv : q.service = some sv)
    (hStep : q.step .turn = some q') (hEnd : q'.service = none) :
    ∀ a ∈ q'.pendingList, sv.now < (q'.desc a).when := by
  obtain ⟨now, done, hsv', rfl⟩ := step_turn hStep
  rw [hsv] at hsv'
  cases hsv'
  intro a ha
  cases p with
  | nil =>
    rw [turn_nil h.pending] at ha
    have hNil : q.pendingList = [] := h.pendingList_eq
    change a ∈ q.pendingList at ha
    rw [hNil] at ha
    cases ha
  | cons ev l =>
    rw [turn_cons h.pending.1] at hEnd ha ⊢
    split at hEnd
    · split at hEnd
      · cases hEnd
      · cases hEnd
    · rename_i hLate
      rw [if_neg hLate] at ha ⊢
      change a ∈ q.pendingList at ha
      change now < (q.desc a).when
      rw [h.pendingList_eq] at ha
      rcases mem_cons.mp ha with rfl | ha
      · exact not_le.mp hLate
      · exact (not_le.mp hLate).trans_le ((pairwise_cons.mp h.sorted).1 a ha)

theorem Inv.returns (h : q.Inv p f) (hUser : q.userCode) :
    (∀ id, (q.step (.remove id)).isSome ∧ (q.step (.execute id)).isSome) ∧
      (0 ≤ q.maxEvents → ∀ when action, (q.step (.queue when action)).isSome) := by
  refine ⟨fun id => ?_, fun hMax when action => ?_⟩
  · rw [Queue.step, Queue.step, if_pos hUser, if_pos hUser]
    rcases h.findId_spec id with ⟨prev, hFind⟩ | ⟨u, ev, v, -, -, hFind⟩
    · rw [remove_none hFind, execute_none hFind]
      exact ⟨rfl, rfl⟩
    · rw [remove_some hFind, execute_some hFind]
      refine ⟨rfl, ?_⟩
      split <;> rfl
  · rw [Queue.step, if_pos hUser]
    have hRoom : ¬ (q.maxEvents ≠ 0 ∧ q.eventCount ≥ q.maxEvents) := by
      rw [h.eventCount]
      omega
    have hTake : ∃ r, q.takeFree = some r := by
      rw [takeFree]
      cases q.free with
      | none => exact ⟨_, if_neg hRoom⟩
      | some a => exact ⟨_, rfl⟩
    obtain ⟨⟨new, q₁⟩, hTake⟩ := hTake
    obtain ⟨next, free, top, f', rfl, hTakes⟩ := takes_of_inv h hTake
    have hLength : p.length < top + 1 := by
      have hLe := hTakes.parts.length_eq
      rw [length_append, length_append, length_cons, length_range] at hLe
      omega
    obtain ⟨u, v, -, -, -, hScan⟩ := hTakes.pending.exists_scan hLength
    rw [queueEvent_eq hTake hScan]
    rfl

theorem Inv.correct (h : q.Inv p f) : q.Correct where
  records := by
    rw [h.pendingList_eq, h.freeList_eq]
    exact h.parts
  events := by
    rw [waiting, h.pendingList_eq]
    exact h.account
  ids := by
    rw [h.pendingList_eq]
    exact h.ids
  order sv hsv := ⟨(h.order sv hsv).1, fun t ht => ((h.order sv hsv).2 t ht).1⟩
  complete _ _ hsv hStep hEnd := h.complete hsv hStep hEnd
  returns := h.returns

/-- **The event queue.**  In every careful run each event is performed once, or is removed and
never performed, in the order of the times, and each record is pending, free or executing. -/
theorem queueCorrect_of_careful (maxEvents : ℤ) (q : Queue) (h : (init maxEvents).Reaches q) :
    q.Correct := by
  obtain ⟨p, f, hInv⟩ := Inv.reaches ⟨[], [], inv_init maxEvents⟩ h
  exact hInv.correct

theorem reaches_of_carefulRun : ∀ (ops : List Op) {q q' : Queue}, q.carefulRun ops = some q' →
    q.Reaches q' := by
  intro ops
  induction ops with
  | nil =>
    intro q q' h
    cases h
    exact .refl
  | cons op ops ih =>
    intro q q' h
    rw [carefulRun] at h
    split at h
    · rename_i hCare
      obtain ⟨q₁, hStep, hRest⟩ := Option.bind_eq_some_iff.mp h
      exact .head ⟨op, hCare, hStep⟩ (ih hRest)
    · cases h

theorem exists_of_any {x : Option Queue} {P : Queue → Bool} (h : x.any P = true) :
    ∃ q, x = some q ∧ P q = true := by
  cases x with
  | none => cases h
  | some q => exact ⟨q, rfl, h⟩

/-- A callback at time 1 schedules an event for time 2; both are performed by time 2. -/
theorem queueCorrect_callback : ∃ q, (init 0).carefulRun [.queue 1 (.callback 7 0), .service 2, .turn,
      .queue 2 (.setFlag 40 1), .ret, .turn, .turn] = some q ∧ q.Correct ∧
    q.performed.map Performed.serial = [0, 1] := by
  obtain ⟨q, hRun, hPerformed⟩ := exists_of_any
    (x := (init 0).carefulRun [.queue 1 (.callback 7 0), .service 2, .turn,
      .queue 2 (.setFlag 40 1), .ret, .turn, .turn])
    (P := fun q => decide (q.performed.map Performed.serial = [0, 1])) (by decide +kernel)
  exact ⟨q, hRun, queueCorrect_of_careful 0 q (reaches_of_carefulRun _ hRun), by simpa using hPerformed⟩

/-- A callback at time 1 schedules an event for time 1: the event is neither performed nor pending
nor removed, and its record is in no list.  A callback that removes its own event leaves a record
in both lists. -/
theorem lost_insertion :
    (∃ q, (init 0).run [.queue 1 (.callback 7 0), .service 1, .turn, .queue 1 (.setFlag 40 1), .ret,
        .turn] = some q ∧
      (q.performed.map Performed.serial = [0] ∧ q.removed = [] ∧ q.waiting = [] ∧ q.count = 2 ∧
        q.pendingList = [] ∧ q.freeList = [0] ∧ q.executing = [] ∧ q.top = 2) ∧ ¬ q.Correct) ∧
    ∃ q, (init 0).run [.queue 1 (.callback 7 0), .service 1, .turn, .remove 1, .ret, .turn,
        .queue 5 (.setFlag 40 1)] = some q ∧ 0 ∈ q.pendingList ∧ 0 ∈ q.freeList := by
  constructor
  · obtain ⟨q, hRun, hFinal⟩ := exists_of_any
      (x := (init 0).run [.queue 1 (.callback 7 0), .service 1, .turn, .queue 1 (.setFlag 40 1), .ret,
        .turn])
      (P := fun q => decide (q.performed.map Performed.serial = [0] ∧ q.removed = [] ∧ q.waiting = [] ∧
        q.count = 2 ∧ q.pendingList = [] ∧ q.freeList = [0] ∧ q.executing = [] ∧ q.top = 2))
      (by decide +kernel)
    have hState := of_decide_eq_true hFinal
    refine ⟨q, hRun, hState, fun h => ?_⟩
    obtain ⟨hPerformed, hRemoved, hWaiting, hCount, -⟩ := hState
    have hEvents := h.events.length_eq
    rw [hPerformed, hRemoved, hWaiting, hCount] at hEvents
    cases hEvents
  · obtain ⟨q, hRun, hFinal⟩ := exists_of_any
      (x := (init 0).run [.queue 1 (.callback 7 0), .service 1, .turn, .remove 1, .ret, .turn,
        .queue 5 (.setFlag 40 1)])
      (P := fun q => decide (0 ∈ q.pendingList ∧ 0 ∈ q.freeList)) (by decide +kernel)
    exact ⟨q, hRun, of_decide_eq_true hFinal⟩

end Queue

end Eventq

end SimpleScalar

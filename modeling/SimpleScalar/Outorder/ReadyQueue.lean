import SimpleScalar.Outorder.Frames
import Mathlib.Data.List.TakeWhile

/-!
# The order of the ready queue

`readyq_enqueue` puts memory, long latency and control operations at the head of the
ready queue, and looks for the place of any other operation by age alone: it walks past
the older nodes of both classes.  An operation that is older than one of the nodes at
the head therefore ends up before it.

* `insertReady_ordered`: the order that the policy asks for is kept exactly if every
  operation that goes first is older than the one that comes in.
* `ruuIssue_keeps_queue`: a pass of `ruu_issue` puts back, in list order, what it could
  not start, so it keeps the order if the whole queue was like that.
* `ready_queue_policy`: whatever is called, and how often.
-/

namespace SimpleScalar.Outorder

open Outcome

variable {env : Env} {cfg : Config} {s s' : State env}

/-! ### One insertion -/

section Insertion

variable {first : RSLink Word → Bool} {node : RSLink Word} {q : List (RSLink Word)}

/-- `a` may stand before `b`. -/
def Precedes (first : RSLink Word → Bool) (a b : RSLink Word) : Prop :=
  (first b = true → first a = true) ∧ (first a = false → first b = false → a.x < b.x)

/-- Operations that go first are first, the others are sorted by age. -/
def Ordered (first : RSLink Word → Bool) (q : List (RSLink Word)) : Prop :=
  q.Pairwise (Precedes first)

instance : DecidableRel (Precedes first) := fun _ _ =>
  inferInstanceAs (Decidable (_ ∧ _))

instance : Decidable (Ordered first q) := inferInstanceAs (Decidable (List.Pairwise _ _))

/-- `node` has a place in `q`: what goes first is older, and nothing has its number. -/
def Fitting (first : RSLink Word → Bool) (node : RSLink Word) (q : List (RSLink Word)) : Prop :=
  first node = false → ∀ n ∈ q, n.x ≠ node.x ∧ (first n = true → n.x < node.x)

theorem precedes_of_first {a : RSLink Word} (h : first a = true) (b : RSLink Word) :
    Precedes first a b :=
  ⟨fun _ => h, fun hNot => absurd (h.symm.trans hNot) (by decide)⟩

theorem Fitting.mono {q' : List (RSLink Word)} (h : Fitting first node q) (hSub : q' ⊆ q) :
    Fitting first node q' :=
  fun hNot n hn => h hNot n (hSub hn)

/-- Behind the nodes that are older than `node` nothing goes first. -/
theorem behind_of_fitting (hNot : first node = false) (hq : Ordered first q)
    (hFit : Fitting first node q) :
    ∀ b ∈ q.dropWhile (fun n => decide (n.x < node.x)), first b = false ∧ node.x < b.x := by
  induction q with
  | nil => intro b hb; cases hb
  | cons a q ih =>
    obtain ⟨ha, hq⟩ := List.pairwise_cons.mp hq
    rw [List.dropWhile_cons]
    split
    · exact ih hq (hFit.mono (List.subset_cons_self a q))
    · next hOld =>
      have hOld : ¬ a.x < node.x := by simpa using hOld
      obtain ⟨hNe, hAge⟩ := hFit hNot a List.mem_cons_self
      have hLast : first a = false := by
        cases hFirst : first a with
        | false => rfl
        | true => exact absurd (hAge hFirst) hOld
      have hLt : node.x < a.x := by
        refine BitVec.lt_of_le_ne (BitVec.not_lt.mp hOld) fun hEq => hNe hEq.symm
      intro b hb
      rcases List.mem_cons.mp hb with rfl | hb
      · exact ⟨hLast, hLt⟩
      · have hb' : first b = false := by
          cases hFirst : first b with
          | false => rfl
          | true => exact absurd ((ha b hb).1 hFirst) (by simp [hLast])
        exact ⟨hb', BitVec.lt_trans hLt ((ha b hb).2 hLast hb')⟩

/-- **One insertion** into an ordered queue. -/
theorem insertReady_ordered (hq : Ordered first q) :
    Ordered first (insertReady (first node) node q) ↔ Fitting first node q := by
  unfold insertReady
  split
  · next hFirst =>
    refine ⟨fun _ hNot => absurd (hFirst.symm.trans hNot) (by decide), fun _ => ?_⟩
    exact List.pairwise_cons.mpr ⟨fun b _ => precedes_of_first hFirst b, hq⟩
  next hFirst =>
  have hNot : first node = false := by simpa using hFirst
  have hSplit := List.takeWhile_append_dropWhile (p := fun n => decide (n.x < node.x)) (l := q)
  have hOlder : ∀ a ∈ q.takeWhile (fun n => decide (n.x < node.x)), a.x < node.x := fun a ha => by
    simpa using List.mem_takeWhile_imp ha
  constructor
  · -- a node behind the new one does not go first, and is younger
    intro h _ n hn
    obtain ⟨-, hRest, -⟩ := List.pairwise_append.mp h
    obtain ⟨hBehind, -⟩ := List.pairwise_cons.mp hRest
    rw [← hSplit] at hn
    rcases List.mem_append.mp hn with hn | hn
    · exact ⟨BitVec.ne_of_lt (hOlder n hn), fun _ => hOlder n hn⟩
    · have hLast : first n = false := by
        cases hGoes : first n with
        | false => rfl
        | true => exact absurd ((hBehind n hn).1 hGoes) hFirst
      refine ⟨(BitVec.ne_of_lt ((hBehind n hn).2 hNot hLast)).symm, fun hGoes => ?_⟩
      exact absurd (hGoes.symm.trans hLast) (by decide)
  · intro hFit
    have hBehind := behind_of_fitting hNot hq hFit
    rw [← hSplit] at hq
    obtain ⟨hTake, hDrop, hCross⟩ := List.pairwise_append.mp hq
    refine List.pairwise_append.mpr ⟨hTake, List.pairwise_cons.mpr ⟨fun b hb => ?_, hDrop⟩, ?_⟩
    · obtain ⟨hLast, hLt⟩ := hBehind b hb
      exact ⟨fun hGoes => absurd (hGoes.symm.trans hLast) (by decide), fun _ _ => hLt⟩
    · intro a ha b hb
      rcases List.mem_cons.mp hb with rfl | hb
      · exact ⟨fun hGoes => absurd hGoes hFirst, fun _ _ => hOlder a ha⟩
      · exact hCross a ha b hb

theorem mem_insertReady {goes : Bool} {n : RSLink Word} :
    n ∈ insertReady goes node q ↔ n = node ∨ n ∈ q := by
  unfold insertReady
  split
  · exact List.mem_cons
  · have hSplit := List.takeWhile_append_dropWhile (p := fun n => decide (n.x < node.x)) (l := q)
    conv => rhs; rw [← hSplit]
    simp only [List.mem_append, List.mem_cons]
    tauto

end Insertion

/-! ### The queue of a state -/

namespace State

/-- Does the operation of a node go first? -/
def goesFirst (s : State env) (node : RSLink Word) : Bool := Outorder.goesFirst (s.stn node.rs)

/-- The documented policy: memory, long latency and control operations first, the others
by age. -/
def Policy (s : State env) : Prop := Ordered s.goesFirst s.readyQueue

instance : Decidable s.Policy := inferInstanceAs (Decidable (Ordered _ _))

/-- When `readyq_enqueue` finds a place for `rs` that the policy allows. -/
def InAge (s : State env) (rs : Ref) : Prop :=
  Outorder.goesFirst (s.stn rs) = false → ∀ n ∈ s.readyQueue,
    n.x ≠ (s.stn rs).seq ∧ (s.goesFirst n = true → n.x < (s.stn rs).seq)

instance {rs : Ref} : Decidable (s.InAge rs) :=
  inferInstanceAs (Decidable (_ → ∀ n ∈ s.readyQueue, _))

/-- When `ruu_issue` may put back any part of the queue. -/
def AllInAge (s : State env) : Prop :=
  ∀ n ∈ s.readyQueue, ∀ m ∈ s.readyQueue, s.linkValid n = true → s.linkValid m = true →
    s.goesFirst n = true → s.goesFirst m = false → n.x < m.x

/-- Each node has the number of its operation. -/
def Numbered (s : State env) : Prop := ∀ n ∈ s.readyQueue, n.x = (s.stn n.rs).seq

end State

variable {rs : Ref} {id : Nat}

theorem inAge_iff_fitting :
    Fitting s.goesFirst (newLink id rs (s.stn rs).seq s) s.readyQueue ↔ s.InAge rs := Iff.rfl

/-- `readyq_enqueue` as a function on states. -/
theorem readyqEnqueue_eq (h : readyqEnqueue rs s = .ok s') :
    ∃ id rest, s' = enqueued id rest rs s := by
  have hKeeps : Keeps AnyCheck (readyqEnqueue rs s) fun s' => ∃ id rest, s' = enqueued id rest rs s :=
    readyqEnqueue_keeps (fun id rest _ _ => ⟨id, rest, rfl⟩) (fun _ => trivial) fun _ => trivial
  rw [h] at hKeeps
  exact hKeeps

theorem enqueued_policy {rest : List Nat} (h : s.Policy) :
    (enqueued id rest rs s).Policy ↔ s.InAge rs :=
  (insertReady_ordered h).trans inAge_iff_fitting

theorem State.Numbered.enqueued {rest : List Nat} (h : s.Numbered) :
    (enqueued id rest rs s).Numbered := by
  intro n hn
  rcases mem_insertReady.mp hn with rfl | hn
  · rfl
  · exact h n hn

/-! ### A pass of `ruu_issue` -/

/-- In the middle of a pass over the queue of `s₀`: `nodes` are left, and what the queue
of `s` holds comes from nodes before them. -/
structure Rebuilding (s₀ : State env) (nodes : List (RSLink Word)) (s : State env) : Prop where
  stn : s.stn = s₀.stn
  tag : s.tag = s₀.tag
  policy : s.Policy
  numbered : s.Numbered
  left : nodes ⊆ s₀.readyQueue
  sorted : Ordered s₀.goesFirst nodes
  before : ∀ n ∈ s.readyQueue, ∃ m ∈ s₀.readyQueue, m.rs = n.rs ∧ s₀.linkValid m = true ∧
    ∀ m' ∈ nodes, Precedes s₀.goesFirst m m'

namespace Rebuilding

variable {s₀ : State env} {node : RSLink Word} {nodes : List (RSLink Word)}

/-- A change that leaves the queue alone. -/
theorem skip (h : Rebuilding s₀ (node :: nodes) s) (hStn : s'.stn = s.stn) (hTag : s'.tag = s.tag)
    (hQueue : s'.readyQueue = s.readyQueue) : Rebuilding s₀ nodes s' := by
  have hFirst : s'.goesFirst = s.goesFirst := by
    funext n
    simp only [State.goesFirst, hStn]
  refine ⟨hStn.trans h.stn, hTag.trans h.tag, ?_, ?_, fun n hn => h.left (.tail _ hn),
    (List.pairwise_cons.mp h.sorted).2, ?_⟩
  · unfold State.Policy
    rw [hFirst, hQueue]
    exact h.policy
  · intro n hn
    rw [hStn]
    exact h.numbered n (hQueue ▸ hn)
  · intro n hn
    obtain ⟨m, hm, hRs, hValid, hBefore⟩ := h.before n (hQueue ▸ hn)
    exact ⟨m, hm, hRs, hValid, fun m' hm' => hBefore m' (.tail _ hm')⟩

/-- The next node has a place in the new queue. -/
theorem inAge (h : Rebuilding s₀ (node :: nodes) s) (hNum : s₀.Numbered) (hAge : s₀.AllInAge)
    (hValid : s.linkValid node = true) : s.InAge node.rs := by
  intro hNot n hn
  obtain ⟨m, hm, hRs, hOk, hBefore⟩ := h.before n hn
  have hNode := h.left List.mem_cons_self
  have hx : n.x = m.x := by
    rw [h.numbered n hn, hNum m hm, h.stn, hRs]
  have hSeq : (s.stn node.rs).seq = node.x := by
    rw [hNum node hNode, h.stn]
  have hSame : s.goesFirst n = s₀.goesFirst m := by
    simp only [State.goesFirst, h.stn, hRs]
  have hNot' : s₀.goesFirst node = false := by
    simpa only [State.goesFirst, h.stn] using hNot
  have hValid' : s₀.linkValid node = true := by
    simpa only [State.linkValid, h.tag] using hValid
  have hLt : m.x < node.x := by
    cases hGoes : s₀.goesFirst m with
    | true => exact hAge m hm node hNode hOk hValid' hGoes hNot'
    | false => exact (hBefore node List.mem_cons_self).2 hGoes hNot'
  rw [hx, hSeq]
  exact ⟨BitVec.ne_of_lt hLt, fun _ => hLt⟩

/-- The next node is put back. -/
theorem putBack (h : Rebuilding s₀ (node :: nodes) s) (hNum : s₀.Numbered) (hAge : s₀.AllInAge)
    (hValid : s.linkValid node = true) (id : Nat) (rest : List Nat) :
    Rebuilding s₀ nodes (putBack id rest node.rs s) := by
  have hPolicy : (Outorder.putBack id rest node.rs s).Policy :=
    (insertReady_ordered h.policy).mpr (inAge_iff_fitting.mpr (h.inAge hNum hAge hValid))
  have hNumbered : (Outorder.putBack id rest node.rs s).Numbered := by
    intro n hn
    rcases mem_insertReady.mp hn with rfl | hn
    · rfl
    · exact h.numbered n hn
  refine ⟨h.stn, h.tag, hPolicy, hNumbered, fun n hn => h.left (.tail _ hn),
    (List.pairwise_cons.mp h.sorted).2, fun n hn => ?_⟩
  rcases mem_insertReady.mp hn with rfl | hn
  · refine ⟨node, h.left List.mem_cons_self, rfl, ?_, (List.pairwise_cons.mp h.sorted).1⟩
    simpa only [State.linkValid, h.tag] using hValid
  · obtain ⟨m, hm, hRs, hOk, hBefore⟩ := h.before n hn
    exact ⟨m, hm, hRs, hOk, fun m' hm' => hBefore m' (.tail _ hm')⟩

theorem issueLink (h : Rebuilding s₀ (node :: nodes) s) (hNum : s₀.Numbered)
    (hAge : s₀.AllInAge) : Keeps AnyCheck (issueLink cfg node s) fun r =>
      Rebuilding s₀ nodes (rslinkFree node.id r.2) := by
  refine keeps_ite (fun hValid => ?_) fun _ => h.skip rfl rfl rfl
  refine issueNode_keeps (fun _ => trivial) (fun _ _ _ _ _ => h.skip rfl rfl rfl)
    (fun _ _ _ _ => trivial) (fun _ _ => trivial) (fun _ _ _ _ _ _ _ _ _ => h.skip rfl rfl rfl)
    (fun id rest _ _ _ => ?_) (fun _ => trivial) fun _ => trivial
  have hBack := h.putBack hNum hAge hValid id rest
  exact ⟨hBack.1, hBack.2, hBack.3, hBack.4, hBack.5, hBack.6, hBack.7⟩

theorem requeue (h : Rebuilding s₀ (node :: nodes) s) (hNum : s₀.Numbered)
    (hAge : s₀.AllInAge) : Keeps AnyCheck (requeue node s) fun s' =>
      Rebuilding s₀ nodes (rslinkFree node.id s') := by
  refine requeue_keeps (fun _ => h.skip rfl rfl rfl) (fun id rest hValid _ => ?_) fun _ => trivial
  have hBack := h.putBack hNum hAge hValid id rest
  exact ⟨hBack.1, hBack.2, hBack.3, hBack.4, hBack.5, hBack.6, hBack.7⟩

end Rebuilding

/-- **One pass**: the queue that `ruu_issue` leaves is ordered again. -/
theorem ruuIssue_keeps_queue (hPolicy : s.Policy) (hNum : s.Numbered) (hAge : s.AllInAge)
    (h : ruuIssue cfg s = .ok s') : s'.Policy ∧ s'.Numbered := by
  have hStart : Rebuilding s s.readyQueue { s with readyQueue := [] } :=
    ⟨rfl, rfl, .nil, fun _ hn => (List.not_mem_nil hn).elim, fun _ hn => hn, hPolicy,
      fun _ hn => (List.not_mem_nil hn).elim⟩
  have hKeeps : Keeps AnyCheck (ruuIssue cfg s) (Rebuilding s []) :=
    issueLoop_keeps (I := Rebuilding s) (fun _ _ _ h => h.issueLink hNum hAge)
      (fun _ _ _ h => h.requeue hNum hAge) hStart
  rw [h] at hKeeps
  exact ⟨hKeeps.policy, hKeeps.numbered⟩

/-! ### Any sequence of calls -/

/-- Reached from an empty ready queue by calls of `readyq_enqueue` and `ruu_issue`, each in
a state where the operations that go first are old enough.  In between the simulator may
do anything but touch the queue or the operations in it. -/
inductive Queueing (cfg : Config) : State env → Prop where
  | start {s : State env} (h : s.readyQueue = []) : Queueing cfg s
  | enqueue {s s' : State env} (rs : Ref) (hs : Queueing cfg s) (hAge : s.InAge rs)
      (h : readyqEnqueue rs s = .ok s') : Queueing cfg s'
  | issue {s s' : State env} (hs : Queueing cfg s) (hAge : s.AllInAge)
      (h : ruuIssue cfg s = .ok s') : Queueing cfg s'
  | other {s s' : State env} (hs : Queueing cfg s) (hQueue : s'.readyQueue = s.readyQueue)
      (hStn : ∀ n ∈ s.readyQueue, s'.stn n.rs = s.stn n.rs) : Queueing cfg s'

theorem Queueing.sound (h : Queueing cfg s) : s.Policy ∧ s.Numbered := by
  induction h with
  | start h => simp [State.Policy, State.Numbered, Ordered, h]
  | enqueue rs _ hAge h ih =>
    obtain ⟨id, rest, rfl⟩ := readyqEnqueue_eq h
    exact ⟨(enqueued_policy ih.1).mpr hAge, ih.2.enqueued⟩
  | issue _ hAge h ih => exact ruuIssue_keeps_queue ih.1 ih.2 hAge h
  | @other s s' _ hQueue hStn ih =>
    have hFirst : ∀ n ∈ s.readyQueue, s'.goesFirst n = s.goesFirst n := fun n hn => by
      simp only [State.goesFirst, hStn n hn]
    refine ⟨?_, fun n hn => ?_⟩
    · unfold State.Policy Ordered
      rw [hQueue]
      refine List.Pairwise.imp_of_mem (fun {a b} ha hb hab => ?_) ih.1
      simpa only [Precedes, hFirst a ha, hFirst b hb] using hab
    · rw [hQueue] at hn
      rw [hStn n hn]
      exact ih.2 n hn

/-- **The policy of the ready queue** holds as long as no operation is queued, or put
back, behind which an older one must go first; and the next call of `readyq_enqueue`
keeps it exactly in that case. -/
theorem ready_queue_policy (h : Queueing cfg s) :
    s.Policy ∧ ∀ rs s', readyqEnqueue rs s = .ok s' → (s'.Policy ↔ s.InAge rs) := by
  refine ⟨h.sound.1, fun rs s' hRun => ?_⟩
  obtain ⟨id, rest, rfl⟩ := readyqEnqueue_eq hRun
  exact enqueued_policy h.sound.1

/-- A division and a younger addition, queued in this order. -/
def divThenAdd : State Env.bare :=
  let s := init Env.bare (Image.ofInsts [])
  let st := s.stn (.ruu 0)
  { s with stn := fun rs =>
      if rs = .ruu 0 then { st with op := .div, seq := 1 } else { st with op := .addu, seq := 2 } }

theorem ready_queue_policy_divThenAdd : ∃ s : State Env.bare, Queueing Config.bare s ∧
    s.readyQueue.map (·.x) = [1, 2] ∧ s.Policy := by
  obtain ⟨s₁, h₁, hNext⟩ : ∃ s₁, readyqEnqueue (.ruu 0) divThenAdd = .ok s₁ ∧
      (decide (s₁.InAge (.ruu 1)) && (readyqEnqueue (.ruu 1) s₁).toOption.any fun s₂ =>
        decide (s₂.readyQueue.map (·.x) = [1, 2])) = true := exists_ok_of_any (by decide +kernel)
  obtain ⟨hAge, hAny⟩ := Bool.and_eq_true_iff.mp hNext
  obtain ⟨s₂, h₂, hQueue⟩ := exists_ok_of_any hAny
  have hRun : Queueing Config.bare s₂ :=
    .enqueue (.ruu 1) (.enqueue (.ruu 0) (.start (s := divThenAdd) rfl) (by decide) h₁)
      (of_decide_eq_true hAge) h₂
  exact ⟨s₂, hRun, of_decide_eq_true hQueue, (ready_queue_policy hRun).1⟩

/-- `addiu $2,$0,1; div $2,$2; mflo $3; div $2,$2; div $2,$2` and a loop. -/
def threeDivides : Image :=
  Image.ofInsts [⟨55, 0x00020001⟩, ⟨60, 0x02020000⟩, ⟨64, 0x00000300⟩, ⟨60, 0x02020000⟩,
    ⟨60, 0x02020000⟩, ⟨2, 0x10000a⟩]

/-- The last division waits for the unit when the first one is done; the `mflo` that reads
its result is older, and is queued before the division. -/
theorem older_before_division : ∃ s s' : State Env.bare,
    simMain Config.bare threeDivides 23 = .ok s ∧ s.Policy ∧
    ruuWriteback Config.bare s = .ok s' ∧ s'.readyQueue.map (fun n => (n.x, s'.goesFirst n)) =
      [(3, false), (4, true)] ∧ ¬ s'.Policy := by
  obtain ⟨s, hs, hAll⟩ : ∃ s : State Env.bare, simMain Config.bare threeDivides 23 = .ok s ∧
      (decide s.Policy && (ruuWriteback Config.bare s).toOption.any fun s' =>
        decide (s'.readyQueue.map (fun n => (n.x, s'.goesFirst n)) = [(3, false), (4, true)]) &&
          !decide s'.Policy) = true := exists_ok_of_any (by decide +kernel)
  obtain ⟨hPolicy, hAny⟩ := Bool.and_eq_true_iff.mp hAll
  obtain ⟨s', hs', hNot⟩ := exists_ok_of_any hAny
  obtain ⟨hQueue, hNot⟩ := Bool.and_eq_true_iff.mp hNot
  exact ⟨s, s', hs, of_decide_eq_true hPolicy, hs', of_decide_eq_true hQueue, by simpa using hNot⟩

end SimpleScalar.Outorder

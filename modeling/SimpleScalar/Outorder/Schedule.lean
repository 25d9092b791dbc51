import SimpleScalar.Outorder.Entry
import SimpleScalar.Lib.Slots

/-!
# The schedule

A link names a station and the tag it had when the link was made.  Links are not taken
back when a station is given up, so the event queue, the ready queue and the consumer
lists hold links of instructions that are gone, in slots that are used again.  `Wake` says
which links are current, as ledgers of tickets: one event for each operation that has been
issued and has not completed, one node for each that is queued, one link for each operand
that is not ready.

A tag has 32 bits.  That a stale link is never taken for a current one is a matter of its
age, and the ages are part of `Wake`.  Events: a slot is given up at most once a cycle and
no event is more than `2 ^ 31` cycles away.  Nodes: the ready queue is rebuilt in every
cycle.  Consumer lists: while a producer waits, younger slots are given up by recoveries
only, and each of these leaves a resolved branch behind in the RUU.

In the middle of a stage some links sit in locals of the stage; `Loose` says which.
-/

namespace SimpleScalar.Outorder

open List Slots
open Function (update_eq_self update_of_ne update_self)

variable {env : Env} {cfg : Config} {s s' : State env}

/-! ### Tickets -/

/-- A link as a ticket for its station. -/
def ticket {α : Type} (l : RSLink α) : Ticket Ref 32 := ⟨l.rs, l.tag, l.gen⟩

def tickets {α : Type} (ls : List (RSLink α)) : Multiset (Ticket Ref 32) := (ls.map ticket : List _)

/-- A dependence link as a ticket for an operand. -/
def operandTicket (l : RSLink (Fin 3)) : Ticket (Ref × Fin 3) 32 := ⟨(l.rs, l.x), l.tag, l.gen⟩

def operandTickets (ls : List (RSLink (Fin 3))) : Multiset (Ticket (Ref × Fin 3) 32) :=
  (ls.map operandTicket : List _)

/-- The tickets in the consumer lists. -/
def consumerTickets (cfg : Config) (odepList : CVLink → List (RSLink (Fin 3))) :
    Multiset (Ticket (Ref × Fin 3) 32) :=
  Pool.held (linkKeys cfg) fun p => (odepList p).map operandTicket

section

variable {α : Type} {l : RSLink α} {ls ls' : List (RSLink α)}

@[simp] theorem tickets_nil : tickets ([] : List (RSLink α)) = 0 := rfl

@[simp] theorem tickets_cons : tickets (l :: ls) = ticket l ::ₘ tickets ls := rfl

theorem tickets_append : tickets (ls ++ ls') = tickets ls + tickets ls' := by
  simp [tickets, ← Multiset.coe_add]

theorem tickets_perm (h : ls.Perm ls') : tickets ls = tickets ls' :=
  Multiset.coe_eq_coe.mpr (h.map ticket)

theorem ticket_mem (h : l ∈ ls) : ticket l ∈ tickets ls :=
  Multiset.mem_coe.mpr (mem_map_of_mem h)

theorem exists_of_mem_tickets {t : Ticket Ref 32} (h : t ∈ tickets ls) :
    ∃ l ∈ ls, ticket l = t :=
  mem_map.mp (Multiset.mem_coe.mp h)

end

@[simp] theorem operandTickets_nil : operandTickets [] = 0 := rfl

@[simp] theorem operandTickets_cons (l : RSLink (Fin 3)) (ls : List (RSLink (Fin 3))) :
    operandTickets (l :: ls) = operandTicket l ::ₘ operandTickets ls := rfl

/-! ### The invariant -/

/-- Where the cycle is: the events of the cycle are still to be served, the ready
operations are still to be tried, both have been done. -/
inductive Phase where
  | early | middle | late
  deriving DecidableEq

/-- How often a station can have been given up since a node for it was queued. -/
def Phase.nodeAge : Phase → Bool → Nat
  | .early, live => if live then 0 else 1
  | .middle, _ => 1
  | .late, _ => 0

/-- How often a station can have been given up in this cycle. -/
def Phase.eventAge : Phase → Bool → Nat
  | .early, live => if live then 0 else 1
  | _, _ => 1

/-- What sits in locals of a stage: nodes and links that have been taken from their
lists, a completed branch that has not been recovered from, and a station between two
states. -/
structure Loose where
  nodes : List (RSLink Word) := []
  links : List (RSLink (Fin 3)) := []
  branch : Option Ref := none
  hand : Option Ref := none

def live (cfg : Config) (s : State env) (r : Ref) : Bool := decide (r ∈ s.rob.prog cfg)

/-- Stations that have a node, operations that have an event, operands that have a link. -/
def readyDue (cfg : Config) (s : State env) (r : Ref) : Bool := live cfg s r && s.queued r

def eventDue (cfg : Config) (s : State env) (r : Ref) : Bool :=
  live cfg s r && (s.issued r && !s.completed r)

def operandDue (cfg : Config) (s : State env) (k : Ref × Fin 3) : Bool :=
  live cfg s k.1 && !s.idepReady k

/-- The flags of a station follow one another. -/
structure Status (ready queued issued completed : Bool) : Prop where
  of_queued : queued = true → ready = true ∧ issued = false ∧ completed = false
  of_issued : issued = true → ready = true
  of_completed : completed = true → issued = true

/-- A station that waits for an operand is in none of the queues. -/
theorem Status.idle {queued issued completed : Bool} (h : Status false queued issued completed) :
    queued = false ∧ issued = false ∧ completed = false := by
  have hI : issued = false := by
    cases issued with
    | false => rfl
    | true => cases h.of_issued rfl
  refine ⟨?_, hI, ?_⟩
  · cases queued with
    | false => rfl
    | true => cases (h.of_queued rfl).1
  · cases completed with
    | false => rfl
    | true => exact absurd (h.of_completed rfl) (by simp [hI])

/-- Does the station wait for `lsq_refresh` when its operands are ready? -/
def awaitsRefresh (s : State env) (r : Ref) : Bool := (s.stn r).inLSQ && !s.isStore r

/-- The entries of the instructions before that of `r`. -/
def before (P : List Ref) : Ref → List Ref
  | .ruu i => older P (.ruu i)
  | .lsq i => (older P (.lsq i)).dropLast

/-- The mis-predicted branches from the instruction of `r` on that have been recovered
from. -/
def resolvedFrom (s : State env) (branch : Option Ref) (P : List Ref) (r : Ref) : Nat :=
  (P.drop (before P r).length).countP fun b =>
    (s.stn b).recoverInst && s.completed b && decide (branch ≠ some b)

structure Wake (cfg : Config) (ph : Phase) (k : Loose) (s : State env) : Prop where
  tag : ∀ r, s.tag r = BitVec.ofNat 32 (s.gen r)
  status : ∀ r ∈ s.rob.prog cfg,
    Status (s.operandsReady r) (s.queued r) (s.issued r) (s.completed r)
  moves : ∀ r ∈ s.rob.prog cfg, k.hand ≠ some r → s.operandsReady r = true →
    awaitsRefresh s r = false → s.queued r = true ∨ s.issued r = true
  branch : ∀ r ∈ s.rob.prog cfg, (s.stn r).recoverInst = true → (s.stn r).specMode = false
  access : ∀ r ∈ s.rob.prog cfg, (s.stn r).inLSQ = true → (s.stn r).op.has F.mem = true
  ready : Ledger id s.gen (readyDue cfg s) (tickets k.nodes + tickets s.readyQueue)
  events : Ledger id s.gen (eventDue cfg s) (tickets s.eventQueue)
  operands : Ledger Prod.fst s.gen (operandDue cfg s)
    (operandTickets k.links + consumerTickets cfg s.odepList)
  behind : ∀ p, ∀ l ∈ s.odepList p, l.rs ≠ p.1 ∧ l.rs ∉ older (s.rob.prog cfg) p.1
  nodeAge : ∀ n ∈ k.nodes, s.gen n.rs ≤ n.gen + 1
  queueAge : ∀ n ∈ s.readyQueue, s.gen n.rs ≤ n.gen + ph.nodeAge (live cfg s n.rs)
  linkAge : ∀ l ∈ k.links, s.gen l.rs < l.gen + 2 ^ 32
  consumerAge : ∀ p, ∀ l ∈ s.odepList p,
    s.gen l.rs ≤ l.gen + resolvedFrom s k.branch (s.rob.prog cfg) p.1
  eventAge : ∀ ev ∈ s.eventQueue,
    (s.gen ev.rs : Int) + ev.x ≤ ev.gen + s.simCycle + 2 ^ 31 + ph.eventAge (live cfg s ev.rs)
  due : ∀ ev ∈ s.eventQueue, s.simCycle ≤ ev.x ∧ (ph = .early ∨ s.simCycle < ev.x)
  sorted : s.eventQueue.Pairwise fun a b => a.x ≤ b.x

/-- The stations `D` have been given up, and their consumer lists dropped. -/
structure GaveUp (cfg : Config) (D : List Ref) (s s' : State env) : Prop where
  prog : ∀ r, r ∈ s'.rob.prog cfg ↔ r ∈ s.rob.prog cfg ∧ r ∉ D
  sub : ∀ r ∈ D, r ∈ s.rob.prog cfg
  tag : ∀ r, s'.tag r = if r ∈ D then s.tag r + 1 else s.tag r
  gen : ∀ r, s'.gen r = if r ∈ D then s.gen r + 1 else s.gen r
  lists : s'.odepList = dropLists D s.odepList
  stn : s'.stn = s.stn
  queued : s'.queued = s.queued
  issued : s'.issued = s.issued
  completed : s'.completed = s.completed
  idepReady : s'.idepReady = s.idepReady
  readyQueue : s'.readyQueue = s.readyQueue
  eventQueue : s'.eventQueue = s.eventQueue
  simCycle : s'.simCycle = s.simCycle

variable {r : Ref}

theorem live_iff : live cfg s r = true ↔ r ∈ s.rob.prog cfg := decide_eq_true_iff

/-! ### Program order -/

section

variable {P Q D : List Ref} {r x : Ref}

theorem older_isStart (P : List Ref) (r : Ref) : older P r <+: P := takeWhile_prefix _

theorem older_append_of_mem (hr : r ∈ P) : older (P ++ Q) r = older P r := by
  induction P with
  | nil => cases hr
  | cons a P ih =>
    by_cases ha : a = r
    · simp [older, ha]
    · have hr : r ∈ P := (mem_cons.mp hr).resolve_left (Ne.symm ha)
      have hRest : older (P ++ Q) r = older P r := ih hr
      simpa [older, ha] using hRest

theorem older_append_of_not_mem (hr : r ∉ D) : older (D ++ P) r = D ++ older P r := by
  refine takeWhile_append_of_pos fun a ha => ?_
  simpa using fun hEq : a = r => hr (hEq ▸ ha)

/-- Of two entries at most one is the older. -/
theorem not_mem_older (hx : x ∈ older P r) : r ≠ x ∧ r ∉ older P x := by
  induction P with
  | nil => cases hx
  | cons a P ih =>
    by_cases ha : a = r
    · simp [older, ha] at hx
    · have hx : x = a ∨ x ∈ older P r := by simpa [older, ha] using hx
      by_cases hxa : a = x
      · subst hxa
        exact ⟨Ne.symm ha, by simp [older]⟩
      · obtain ⟨hne, hNot⟩ := ih (hx.resolve_left (Ne.symm hxa))
        refine ⟨hne, ?_⟩
        simpa [older, hxa, Ne.symm ha] using hNot

theorem before_append_of_mem (hr : r ∈ P) : before (P ++ Q) r = before P r := by
  cases r <;> simp only [before, older_append_of_mem hr]

theorem length_before_le (P : List Ref) (r : Ref) : (before P r).length ≤ P.length := by
  have hLe := (older_isStart P r).length_le
  cases r with
  | ruu i => exact hLe
  | lsq i =>
    rw [before, length_dropLast]
    omega

end

variable {i : Nat}

variable {q : Rob env}

/-- The first entry in program order is in the RUU. -/
theorem Rob.older_lsq_ne_nil (hr : Ref.lsq i ∈ q.prog cfg) :
    older (q.prog cfg) (.lsq i) ≠ [] := by
  unfold Rob.prog at hr ⊢
  cases hRuu : q.ruu cfg with
  | nil =>
    rw [hRuu] at hr
    cases hr
  | cons a R =>
    obtain ⟨j, _, rfl⟩ := mem_map.mp (show a ∈ q.ruu cfg by simp [hRuu])
    unfold weave
    split <;> simp [older]

theorem resolvedFrom_le (branch : Option Ref) (P : List Ref) (r : Ref) :
    resolvedFrom s branch P r ≤ P.length :=
  countP_le_length.trans (by simp)

/-- Younger entries do not count less. -/
theorem resolvedFrom_append {P : List Ref} (hr : r ∈ P) (branch : Option Ref)
    (Q : List Ref) : resolvedFrom s branch (P ++ Q) r = resolvedFrom s branch P r +
      Q.countP fun b => (s.stn b).recoverInst && s.completed b && decide (branch ≠ some b) := by
  unfold resolvedFrom
  rw [before_append_of_mem hr, drop_append_of_le_length (length_before_le P r),
    countP_append]

/-- Nor do older ones that leave. -/
theorem resolvedFrom_drop {P D : List Ref} (hr : r ∉ D)
    (hFirst : ∀ i, r = .lsq i → older P r ≠ []) (branch : Option Ref) :
    resolvedFrom s branch (D ++ P) r = resolvedFrom s branch P r := by
  have hBefore : before (D ++ P) r = D ++ before P r := by
    cases r with
    | ruu i => exact older_append_of_not_mem hr
    | lsq i =>
      simp only [before, older_append_of_not_mem hr]
      exact dropLast_append_of_ne_nil (hFirst i rfl)
  unfold resolvedFrom
  rw [hBefore, length_append, drop_append, drop_eq_nil_of_le (by omega),
    nil_append, Nat.add_sub_cancel_left]

theorem resolvedFrom_congr {branch branch' : Option Ref} {P : List Ref}
    (hSame : ∀ b ∈ P, ((s'.stn b).recoverInst && s'.completed b && decide (branch' ≠ some b)) =
      ((s.stn b).recoverInst && s.completed b && decide (branch ≠ some b))) (r : Ref) :
    resolvedFrom s' branch' P r = resolvedFrom s branch P r :=
  countP_congr fun b hb => by rw [hSame b (mem_of_mem_drop hb)]

/-- A branch that has been recovered from. -/
theorem resolvedFrom_resolve {b r : Ref} {Q M : List Ref} (hC : s.completed b = true)
    (hRec : (s.stn b).recoverInst = true) (hLe : (before (Q ++ b :: M) r).length ≤ Q.length) :
    resolvedFrom s (some b) (Q ++ b :: M) r + 1 ≤ resolvedFrom s none (Q ++ b :: M) r := by
  have hMono : ∀ P : List Ref,
      P.countP (fun x => (s.stn x).recoverInst && s.completed x && decide (some b ≠ some x)) ≤
        P.countP fun x => (s.stn x).recoverInst && s.completed x &&
          decide ((none : Option Ref) ≠ some x) := by
    intro P
    refine countP_mono_left fun x _ hx => ?_
    simp only [Bool.and_eq_true] at hx
    simp [hx.1]
  have hQ := hMono (Q.drop (before (Q ++ b :: M) r).length)
  have hM := hMono M
  unfold resolvedFrom
  rw [drop_append_of_le_length hLe, countP_append, countP_append,
    countP_cons_of_neg (by simp), countP_cons_of_pos (by simp [hC, hRec])]
  omega

/-- Where the last instruction begins. -/
theorem length_before_of_mem {Q M : List Ref}
    (hNodup : (Q ++ .ruu i :: M).Nodup) (hr : r ∈ Q ++ .ruu i :: M)
    (hM : M = [] ∨ ∃ j, M = [.lsq j]) : (before (Q ++ .ruu i :: M) r).length ≤ Q.length := by
  by_cases hQ : r ∈ Q
  · rw [before_append_of_mem hQ]
    exact length_before_le Q r
  rcases mem_cons.mp ((mem_append.mp hr).resolve_left hQ) with rfl | hr
  · rw [before, older_append hQ]
  · obtain ⟨j, rfl⟩ := hM.resolve_left (ne_nil_of_mem hr)
    obtain rfl := mem_singleton.mp hr
    rw [before, append_cons, older_append (by simp [hQ]), dropLast_concat]

/-- The entries of the last instruction of a part of the queues. -/
theorem InSync.weave_last {stn : Ref → Station env} {pre L : List Ref}
    (h : InSync stn (pre ++ [.ruu i]) L) (hL : ∀ l ∈ L, ∃ j, l = .lsq j) :
    ∃ Q M, weave stn (pre ++ [.ruu i]) L = Q ++ .ruu i :: M ∧ (M = [] ∨ ∃ j, M = [.lsq j]) := by
  obtain ⟨L₁, L₂, rfl, h₁, h₂⟩ := h.split
  rw [h₁.weave_append]
  cases h₂ with
  | op hEa hNil =>
    cases hNil
    exact ⟨weave stn pre L₁, [], by simp [weave, hEa], .inl rfl⟩
  | @mem _ l _ _ hEa _ hNil =>
    cases hNil
    obtain ⟨j, rfl⟩ := hL l (by simp)
    exact ⟨weave stn pre L₁, [.lsq j], by simp [weave, hEa], .inr ⟨j, rfl⟩⟩

theorem QueueInv.lsq_of_append (_h : QueueInv cfg q) {L₁ L₂ : List Ref}
    (hLsq : q.lsq cfg = L₁ ++ L₂) : ∀ l ∈ L₁, ∃ j, l = .lsq j := by
  intro l hl
  have hMem : l ∈ q.lsq cfg := by
    rw [hLsq]
    exact mem_append_left _ hl
  obtain ⟨j, _, rfl⟩ := mem_map.mp hMem
  exact ⟨j, rfl⟩

theorem Phase.nodeAge_le (ph : Phase) (live : Bool) : ph.nodeAge live ≤ 1 := by
  cases ph <;> cases live <;> decide

theorem Phase.eventAge_le (ph : Phase) (live : Bool) : ph.eventAge live ≤ 1 := by
  cases ph <;> cases live <;> decide

variable {ev : RSLink Int}

/-- The event queue is sorted by time. -/
theorem insertEvent_sorted {q : List (RSLink Int)} (h : q.Pairwise fun a b => a.x ≤ b.x) :
    (insertEvent ev q).Pairwise fun a b => a.x ≤ b.x := by
  induction q with
  | nil => simp [insertEvent]
  | cons e q ih =>
    obtain ⟨hFirst, hRest⟩ := pairwise_cons.mp h
    by_cases hLt : e.x < ev.x
    · have hStep : insertEvent ev (e :: q) = e :: insertEvent ev q := by
        simp [insertEvent, hLt]
      rw [hStep]
      refine pairwise_cons.mpr ⟨fun a ha => ?_, ih hRest⟩
      rcases mem_cons.mp ((insertEvent_perm ev q).mem_iff.mp ha) with rfl | ha
      · exact hLt.le
      · exact hFirst a ha
    · have hStep : insertEvent ev (e :: q) = ev :: e :: q := by
        simp [insertEvent, hLt]
      rw [hStep]
      refine pairwise_cons.mpr ⟨fun a ha => ?_, h⟩
      rcases mem_cons.mp ha with rfl | ha
      · exact not_lt.mp hLt
      · exact (not_lt.mp hLt).trans (hFirst a ha)

theorem QueueInv.length_prog_lt (h : QueueInv cfg q) :
    (q.prog cfg).length < 2 ^ 32 := by
  have hLength : (q.prog cfg).length = q.ruuNum + q.lsqNum := by
    rw [Rob.prog, h.sync.weave_perm.length_eq, length_append, Rob.length_ruu, Rob.length_lsq]
  have hRuu := h.ruuNum_le
  have hLsq := h.lsqNum_le
  have hInt := cfg.ruu_int
  have hIntL := cfg.lsq_int
  omega

variable {n : RSLink Word} {l : RSLink (Fin 3)} {p : CVLink}

namespace Wake

variable {ph : Phase} {k : Loose} {nodes : List (RSLink Word)} {links : List (RSLink (Fin 3))}
  {branch hand : Option Ref} {r : Ref}

theorem init (env : Env) (img : Image) : Wake cfg .early {} (Outorder.init env img) := by
  have hProg : (Outorder.init env img).rob.prog cfg = [] := rfl
  have hNone : consumerTickets cfg (Outorder.init env img).odepList = 0 :=
    Pool.held_eq_zero fun _ _ => rfl
  have hLive : ∀ r, live cfg (Outorder.init env img) r = false := fun r => by
    simp [live, hProg]
  refine ⟨fun _ => rfl, by simp [hProg], by simp [hProg], by simp [hProg], by simp [hProg],
    ?_, ?_, ?_, fun _ => forall_mem_nil _, forall_mem_nil _, forall_mem_nil _,
    forall_mem_nil _, fun _ => forall_mem_nil _, forall_mem_nil _,
    forall_mem_nil _, List.Pairwise.nil⟩
  · refine Ledger.empty.congr fun r => ?_
    simp [readyDue, hLive]
  · refine Ledger.empty.congr fun r => ?_
    simp [eventDue, hLive]
  · rw [hNone]
    refine Ledger.empty.congr fun r => ?_
    simp [operandDue, hLive]

/-! ### Valid links are current -/

theorem linkValid_iff {α : Type} (h : Wake cfg ph k s) {κ : Type} [DecidableEq κ] {slot : κ → Ref}
    {due : κ → Bool} {T : Multiset (Ticket κ 32)} {l : RSLink α} {key : κ}
    (hT : Ledger slot s.gen due T) (ht : ⟨key, l.tag, l.gen⟩ ∈ T) (hKey : slot key = l.rs)
    (hAge : s.gen l.rs < l.gen + 2 ^ 32) : s.linkValid l = true ↔ l.gen = s.gen l.rs := by
  have hIff := hT.tag_eq_iff ht (by rw [hKey]; exact hAge)
  simp only [hKey] at hIff
  rw [State.linkValid, beq_iff_eq, h.tag l.rs]
  exact hIff

theorem node_valid_iff (h : Wake cfg ph ⟨nodes, links, branch, hand⟩ s)
    (hn : n ∈ nodes) : s.linkValid n = true ↔ n.gen = s.gen n.rs := by
  refine h.linkValid_iff h.ready (Multiset.mem_add.mpr (.inl (ticket_mem hn))) rfl ?_
  have hAge := h.nodeAge n hn
  omega

theorem queue_valid_iff (h : Wake cfg ph k s) (hn : n ∈ s.readyQueue) :
    s.linkValid n = true ↔ n.gen = s.gen n.rs := by
  refine h.linkValid_iff h.ready (Multiset.mem_add.mpr (.inr (ticket_mem hn))) rfl ?_
  have hAge := h.queueAge n hn
  have hOne := ph.nodeAge_le (live cfg s n.rs)
  omega

theorem event_valid_iff (h : Wake cfg ph k s) (hev : ev ∈ s.eventQueue) :
    s.linkValid ev = true ↔ ev.gen = s.gen ev.rs := by
  refine h.linkValid_iff h.events (ticket_mem hev) rfl ?_
  have hAge := h.eventAge ev hev
  have hDue := (h.due ev hev).1
  have hOne := ph.eventAge_le (live cfg s ev.rs)
  omega

theorem link_valid_iff (h : Wake cfg ph ⟨nodes, links, branch, hand⟩ s)
    (hl : l ∈ links) : s.linkValid l = true ↔ l.gen = s.gen l.rs := by
  have ht : operandTicket l ∈ operandTickets links :=
    Multiset.mem_coe.mpr (mem_map_of_mem hl)
  exact h.linkValid_iff h.operands (Multiset.mem_add.mpr (.inl ht)) rfl (h.linkAge l hl)

/-- The number of branches in flight bounds the age of a consumer link. -/
theorem consumer_lt (h : Wake cfg ph k s) (hQ : QueueInv cfg s.rob)
    (hl : l ∈ s.odepList p) : s.gen l.rs < l.gen + 2 ^ 32 := by
  have hAge := h.consumerAge p l hl
  have hLength := resolvedFrom_le (s := s) k.branch (s.rob.prog cfg) p.1
  have hBound := hQ.length_prog_lt
  omega

theorem consumer_valid_iff (h : Wake cfg ph k s) (hQ : QueueInv cfg s.rob)
    (hp : p ∈ linkKeys cfg) (hl : l ∈ s.odepList p) :
    s.linkValid l = true ↔ l.gen = s.gen l.rs := by
  have ht : operandTicket l ∈ consumerTickets cfg s.odepList :=
    Pool.mem_held.mpr ⟨p, hp, mem_map_of_mem hl⟩
  exact h.linkValid_iff h.operands (Multiset.mem_add.mpr (.inr ht)) rfl (h.consumer_lt hQ hl)

/-! ### Events -/

theorem dropEvent (h : Wake cfg ph k s) {rest : List (RSLink Int)}
    (hq : s.eventQueue = ev :: rest) (hStale : s.linkValid ev = false) :
    Wake cfg ph k (popEvent ev rest s) := by
  have hMem : ev ∈ s.eventQueue := by simp [hq]
  have hRest : ∀ e ∈ rest, e ∈ s.eventQueue := fun e he => by simp [hq, he]
  have hOld : ev.gen ≠ s.gen ev.rs := by
    intro hGen
    rw [(h.event_valid_iff hMem).mpr hGen] at hStale
    cases hStale
  have hEvents := h.events
  rw [hq, tickets_cons] at hEvents
  have hSorted := h.sorted
  rw [hq] at hSorted
  exact { h with
    events := hEvents.discard hOld
    eventAge := fun e he => h.eventAge e (hRest e he)
    due := fun e he => h.due e (hRest e he)
    sorted := hSorted.of_cons }

/-- What a valid event says about its operation. -/
theorem event_due (h : Wake cfg ph k s) (hev : ev ∈ s.eventQueue)
    (hValid : s.linkValid ev = true) :
    ev.rs ∈ s.rob.prog cfg ∧ s.issued ev.rs = true ∧ s.completed ev.rs = false := by
  have hDue : eventDue cfg s ev.rs = true :=
    h.events.due_of_mem (ticket_mem hev) ((h.event_valid_iff hev).mp hValid)
  simpa [eventDue, live_iff] using hDue

theorem completeEvent (h : Wake cfg ph {} s) {rest : List (RSLink Int)}
    (hq : s.eventQueue = ev :: rest) (hValid : s.linkValid ev = true) :
    Wake cfg ph { branch := some ev.rs } { popEvent ev rest s with
      completed := Function.update s.completed ev.rs true } := by
  have hMem : ev ∈ s.eventQueue := by simp [hq]
  have hRest : ∀ e ∈ rest, e ∈ s.eventQueue := fun e he => by simp [hq, he]
  obtain ⟨hLive, hIssued, hNot⟩ := h.event_due hMem hValid
  have hEvents := h.events
  rw [hq, tickets_cons] at hEvents
  have hSorted := h.sorted
  rw [hq] at hSorted
  refine ⟨h.tag, fun r hr => ?_, h.moves, h.branch, h.access, h.ready, ?_, h.operands,
    h.behind, h.nodeAge, h.queueAge, h.linkAge, fun p l hl => ?_,
    fun e he => h.eventAge e (hRest e he), fun e he => h.due e (hRest e he), hSorted.of_cons⟩
  · have hStatus := h.status r hr
    show Status (s.operandsReady r) (s.queued r) (s.issued r) (Function.update s.completed ev.rs true r)
    by_cases hre : r = ev.rs
    · subst hre
      refine ⟨fun hQ => ?_, hStatus.of_issued, fun _ => hIssued⟩
      rw [hIssued] at hStatus
      cases (hStatus.of_queued hQ).2.1
    · rwa [update_of_ne hre]
  · refine (hEvents.redeem ((h.event_valid_iff hMem).mp hValid)).congr fun r => ?_
    show (live cfg s r && (s.issued r && !Function.update s.completed ev.rs true r)) =
      Function.update (eventDue cfg s) ev.rs false r
    by_cases hre : r = ev.rs
    · subst hre
      simp
    · simp [hre, eventDue]
  · have hAge := h.consumerAge p l hl
    refine hAge.trans_eq (congrArg _ (resolvedFrom_congr (fun b _ => ?_) _).symm)
    show ((s.stn b).recoverInst && Function.update s.completed ev.rs true b && _) = _
    by_cases hb : b = ev.rs
    · subst hb
      simp [hNot]
    · simp [hb, Ne.symm hb]

/-- A completed operation that was predicted well. -/
theorem unpend (h : Wake cfg ph ⟨nodes, links, branch, hand⟩ s) :
    Wake cfg ph ⟨nodes, links, none, hand⟩ s := by
  refine { h with consumerAge := fun p l hl => ?_ }
  refine (h.consumerAge p l hl).trans (Nat.add_le_add_left (countP_mono_left ?_) _)
  intro b _ hb
  simp only [Bool.and_eq_true] at hb
  simp [hb.1]

end Wake

/-! ### Stations that are given up -/

namespace GaveUp

variable {D : List Ref} (h : GaveUp cfg D s s')

include h

theorem live_eq (r : Ref) : live cfg s' r = if r ∈ D then false else live cfg s r := by
  have hIff := h.prog r
  by_cases hr : r ∈ D
  · simp [live, hIff, hr]
  · simp [live, hIff, hr]

/-- Nothing is due any more where a station is given up. -/
theorem void_iff {κ : Type} (slot : κ → Ref) {due due' : κ → Bool}
    (hDue : ∀ k, slot k ∉ D → due' k = due k) (hDead : ∀ k, slot k ∈ D → due' k = false) (k : κ) :
    s'.gen (slot k) = s.gen (slot k) ∧ due' k = due k ∨
      s.gen (slot k) < s'.gen (slot k) ∧ due' k = false := by
  by_cases hk : slot k ∈ D
  · refine .inr ⟨?_, hDead k hk⟩
    rw [h.gen, if_pos hk]
    omega
  · exact .inl ⟨by rw [h.gen, if_neg hk], hDue k hk⟩

/-- A link to a station that is given up has become one generation older. -/
theorem age_le {g : Int} (hAge : (s.gen r : Int) ≤ g + Phase.early.eventAge (live cfg s r)) :
    (s'.gen r : Int) ≤ g + Phase.early.eventAge (live cfg s' r) := by
  rw [h.gen, h.live_eq]
  by_cases hr : r ∈ D
  · rw [live_iff.mpr (h.sub r hr)] at hAge
    simp only [hr, if_true, Phase.eventAge] at hAge ⊢
    push_cast at hAge ⊢
    omega
  · simpa only [hr, if_false] using hAge

theorem operandsReady (r : Ref) : s'.operandsReady r = s.operandsReady r := by
  simp only [State.operandsReady, h.idepReady]

end GaveUp

theorem mem_of_append {P P' D : List Ref} (hNodup : P.Nodup) (hP : P = D ++ P') (r : Ref) :
    r ∈ P' ↔ r ∈ P ∧ r ∉ D := by
  subst hP
  have hDisj := disjoint_of_nodup_append hNodup
  rw [mem_append]
  exact ⟨fun hr => ⟨.inr hr, fun hD => hDisj hD hr⟩, fun hr => hr.1.resolve_left hr.2⟩

theorem Base.mem_prog_of_list {op : CVLink → Bool} {loose : List Nat} {undone : List Dispatch}
    (h : Base cfg ⟨op, [], loose, undone⟩ s) (hp : s.odepList p ≠ []) :
    p.1 ∈ s.rob.prog cfg := by
  obtain ⟨_, d, hd, rfl⟩ := h.names_live.lists p hp
  exact key_mem hd

variable {D : List Ref}

theorem dropLists_of_completed (h : Base cfg {} s)
    (hD : ∀ r ∈ D, s.completed r = true) : dropLists D s.odepList = s.odepList := by
  funext p
  unfold dropLists
  split
  · exact (h.odepList_eq_nil (hD _ ‹_›) p.2).symm
  · rfl

theorem consumerTickets_drop (cfg : Config) (D : List Ref)
    (odepList : CVLink → List (RSLink (Fin 3))) :
    consumerTickets cfg odepList =
      consumerTickets cfg (fun p => if p.1 ∈ D then odepList p else []) +
        consumerTickets cfg (dropLists D odepList) := by
  unfold consumerTickets
  rw [← Pool.held_append]
  congr 1
  funext p
  by_cases hp : p.1 ∈ D <;> simp [dropLists, hp]

namespace Wake

theorem giveUp {branch : Option Ref} (h : Wake cfg .early { branch := branch } s)
    (hGone : GaveUp cfg D s s')
    (hDrop : ∀ p, p.1 ∈ D → ∀ l ∈ s.odepList p, l.rs ∉ s'.rob.prog cfg)
    (hKeep : ∀ p, p.1 ∉ D → ∀ l ∈ s.odepList p, l.rs ≠ p.1 ∧ l.rs ∉ older (s'.rob.prog cfg) p.1 ∧
      s'.gen l.rs ≤ l.gen + resolvedFrom s' none (s'.rob.prog cfg) p.1) :
    Wake cfg .early {} s' := by
  have hSub : ∀ r ∈ s'.rob.prog cfg, r ∈ s.rob.prog cfg := fun r hr => ((hGone.prog r).mp hr).1
  have hLists : ∀ p, ∀ l ∈ s'.odepList p, p.1 ∉ D ∧ l ∈ s.odepList p := by
    intro p l hl
    rw [hGone.lists, dropLists] at hl
    split at hl
    · cases hl
    · exact ⟨‹_›, hl⟩
  refine ⟨fun r => ?_, fun r hr => ?_, fun r hr hHand => ?_, fun r hr => ?_, fun r hr => ?_,
    ?_, ?_, ?_, fun p l hl => ?_, forall_mem_nil _, fun n hn => ?_, forall_mem_nil _,
    fun p l hl => ?_, fun ev hev => ?_, ?_, ?_⟩
  · rw [hGone.tag, hGone.gen, h.tag]
    split
    · rw [BitVec.ofNat_add]
      rfl
    · rfl
  · rw [hGone.operandsReady, hGone.queued, hGone.issued, hGone.completed]
    exact h.status r (hSub r hr)
  · rw [hGone.operandsReady, hGone.queued, hGone.issued]
    simp only [awaitsRefresh, State.isStore, hGone.stn]
    exact h.moves r (hSub r hr) hHand
  · rw [hGone.stn]
    exact h.branch r (hSub r hr)
  · rw [hGone.stn]
    exact h.access r (hSub r hr)
  · rw [hGone.readyQueue]
    refine h.ready.void (hGone.void_iff id (fun r hr => ?_) fun r hr => ?_)
    · simp only [readyDue, hGone.live_eq, hGone.queued, id] at hr ⊢
      rw [if_neg hr]
    · simp only [readyDue, hGone.live_eq, id] at hr ⊢
      rw [if_pos hr, Bool.false_and]
  · rw [hGone.eventQueue]
    refine h.events.void (hGone.void_iff id (fun r hr => ?_) fun r hr => ?_)
    · simp only [eventDue, hGone.live_eq, hGone.issued, hGone.completed, id] at hr ⊢
      rw [if_neg hr]
    · simp only [eventDue, hGone.live_eq, id] at hr ⊢
      rw [if_pos hr, Bool.false_and]
  · -- the dropped lists were those of consumers that go as well
    have hVoid : Ledger Prod.fst s'.gen (operandDue cfg s')
        (operandTickets [] + consumerTickets cfg s.odepList) := by
      refine h.operands.void (hGone.void_iff Prod.fst (fun k hk => ?_) fun k hk => ?_)
      · simp only [operandDue, hGone.live_eq, hGone.idepReady, if_neg hk]
      · simp only [operandDue, hGone.live_eq, if_pos hk, Bool.false_and]
    rw [operandTickets_nil, zero_add, consumerTickets_drop cfg D] at hVoid
    rw [operandTickets_nil, zero_add, hGone.lists]
    refine hVoid.forget fun t ht => ?_
    obtain ⟨p, _, hp⟩ := Pool.mem_held.mp ht
    by_cases hD : p.1 ∈ D
    · obtain ⟨l, hl, rfl⟩ := mem_map.mp (by simpa [hD] using hp)
      have hDead : live cfg s' l.rs = false := by simpa [live] using hDrop p hD l hl
      simp [operandDue, operandTicket, hDead]
    · simp [hD] at hp
  · obtain ⟨hD, hl⟩ := hLists p l hl
    exact ⟨(hKeep p hD l hl).1, (hKeep p hD l hl).2.1⟩
  · rw [hGone.readyQueue] at hn
    exact_mod_cast hGone.age_le (g := n.gen) (by exact_mod_cast h.queueAge n hn)
  · obtain ⟨hD, hl⟩ := hLists p l hl
    exact (hKeep p hD l hl).2.2
  · rw [hGone.eventQueue] at hev
    have hAge := h.eventAge ev hev
    have hOlder := hGone.age_le (r := ev.rs) (g := ev.gen + s.simCycle + 2 ^ 31 - ev.x) (by omega)
    rw [hGone.simCycle]
    omega
  · rw [hGone.eventQueue, hGone.simCycle]
    exact h.due
  · rw [hGone.eventQueue]
    exact h.sorted

/-- Completed entries at the head leave. -/
theorem leave (h : Wake cfg .early {} s) (hB : Base cfg {} s)
    (hGone : GaveUp cfg D s s') (hProg : s.rob.prog cfg = D ++ s'.rob.prog cfg)
    (hDone : ∀ r ∈ D, s.completed r = true) : Wake cfg .early {} s' := by
  refine h.giveUp hGone (fun p hp l hl => ?_) fun p hp l hl => ?_
  · rw [hB.odepList_eq_nil (hDone _ hp) p.2] at hl
    cases hl
  · obtain ⟨hNe, hOlder⟩ := h.behind p l hl
    rw [hProg, older_append_of_not_mem hp, mem_append, not_or] at hOlder
    have hLive : p.1 ∈ s'.rob.prog cfg :=
      (hGone.prog p.1).mpr ⟨hB.mem_prog_of_list (ne_nil_of_mem hl), hp⟩
    have hAge := h.consumerAge p l hl
    rw [hProg, resolvedFrom_drop hp (fun i hi => by
      rw [hi] at hLive ⊢
      exact Rob.older_lsq_ne_nil hLive)] at hAge
    refine ⟨hNe, hOlder.2, ?_⟩
    rw [hGone.gen, if_neg hOlder.1]
    refine hAge.trans_eq (congrArg _ (resolvedFrom_congr (fun b _ => ?_) _).symm)
    rw [hGone.stn, hGone.completed]

theorem retires (h : Wake cfg .early {} s) (hB : Base cfg {} s) (hNum : s.ruuNum ≠ 0)
    (hStep : Retires cfg s s') : Wake cfg .early {} s' := by
  have hNodup := hB.queue.nodup_prog
  cases hStep with
  | op pred hC hEa =>
    obtain ⟨_, hProg⟩ := hB.queue.retireOp hNum hEa
    refine h.leave (D := [.ruu s.ruuHead]) hB ⟨?_, ?_, ?_, ?_, ?_, rfl, rfl, rfl, rfl, rfl, rfl, rfl,
      rfl⟩ hProg (by simpa using hC)
    · exact mem_of_append hNodup hProg
    · simpa using hProg ▸ mem_cons_self ..
    · intro r
      show Function.update s.tag _ _ r = _
      by_cases hr : r = .ruu s.ruuHead <;> simp [hr]
    · intro r
      show Function.update s.gen _ _ r = _
      by_cases hr : r = .ruu s.ruuHead <;> simp [hr]
    · exact (dropLists_of_completed hB (by simpa using hC)).symm
  | mem pred hC hEa hCL =>
    obtain ⟨_, _, _, hProg⟩ := hB.queue.retireMem hNum hEa
    have hBoth : ∀ r ∈ [Ref.ruu s.ruuHead, .lsq s.lsqHead], s.completed r = true := by
      simp [hC, hCL]
    refine h.leave (D := [.ruu s.ruuHead, .lsq s.lsqHead]) hB ⟨?_, ?_, ?_, ?_, ?_, rfl, rfl, rfl, rfl,
      rfl, rfl, rfl, rfl⟩ hProg hBoth
    · exact mem_of_append hNodup hProg
    · intro r hr
      rw [hProg]
      exact mem_append_left _ hr
    · intro r
      show Function.update (Function.update s.tag _ _) _ _ r = _
      by_cases hr : r = .ruu s.ruuHead <;> by_cases hl : r = .lsq s.lsqHead <;> simp [hr, hl]
    · intro r
      show Function.update (Function.update s.gen _ _) _ _ r = _
      by_cases hr : r = .ruu s.ruuHead <;> by_cases hl : r = .lsq s.lsqHead <;> simp [hr, hl]
    · exact (dropLists_of_completed hB hBoth).symm

/-- **Recovery.**  The links to squashed stations become stale; those in the consumer lists
of older producers pay for it with the branch that has been resolved. -/
theorem recover (h : Wake cfg .early { branch := some (.ruu i) } s)
    (hQ : QueueInv cfg s.rob) (hLive : ∀ p, s.odepList p ≠ [] → p.1 ∈ s.rob.prog cfg)
    (hC : s.completed (.ruu i) = true) (hRec : (s.stn (.ruu i)).recoverInst = true)
    {pre post L₁ L₂ : List Ref} (hRuu : s.rob.ruu cfg = pre ++ .ruu i :: post)
    (hPost : ∀ r ∈ post, (s.stn r).specMode = true) (hLsq : s.rob.lsq cfg = L₁ ++ L₂)
    (h₁ : InSync s.stn (pre ++ [.ruu i]) L₁) (h₂ : InSync s.stn post L₂) (free : List Nat)
    (pred : env.Pred) :
    Wake cfg .early {} (restarted cfg pred
      (recovered cfg (pre.length + 1) L₁.length (weave s.stn post L₂) free s)) := by
  have hCut := hRuu
  rw [append_cons] at hCut
  obtain ⟨hQ', hRuu', hLsq', hProg⟩ := hQ.truncate hCut hLsq h₁
  rw [length_append, length_singleton] at hQ' hRuu' hLsq' hProg
  replace hProg : s.rob.prog cfg =
      (s.rob.truncate cfg (pre.length + 1) L₁.length).prog cfg ++ weave s.stn post L₂ := hProg
  have hNodup := hQ.nodup_prog
  have hDisj : List.Disjoint _ (weave s.stn post L₂) :=
    disjoint_of_nodup_append (hProg ▸ hNodup)
  have hWrong := h₂.specMode_weave hPost
  -- the branch ends what is left, but for its partner
  obtain ⟨Q, M, hEnd, hM⟩ := h₁.weave_last (hQ.lsq_of_append hLsq)
  have hLeft : (s.rob.truncate cfg (pre.length + 1) L₁.length).prog cfg = Q ++ .ruu i :: M := by
    rw [← hEnd, Rob.prog, hRuu', hLsq']
    rfl
  refine h.giveUp (D := weave s.stn post L₂) ⟨fun r => ?_, fun r hr => ?_, fun r => rfl, fun r => rfl,
    rfl, rfl, rfl, rfl, rfl, rfl, rfl, rfl, rfl⟩ (fun p hp l hl => ?_) fun p hp l hl => ?_
  · show r ∈ (s.rob.truncate cfg _ _).prog cfg ↔ _
    rw [hProg, mem_append]
    exact ⟨fun hr => ⟨.inl hr, fun hD => hDisj hr hD⟩, fun hr => hr.1.resolve_right hr.2⟩
  · rw [hProg]
    exact mem_append_right _ hr
  · -- consumers of a squashed station are younger than it
    have hOlder := (h.behind p l hl).2
    rw [hProg, older_append_of_not_mem fun hMem => hDisj hMem hp, mem_append, not_or] at hOlder
    exact hOlder.1
  · have hMem : p.1 ∈ (s.rob.truncate cfg (pre.length + 1) L₁.length).prog cfg := by
      have hMem := hLive p (ne_nil_of_mem hl)
      rw [hProg] at hMem
      exact (mem_append.mp hMem).resolve_right hp
    obtain ⟨hNe, hOlder⟩ := h.behind p l hl
    rw [hProg, older_append_of_mem hMem] at hOlder
    refine ⟨hNe, hOlder, ?_⟩
    have hAge : s.gen l.rs ≤ l.gen + resolvedFrom s (some (.ruu i)) (s.rob.prog cfg) p.1 :=
      h.consumerAge p l hl
    have hNone : (weave s.stn post L₂).countP (fun b => (s.stn b).recoverInst && s.completed b &&
        decide (some (Ref.ruu i) ≠ some b)) = 0 := by
      refine countP_eq_zero.mpr fun b hb hRecb => ?_
      simp only [Bool.and_eq_true] at hRecb
      have hLiveb : b ∈ s.rob.prog cfg := by
        rw [hProg]
        exact mem_append_right _ hb
      have hSpec := h.branch b hLiveb hRecb.1.1
      rw [hWrong b hb] at hSpec
      cases hSpec
    rw [hProg, resolvedFrom_append hMem, hNone, Nat.add_zero] at hAge
    have hMore : resolvedFrom s (some (.ruu i)) (Q ++ .ruu i :: M) p.1 + 1 ≤
        resolvedFrom s none (Q ++ .ruu i :: M) p.1 := by
      refine resolvedFrom_resolve hC hRec (length_before_of_mem ?_ ?_ hM)
      · rw [← hLeft]
        exact hQ'.nodup_prog
      · rw [← hLeft]
        exact hMem
    rw [← hLeft] at hMore
    show (if l.rs ∈ weave s.stn post L₂ then s.gen l.rs + 1 else s.gen l.rs) ≤
      l.gen + resolvedFrom s none ((s.rob.truncate cfg (pre.length + 1) L₁.length).prog cfg) p.1
    split <;> omega

/-! ### Broadcast -/

end Wake

theorem consumerTickets_take {cfg : Config} (hp : p ∈ linkKeys cfg)
    (odepList : CVLink → List (RSLink (Fin 3))) :
    consumerTickets cfg (Function.update odepList p []) + operandTickets (odepList p) =
      consumerTickets cfg odepList := by
  have hUpdate : (fun q => (Function.update odepList p [] q).map operandTicket) =
      Function.update (fun q => (odepList q).map operandTicket) p [] := by
    funext q
    by_cases hq : q = p
    · subst hq
      simp
    · simp [hq]
  unfold consumerTickets
  rw [hUpdate]
  exact Pool.held_update_nil (linkKeys cfg) (fun q => (odepList q).map operandTicket) hp

namespace Wake

variable {ph : Phase} {k : Loose} {nodes : List (RSLink Word)} {links : List (RSLink (Fin 3))}
  {branch hand : Option Ref} {r : Ref}

theorem announce (h : Wake cfg ph {} s) (hQ : QueueInv cfg s.rob)
    (hLive : ∀ p, s.odepList p ≠ [] → p.1 ∈ s.rob.prog cfg) (rs : Ref) (i : Fin 2) :
    Wake cfg ph { links := s.odepList (rs, i) } (announced rs i s) := by
  have hSub : ∀ p, ∀ l ∈ Function.update s.odepList (rs, i) [] p, l ∈ s.odepList p := by
    intro p l hl
    by_cases hp : p = (rs, i)
    · subst hp
      simp at hl
    · rwa [update_of_ne hp] at hl
  have hTake : operandTickets (s.odepList (rs, i)) +
      consumerTickets cfg (Function.update s.odepList (rs, i) []) =
        consumerTickets cfg s.odepList := by
    by_cases hList : s.odepList (rs, i) = []
    · rw [hList, operandTickets_nil, zero_add, ← hList, update_eq_self]
    · rw [add_comm]
      exact consumerTickets_take (hQ.mem_linkKeys (hLive _ hList) i) _
  have hOperands := h.operands
  rw [operandTickets_nil, zero_add, ← hTake] at hOperands
  unfold announced
  rw [clearCreator_eq]
  refine { h with
    operands := hOperands
    behind := fun p l hl => h.behind p l (hSub p l hl)
    linkAge := fun l hl => ?_
    consumerAge := fun p l hl => h.consumerAge p l (hSub p l hl) }
  exact h.consumer_lt hQ hl

/-- A stale link of the list. -/
theorem skipLink (h : Wake cfg ph ⟨nodes, l :: links, branch, hand⟩ s)
    (hStale : s.linkValid l = false) : Wake cfg ph ⟨nodes, links, branch, hand⟩ s := by
  have hOld : l.gen ≠ s.gen l.rs := by
    intro hGen
    rw [(h.link_valid_iff (by simp)).mpr hGen] at hStale
    cases hStale
  have hOperands := h.operands
  rw [operandTickets_cons, Multiset.cons_add] at hOperands
  exact { h with
    operands := hOperands.discard hOld
    linkAge := fun l' hl => h.linkAge l' (mem_cons_of_mem _ hl) }

/-- What a valid link of the list says about its consumer. -/
theorem link_due (h : Wake cfg ph ⟨nodes, l :: links, branch, hand⟩ s)
    (hValid : s.linkValid l = true) :
    l.rs ∈ s.rob.prog cfg ∧ s.idepReady (l.rs, l.x) = false := by
  have hMem : operandTicket l ∈ operandTickets (l :: links) + consumerTickets cfg s.odepList := by
    simp
  have hDue : operandDue cfg s (l.rs, l.x) = true :=
    h.operands.due_of_mem hMem ((h.link_valid_iff (by simp)).mp hValid)
  simpa [operandDue, live_iff] using hDue

theorem not_ready_of_operand {x : Fin 3} (hx : s.idepReady (r, x) = false) :
    s.operandsReady r = false := by
  unfold State.operandsReady
  fin_cases x <;> simp_all

/-- The operand becomes ready; whether its station is queued is seen to next. -/
theorem wakeOperand (h : Wake cfg ph ⟨nodes, l :: links, branch, none⟩ s)
    (hValid : s.linkValid l = true) :
    Wake cfg ph ⟨nodes, links, branch, some l.rs⟩ (operandReady l.rs l.x s) := by
  obtain ⟨hLive, hNot⟩ := h.link_due hValid
  have hWaits := not_ready_of_operand hNot
  have hSame : ∀ r, r ≠ l.rs → (operandReady l.rs l.x s).operandsReady r = s.operandsReady r := by
    intro r hr
    simp [State.operandsReady, operandReady, hr]
  have hOperands := h.operands
  rw [operandTickets_cons, Multiset.cons_add] at hOperands
  refine { h with
    status := fun r hr => ?_
    moves := fun r hr hHand => ?_
    operands := ?_
    linkAge := fun l' hl => h.linkAge l' (mem_cons_of_mem _ hl) }
  · have hStatus := h.status r hr
    by_cases hre : r = l.rs
    · subst hre
      rw [hWaits] at hStatus
      refine ⟨fun hQ => ?_, fun hI => ?_, hStatus.of_completed⟩
      · cases (hStatus.of_queued hQ).1
      · cases hStatus.of_issued hI
    · rwa [hSame r hre]
  · rw [hSame r (fun hre => hHand (by rw [hre]))]
    exact h.moves r hr (by simp)
  · refine (hOperands.redeem ((h.link_valid_iff (by simp)).mp hValid)).congr fun key => ?_
    show (live cfg s key.1 && !Function.update s.idepReady (l.rs, l.x) true key) =
      Function.update (operandDue cfg s) (l.rs, l.x) false key
    by_cases hKey : key = (l.rs, l.x)
    · subst hKey
      simp
    · simp [hKey, operandDue]

/-! ### Queueing -/

/-- A station that waits for nothing else may be left alone. -/
theorem letGo (h : Wake cfg ph ⟨nodes, links, branch, some r⟩ s)
    (hMoves : s.operandsReady r = true → awaitsRefresh s r = false →
      s.queued r = true ∨ s.issued r = true) : Wake cfg ph ⟨nodes, links, branch, none⟩ s := by
  refine { h with moves := fun x hx _ => ?_ }
  by_cases hxr : x = r
  · subst hxr
    exact hMoves
  · exact h.moves x hx (by simpa using Ne.symm hxr)

theorem take (h : Wake cfg ph ⟨nodes, links, branch, none⟩ s) :
    Wake cfg ph ⟨nodes, links, branch, some r⟩ s :=
  { h with moves := fun x hx _ => h.moves x hx (by simp) }

theorem enqueue (h : Wake cfg ph ⟨nodes, links, branch, some r⟩ s)
    (hr : r ∈ s.rob.prog cfg) (hReady : s.operandsReady r = true) (hQ : s.queued r = false)
    (hI : s.issued r = false) (hC : s.completed r = false) (id : Nat) (rest : List Nat) :
    Wake cfg ph ⟨nodes, links, branch, none⟩ (enqueued id rest r s) := by
  have hPerm := insertReady_perm (goesFirst (s.stn r)) (newLink id r (s.stn r).seq s) s.readyQueue
  have hDue : readyDue cfg s r = false := by simp [readyDue, hQ]
  refine { h with
    status := fun x hx => ?_
    moves := fun x hx _ => ?_
    ready := ?_
    queueAge := fun n hn => ?_ }
  · have hStatus := h.status x hx
    show Status (s.operandsReady x) (Function.update s.queued r true x) (s.issued x) (s.completed x)
    by_cases hxr : x = r
    · subst hxr
      exact ⟨fun _ => ⟨hReady, hI, hC⟩, hStatus.of_issued, hStatus.of_completed⟩
    · rwa [update_of_ne hxr]
  · show _ → _ → Function.update s.queued r true x = true ∨ _
    by_cases hxr : x = r
    · subst hxr
      simp
    · rw [update_of_ne hxr]
      exact h.moves x hx (by simpa using Ne.symm hxr)
  · have hIssue := h.ready.issue (t := ticket (newLink id r (s.stn r).seq s)) (h.tag r) rfl hDue
    show Ledger _ _ _ (tickets nodes + tickets (insertReady _ _ s.readyQueue))
    rw [tickets_perm hPerm, tickets_cons, Multiset.add_cons]
    refine hIssue.congr fun x => ?_
    show (live cfg s x && Function.update s.queued r true x) =
      Function.update (readyDue cfg s) r true x
    by_cases hxr : x = r
    · subst hxr
      simp [live, hr]
    · simp [hxr, readyDue]
  · rcases mem_cons.mp (hPerm.mem_iff.mp hn) with rfl | hn
    · exact Nat.le_add_right _ _
    · exact h.queueAge n hn

/-! ### Issue -/

/-- The ready queue is copied. -/
theorem takeQueue (h : Wake cfg .middle {} s) :
    Wake cfg .late { nodes := s.readyQueue } { s with readyQueue := [] } := by
  have hReady := h.ready
  rw [tickets_nil, zero_add] at hReady
  refine ⟨h.tag, h.status, h.moves, h.branch, h.access, ?_, h.events, h.operands, h.behind,
    h.queueAge, forall_mem_nil _, h.linkAge, h.consumerAge, h.eventAge,
    fun ev hev => ⟨(h.due ev hev).1, .inr ((h.due ev hev).2.resolve_left (by simp))⟩, h.sorted⟩
  show Ledger _ _ _ (tickets s.readyQueue + tickets [])
  rw [tickets_nil, add_zero]
  exact hReady

theorem skipNode (h : Wake cfg ph ⟨n :: nodes, links, branch, hand⟩ s)
    (hStale : s.linkValid n = false) : Wake cfg ph ⟨nodes, links, branch, hand⟩ s := by
  have hOld : n.gen ≠ s.gen n.rs := by
    intro hGen
    rw [(h.node_valid_iff (by simp)).mpr hGen] at hStale
    cases hStale
  have hReady := h.ready
  rw [tickets_cons, Multiset.cons_add] at hReady
  exact { h with
    ready := hReady.discard hOld
    nodeAge := fun n' hn => h.nodeAge n' (mem_cons_of_mem _ hn) }

/-- What a valid node says about its station. -/
theorem node_due (h : Wake cfg ph ⟨n :: nodes, links, branch, hand⟩ s)
    (hValid : s.linkValid n = true) : n.rs ∈ s.rob.prog cfg ∧ CanIssue n.rs s := by
  have hMem : ticket n ∈ tickets (n :: nodes) + tickets s.readyQueue := by simp
  have hDue : readyDue cfg s n.rs = true :=
    h.ready.due_of_mem hMem ((h.node_valid_iff (by simp)).mp hValid)
  obtain ⟨hLive, hQ⟩ : n.rs ∈ s.rob.prog cfg ∧ s.queued n.rs = true := by
    simpa [readyDue, live_iff] using hDue
  obtain ⟨hReady, hI, hC⟩ := (h.status n.rs hLive).of_queued hQ
  exact ⟨hLive, hReady, hQ, hI, hC⟩

theorem unqueue (h : Wake cfg ph ⟨n :: nodes, links, branch, none⟩ s)
    (hValid : s.linkValid n = true) :
    Wake cfg ph ⟨nodes, links, branch, some n.rs⟩
      { s with queued := Function.update s.queued n.rs false } := by
  have hReady := h.ready
  rw [tickets_cons, Multiset.cons_add] at hReady
  refine { h with
    status := fun x hx => ?_
    moves := fun x hx hHand => ?_
    ready := ?_
    nodeAge := fun n' hn => h.nodeAge n' (mem_cons_of_mem _ hn) }
  · have hStatus := h.status x hx
    show Status (s.operandsReady x) (Function.update s.queued n.rs false x) (s.issued x) (s.completed x)
    by_cases hxn : x = n.rs
    · subst hxn
      exact ⟨fun hQ => absurd hQ (by simp), hStatus.of_issued, hStatus.of_completed⟩
    · rwa [update_of_ne hxn]
  · have hxn : x ≠ n.rs := fun hxn => hHand (by rw [hxn])
    show _ → _ → Function.update s.queued n.rs false x = true ∨ _
    rw [update_of_ne hxn]
    exact h.moves x hx (by simp)
  · refine (hReady.redeem ((h.node_valid_iff (by simp)).mp hValid)).congr fun x => ?_
    show (live cfg s x && Function.update s.queued n.rs false x) =
      Function.update (readyDue cfg s) n.rs false x
    by_cases hxn : x = n.rs
    · subst hxn
      simp
    · simp [hxn, readyDue]

/-- A store has completed. -/
theorem finishStore (h : Wake cfg ph ⟨nodes, links, branch, some r⟩ s)
    (hReady : s.operandsReady r = true) (hQ : s.queued r = false) (hI : s.issued r = false)
    (hRec : (s.stn r).recoverInst = false) :
    Wake cfg ph ⟨nodes, links, branch, none⟩ { s with
      issued := Function.update s.issued r true
      completed := Function.update s.completed r true } := by
  refine { h with
    status := fun x hx => ?_
    moves := fun x hx _ => ?_
    events := ?_
    consumerAge := fun p l hl => ?_ }
  · have hStatus := h.status x hx
    show Status (s.operandsReady x) (s.queued x) (Function.update s.issued r true x)
      (Function.update s.completed r true x)
    by_cases hxr : x = r
    · subst hxr
      simp only [update_self]
      exact ⟨fun h => absurd h (by simp [hQ]), fun _ => hReady, fun _ => rfl⟩
    · rwa [update_of_ne hxr, update_of_ne hxr]
  · show _ → _ → _ ∨ Function.update s.issued r true x = true
    by_cases hxr : x = r
    · subst hxr
      simp
    · rw [update_of_ne hxr]
      exact h.moves x hx (by simpa using Ne.symm hxr)
  · refine h.events.congr fun x => ?_
    show (live cfg s x && (Function.update s.issued r true x &&
      !Function.update s.completed r true x)) = eventDue cfg s x
    by_cases hxr : x = r
    · subst hxr
      simp [eventDue, hI]
    · simp [hxr, eventDue]
  · refine (h.consumerAge p l hl).trans_eq (congrArg _ (resolvedFrom_congr (fun b _ => ?_) _).symm)
    show ((s.stn b).recoverInst && Function.update s.completed r true b && _) = _
    by_cases hb : b = r
    · subst hb
      simp [hRec]
    · simp [hb]

/-- An operation starts. -/
theorem start (h : Wake cfg .late ⟨nodes, links, branch, some r⟩ s)
    (hr : r ∈ s.rob.prog cfg) (hReady : s.operandsReady r = true) (hQ : s.queued r = false)
    (hI : s.issued r = false) (hC : s.completed r = false) {when : Int} (hPast : s.simCycle < when)
    (hSoon : when < s.simCycle + 2 ^ 31) (id : Nat) (rest : List Nat) (busy : Nat → Nat)
    (accepts : List Accept) (caches : env.Caches) (loads : List LoadIssue) :
    Wake cfg .late ⟨nodes, links, branch, none⟩ (scheduled id rest r when { s with
      issued := Function.update s.issued r true
      busy := busy
      accepts := accepts
      caches := caches
      loads := loads }) := by
  have hPerm := insertEvent_perm (newLink id r when s) s.eventQueue
  have hDue : eventDue cfg s r = false := by simp [eventDue, hI]
  refine { h with
    status := fun x hx => ?_
    moves := fun x hx _ => ?_
    events := ?_
    eventAge := fun ev hev => ?_
    due := fun ev hev => ?_
    sorted := insertEvent_sorted h.sorted }
  · have hStatus := h.status x hx
    show Status (s.operandsReady x) (s.queued x) (Function.update s.issued r true x) (s.completed x)
    by_cases hxr : x = r
    · subst hxr
      rw [update_self]
      exact ⟨fun h => absurd h (by simp [hQ]), fun _ => hReady, fun _ => rfl⟩
    · rwa [update_of_ne hxr]
  · show _ → _ → _ ∨ Function.update s.issued r true x = true
    by_cases hxr : x = r
    · subst hxr
      simp
    · rw [update_of_ne hxr]
      exact h.moves x hx (by simpa using Ne.symm hxr)
  · have hIssue := h.events.issue (t := ticket (newLink id r when s)) (h.tag r) rfl hDue
    show Ledger _ s.gen _ (tickets (insertEvent (newLink id r when s) s.eventQueue))
    rw [tickets_perm hPerm, tickets_cons]
    refine hIssue.congr fun x => ?_
    show (live cfg s x && (Function.update s.issued r true x && !s.completed x)) =
      Function.update (eventDue cfg s) r true x
    by_cases hxr : x = r
    · subst hxr
      simp [live, hr, hC]
    · simp [hxr, eventDue]
  · rcases mem_cons.mp (hPerm.mem_iff.mp hev) with rfl | hev
    · show (s.gen r : Int) + when ≤ s.gen r + s.simCycle + 2 ^ 31 + (1 : Nat)
      omega
    · exact h.eventAge ev hev
  · rcases mem_cons.mp (hPerm.mem_iff.mp hev) with rfl | hev
    · exact ⟨hPast.le, .inr hPast⟩
    · exact h.due ev hev

/-! ### The clock -/

/-- The events of the cycle have been served. -/
theorem drain (h : Wake cfg .early {} s) (hDue : ∀ ev ∈ s.eventQueue, (s.simCycle : Int) < ev.x) :
    Wake cfg .middle {} s := by
  refine { h with
    queueAge := fun n hn => (h.queueAge n hn).trans ?_
    eventAge := fun ev hev => ?_
    due := fun ev hev => ⟨(hDue ev hev).le, .inr (hDue ev hev)⟩ }
  · exact Nat.add_le_add_left (Phase.nodeAge_le _ _) _
  · have hAge := h.eventAge ev hev
    have hOne := Phase.eventAge_le .early (live cfg s ev.rs)
    show _ ≤ (ev.gen : Int) + s.simCycle + 2 ^ 31 + (1 : Nat)
    omega

theorem tick (h : Wake cfg .late {} s) :
    Wake cfg .early {} { s with simCycle := s.simCycle + 1 } := by
  refine { h with
    queueAge := fun n hn => (h.queueAge n hn).trans (Nat.le_add_right _ _)
    eventAge := fun ev hev => ?_
    due := fun ev hev => ?_ }
  · have hAge : (s.gen ev.rs : Int) + ev.x ≤ ev.gen + s.simCycle + 2 ^ 31 + (1 : Nat) :=
      h.eventAge ev hev
    show (s.gen ev.rs : Int) + ev.x ≤ ev.gen + ((s.simCycle + 1 : Nat) : Int) + 2 ^ 31 + _
    omega
  · have hDue := (h.due ev hev).2.resolve_left (by simp)
    refine ⟨?_, .inl rfl⟩
    show ((s.simCycle + 1 : Nat) : Int) ≤ ev.x
    omega

/-! ### Dispatch -/

/-- The nodes and links of new entries. -/
theorem enter {E : List Ref} {names : Ref → Fin 3 → Nat} (h : Wake cfg ph {} s)
    (hPhase : ph ≠ .early) (hQ : QueueInv cfg s'.rob)
    (hLive : ∀ p, s.odepList p ≠ [] → p.1 ∈ s.rob.prog cfg) (hE : Entered cfg E names s s') :
    Wake cfg ph {} s' := by
  have hMem : ∀ r, r ∈ s'.rob.prog cfg ↔ r ∈ s.rob.prog cfg ∨ r ∈ E := fun r => by
    rw [hE.prog, mem_append]
  have hOld : ∀ r ∈ s.rob.prog cfg, r ∉ E := fun r hr hNew => hE.dead r hNew hr
  have hLive' : ∀ r, live cfg s' r = (live cfg s r || decide (r ∈ E)) := fun r => by
    simp [live, hMem, Bool.decide_or]
  have hDead : ∀ r ∈ E, live cfg s r = false := fun r hr => by simpa [live] using hE.dead r hr
  have hReady' : ∀ r ∉ E, s'.operandsReady r = s.operandsReady r := fun r hr => by
    simp [State.operandsReady, hE.idepReady, hr]
  have hNodeAge : ∀ b b', ph.nodeAge b = ph.nodeAge b' := fun b b' => by
    cases ph <;> first | exact absurd rfl hPhase | rfl
  have hEventAge : ∀ b b', ph.eventAge b = ph.eventAge b' := fun b b' => by
    cases ph <;> first | exact absurd rfl hPhase | rfl
  obtain ⟨nodes, hNodes, hNodeCur, hNodeCount⟩ := hE.nodes
  choose links hLinks hLinkCur hLinkCount using hE.lists
  -- the producer of a new link is older
  have hProducer : ∀ p, ∀ l ∈ links p, l.rs ≠ p.1 ∧ l.rs ∉ older (s'.rob.prog cfg) p.1 := by
    intro p l hl
    have hPos : 0 < (links p).countP fun l' => l'.rs = l.rs ∧ l'.x = l.x :=
      countP_pos_iff.mpr ⟨l, hl, by simp⟩
    rw [hLinkCount p l.rs (hLinkCur p l hl).1 l.x] at hPos
    have hSome : producer s' (older (s'.rob.prog cfg) l.rs) (names l.rs l.x) = some p := by
      by_contra hNot
      rw [if_neg hNot] at hPos
      exact absurd hPos (lt_irrefl 0)
    exact not_mem_older (mem_of_producer hSome).1
  refine ⟨fun r => ?_, fun r hr => ?_, fun r hr _ => ?_, fun r hr => ?_, fun r hr => ?_, ?_, ?_, ?_,
    fun p l hl => ?_, forall_mem_nil _, fun n hn => ?_, forall_mem_nil _, fun p l hl => ?_,
    fun ev hev => ?_, fun ev hev => ?_, ?_⟩
  · rw [hE.tag, hE.gen]
    exact h.tag r
  · rcases (hMem r).mp hr with hr | hr
    · rw [hReady' r (hOld r hr), hE.queued r (hOld r hr), hE.issued, hE.completed,
        if_neg (hOld r hr), if_neg (hOld r hr)]
      exact h.status r hr
    · rw [hE.ready r hr, hE.issued, hE.completed, if_pos hr, if_pos hr]
      refine ⟨fun hQueued => ?_, fun hI => ?_, fun hC => ?_⟩
      · exact ⟨(Bool.and_eq_true_iff.mp hQueued).1, rfl, rfl⟩
      · cases hI
      · cases hC
  · rcases (hMem r).mp hr with hr | hr
    · simp only [hReady' r (hOld r hr), hE.queued r (hOld r hr), hE.issued, if_neg (hOld r hr),
        awaitsRefresh, State.isStore, hE.stn r (hOld r hr)]
      exact h.moves r hr (by simp)
    · intro hReady hAwaits
      refine .inl ?_
      rw [hE.ready r hr, hReady, Bool.true_and]
      unfold awaitsRefresh at hAwaits
      revert hAwaits
      cases (s'.stn r).inLSQ <;> cases s'.isStore r <;> simp
  · rcases (hMem r).mp hr with hr | hr
    · rw [hE.stn r (hOld r hr)]
      exact h.branch r hr
    · exact hE.branch r hr
  · rcases (hMem r).mp hr with hr | hr
    · rw [hE.stn r (hOld r hr)]
      exact h.access r hr
    · exact hE.access r hr
  · have hIssue := h.ready.issueAll (N := tickets nodes)
      (n := fun r => decide (r ∈ E) && s'.queued r) (fun t ht => ?_) (fun t ht => ?_)
      (fun r => ?_) fun r hr => ?_
    · rw [hE.gen]
      show Ledger _ _ _ (tickets [] + tickets s'.readyQueue)
      rw [tickets_perm hNodes, tickets_append, tickets_nil, zero_add]
      rw [tickets_nil, zero_add] at hIssue
      refine hIssue.congr fun r => ?_
      simp only [readyDue, hLive']
      by_cases hr : r ∈ E
      · simp [hr, hDead r hr]
      · simp [hr, hE.queued r hr]
    · obtain ⟨l, hl, rfl⟩ := exists_of_mem_tickets ht
      obtain ⟨_, hTag, hGen⟩ := hNodeCur l hl
      show l.tag = BitVec.ofNat 32 l.gen
      rw [hTag, hGen, h.tag]
    · obtain ⟨l, hl, rfl⟩ := exists_of_mem_tickets ht
      exact (hNodeCur l hl).2.2
    · have hCount : (tickets nodes).countP (fun t => t.key = r) =
          nodes.countP fun l => decide (l.rs = r) := by
        rw [tickets, Multiset.coe_countP, countP_map]
        rfl
      rw [hCount]
      by_cases hr : r ∈ E
      · simp [hr, hNodeCount r hr]
      · simp only [hr, decide_false, Bool.false_and, Bool.false_eq_true, if_false]
        refine countP_eq_zero.mpr fun l hl => ?_
        have hRs := (hNodeCur l hl).1
        simpa using fun hEq : l.rs = r => hr (hEq ▸ hRs)
    · have hr : r ∈ E := by simpa using (Bool.and_eq_true_iff.mp hr).1
      simp [readyDue, hDead r hr]
  · rw [hE.eventQueue, hE.gen]
    refine h.events.congr fun r => ?_
    simp only [eventDue, hLive', hE.issued, hE.completed]
    by_cases hr : r ∈ E
    · simp [hr, hDead r hr]
    · simp [hr]
  · have hTickets : consumerTickets cfg s'.odepList =
        consumerTickets cfg links + consumerTickets cfg s.odepList := by
      unfold consumerTickets
      rw [← Pool.held_append]
      congr 1
      funext p
      rw [hLinks p, map_append]
    have hIssue := h.operands.issueAll (N := consumerTickets cfg links)
      (n := fun key => decide (key.1 ∈ E) &&
        (producer s' (older (s'.rob.prog cfg) key.1) (names key.1 key.2)).isSome)
      (fun t ht => ?_) (fun t ht => ?_) (fun key => ?_) fun key hKey => ?_
    · rw [operandTickets_nil, zero_add] at hIssue ⊢
      rw [hTickets, hE.gen]
      refine hIssue.congr fun key => ?_
      simp only [operandDue, hLive', hE.idepReady]
      by_cases hr : key.1 ∈ E
      · simp [hr, hDead _ hr]
      · simp [hr]
    · obtain ⟨p, _, hp⟩ := Pool.mem_held.mp ht
      obtain ⟨l, hl, rfl⟩ := mem_map.mp hp
      obtain ⟨_, hTag, hGen⟩ := hLinkCur p l hl
      show l.tag = BitVec.ofNat 32 l.gen
      rw [hTag, hGen, h.tag]
    · obtain ⟨p, _, hp⟩ := Pool.mem_held.mp ht
      obtain ⟨l, hl, rfl⟩ := mem_map.mp hp
      exact (hLinkCur p l hl).2.2
    · obtain ⟨r, x⟩ := key
      have hCount : (consumerTickets cfg links).countP (fun t => t.key = (r, x)) =
          ∑ p ∈ linkKeys cfg, (links p).countP fun l => decide (l.rs = r ∧ l.x = x) := by
        rw [consumerTickets, Pool.countP_held]
        refine Finset.sum_congr rfl fun p _ => ?_
        rw [countP_map]
        refine countP_congr fun l _ => ?_
        simp [operandTicket]
      rw [hCount]
      by_cases hr : r ∈ E
      · simp only [hLinkCount _ r hr x, hr, decide_true, Bool.true_and]
        cases hProd : producer s' (older (s'.rob.prog cfg) r) (names r x) with
        | none => simp
        | some p =>
          have hKey : p ∈ linkKeys cfg :=
            hQ.mem_linkKeys ((older_isStart _ _).subset (mem_of_producer hProd).1) p.2
          simp [hKey]
      · simp only [hr, decide_false, Bool.false_and, Bool.false_eq_true, if_false]
        refine Finset.sum_eq_zero fun p _ => countP_eq_zero.mpr fun l hl => ?_
        have hRs := (hLinkCur p l hl).1
        simpa using fun hEq : l.rs = r => absurd (hEq ▸ hRs) hr
    · have hr : key.1 ∈ E := by simpa using (Bool.and_eq_true_iff.mp hKey).1
      simp [operandDue, hDead _ hr]
  · rw [hLinks p] at hl
    rcases mem_append.mp hl with hl | hl
    · exact hProducer p l hl
    · rw [hE.prog, older_append_of_mem (hLive p (ne_nil_of_mem hl))]
      exact h.behind p l hl
  · rw [hE.gen]
    rcases mem_append.mp (hNodes.mem_iff.mp hn) with hn | hn
    · exact (hNodeCur n hn).2.2 ▸ Nat.le_add_right _ _
    · exact (h.queueAge n hn).trans_eq (congrArg _ (hNodeAge _ _))
  · rw [hLinks p] at hl
    rw [hE.gen]
    rcases mem_append.mp hl with hl | hl
    · exact (hLinkCur p l hl).2.2 ▸ Nat.le_add_right _ _
    · rw [hE.prog, resolvedFrom_append (hLive p (ne_nil_of_mem hl))]
      have hSame : resolvedFrom s' none (s.rob.prog cfg) p.1 =
          resolvedFrom s none (s.rob.prog cfg) p.1 :=
        resolvedFrom_congr (fun b hb => by
          rw [hE.stn b (hOld b hb), hE.completed, if_neg (hOld b hb)]) _
      have hAge : s.gen l.rs ≤ l.gen + resolvedFrom s none (s.rob.prog cfg) p.1 :=
        h.consumerAge p l hl
      show s.gen l.rs ≤ l.gen + (resolvedFrom s' none (s.rob.prog cfg) p.1 + _)
      omega
  · rw [hE.eventQueue] at hev
    rw [hE.gen, hE.simCycle, hEventAge _ (live cfg s ev.rs)]
    exact h.eventAge ev hev
  · rw [hE.eventQueue] at hev
    rw [hE.simCycle]
    exact h.due ev hev
  · rw [hE.eventQueue]
    exact h.sorted

end Wake

end SimpleScalar.Outorder

import SimpleScalar.Outorder.Recovery
import SimpleScalar.Lib.Rename

/-!
# The invariant of the pipeline

`Base` says what holds between the stages, in whatever order they run, and it does
not look at tags: a stale link whose tag matches by accident cannot break it.  It has
five parts, each about a few fields of the state.

* `QueueInv`: the two queues are in step.
* `SpecInv`: the simulator speculates exactly while one mis-predicted branch in the
  RUU has not completed; the branch is the youngest entry of the correct path.
* `HistInv`: what has been retired, followed by the correct-path entries of the RUU,
  is what has been dispatched on the correct path.
* `LinkInv`: every link record is in exactly one place.
* `NamesInv`: the create vectors name the youngest producers that have not completed,
  and only those have consumers.

In the middle of a stage some of this is suspended, and `Slack` says by how much:
`op` are the outputs of a completed station that have not been broadcast yet, `extra`
the outputs of stations that are not yet part of the queues, `loose` the links that
sit in a local of the stage, and `undone` the entries of the RUU that have not been
recorded as dispatched yet.
-/

namespace SimpleScalar.Outorder

variable {env : Env} {cfg : Config}

/-! ### Declared outputs -/

/-- The outputs station `r` declares, as entries of the create vector. -/
def declsOf (stn : Ref → Station env) (r : Ref) : List (Rename.Decl CVLink Nat) :=
  ([0, 1] : List (Fin 2)).filterMap fun i =>
    if (stn r).onames i = NA then none else some ⟨(r, i), (stn r).onames i, (stn r).specMode⟩

/-- The outputs the stations of a list declare, in program order. -/
def decls (stn : Ref → Station env) (P : List Ref) : List (Rename.Decl CVLink Nat) :=
  P.flatMap (declsOf stn)

section

variable {stn stn' : Ref → Station env} {P Q : List Ref} {d : Rename.Decl CVLink Nat}

theorem mem_declsOf {r : Ref} :
    d ∈ declsOf stn r ↔
      ∃ i, (stn r).onames i ≠ NA ∧ d = ⟨(r, i), (stn r).onames i, (stn r).specMode⟩ := by
  simp only [declsOf, List.mem_filterMap, List.mem_cons, List.not_mem_nil, or_false]
  constructor
  · rintro ⟨i, _, hi⟩
    split at hi
    · cases hi
    · exact ⟨i, ‹_›, (Option.some.inj hi).symm⟩
  · rintro ⟨i, hi, rfl⟩
    refine ⟨i, ?_, by rw [if_neg hi]⟩
    fin_cases i
    · exact .inl rfl
    · exact .inr rfl

theorem mem_decls :
    d ∈ decls stn P ↔
      ∃ r ∈ P, ∃ i, (stn r).onames i ≠ NA ∧ d = ⟨(r, i), (stn r).onames i, (stn r).specMode⟩ := by
  simp only [decls, List.mem_flatMap, mem_declsOf]

theorem decls_append : decls stn (P ++ Q) = decls stn P ++ decls stn Q := List.flatMap_append

theorem decls_congr
    (h : ∀ r ∈ P, (stn' r).onames = (stn r).onames ∧ (stn' r).specMode = (stn r).specMode) :
    decls stn' P = decls stn P := by
  refine List.flatMap_congr fun r hr => ?_
  obtain ⟨hNames, hSpec⟩ := h r hr
  simp only [declsOf, hNames, hSpec]

/-- A key is declared by the station it names. -/
theorem key_mem (h : d ∈ decls stn P) : d.key.1 ∈ P := by
  obtain ⟨r, hr, i, _, rfl⟩ := mem_decls.mp h
  exact hr

theorem spec_of_mem_decls (h : d ∈ decls stn P) : d.spec = (stn d.key.1).specMode := by
  obtain ⟨r, _, i, _, rfl⟩ := mem_decls.mp h
  rfl

theorem name_of_mem_decls (h : d ∈ decls stn P) : d.name = (stn d.key.1).onames d.key.2 := by
  obtain ⟨r, _, i, _, rfl⟩ := mem_decls.mp h
  rfl

end

/-! ### The parts -/

/-- A mis-predicted branch that has not completed. -/
def Unresolved (stn : Ref → Station env) (completed : Ref → Bool) (r : Ref) : Prop :=
  (stn r).recoverInst = true ∧ completed r = false

def SpecInv (cfg : Config) (q : Rob env) (specMode : Bool) (recoverPC : Word)
    (completed : Ref → Bool) : Prop :=
  if specMode = true then
    ∃ pre b post, q.ruu cfg = pre ++ b :: post ∧ (∀ r, Unresolved q.stn completed r ↔ r = b) ∧
      (q.stn b).nextPC = recoverPC ∧ (∀ r ∈ pre ++ [b], (q.stn r).specMode = false) ∧
      ∀ r ∈ post, (q.stn r).specMode = true
  else (∀ r, ¬ Unresolved q.stn completed r) ∧ ∀ r ∈ q.ruu cfg, (q.stn r).specMode = false

/-- The correct-path entries of the RUU. -/
def settledEntries (cfg : Config) (q : Rob env) : List Dispatch :=
  ((q.ruu cfg).filter fun r => !(q.stn r).specMode).map fun r => (q.stn r).dispatch

structure HistInv (cfg : Config) (q : Rob env) (retired dispatched : List Dispatch)
    (inums : Nat) : Prop where
  eq : retired ++ settledEntries cfg q = dispatched
  order : dispatched.Pairwise fun a b => a.inum < b.inum
  bound : ∀ d ∈ dispatched, d.inum < inums

/-- All outputs of all stations. -/
def linkKeys (cfg : Config) : Finset CVLink :=
  ((Finset.range cfg.ruuSize).image Ref.ruu ∪ (Finset.range cfg.lsqSize).image Ref.lsq) ×ˢ
    Finset.univ

/-- The link records are the free ones, those in the event queue, in the ready queue
and in the consumer lists, and the loose ones. -/
def LinkInv (cfg : Config) (free : List Nat) (events : List (RSLink Int))
    (ready : List (RSLink Word)) (odepList : CVLink → List (RSLink (Fin 3)))
    (loose : List Nat) : Prop :=
  (free : Multiset Nat) + (events.map RSLink.id : List Nat) + (ready.map RSLink.id : List Nat) +
    Pool.held (linkKeys cfg) (odepIds odepList) + (loose : Multiset Nat) =
      Multiset.range maxRsLinks

/-- The create vectors agree with the declarations `D`, and only pending ones have
consumers. -/
structure NamesInv (D : List (Rename.Decl CVLink Nat)) (done : CVLink → Bool)
    (odepList : CVLink → List (RSLink (Fin 3))) (createVector specCreateVector : Nat → Option CVLink)
    (useSpecCv : Nat → Bool) : Prop where
  exact : Rename.Exact done D createVector specCreateVector useSpecCv
  lists : ∀ p, odepList p ≠ [] → done p = false ∧ ∃ d ∈ D, d.key = p

/-- By how much the invariant is suspended. -/
structure Slack where
  op : CVLink → Bool := fun _ => false
  extra : List (Rename.Decl CVLink Nat) := []
  loose : List Nat := []
  undone : List Dispatch := []

/-- Has the output been broadcast? -/
def broadcastDone (completed : Ref → Bool) (op : CVLink → Bool) (p : CVLink) : Bool :=
  completed p.1 && !op p

structure Base (cfg : Config) (k : Slack) (s : State env) : Prop where
  queue : QueueInv cfg s.rob
  spec : SpecInv cfg s.rob s.specMode s.recoverPC s.completed
  hist : HistInv cfg s.rob s.retired (s.dispatched ++ k.undone) s.inums
  links : LinkInv cfg s.rslinkFreeList s.eventQueue s.readyQueue s.odepList k.loose
  names : NamesInv (decls s.stn (s.rob.prog cfg) ++ k.extra) (broadcastDone s.completed k.op)
    s.odepList s.createVector s.specCreateVector s.useSpecCv

/-- The checks whose absence `Base` does not explain: those about the schedule, which
rest on tags, and those about resources. -/
def Tolerated : Check → Prop
  | .eventCompleted | .alreadyQueued | .completedNotReady | .odepSatisfied | .issuedNotReady
  | .outOfRsLinks | .stdUnknownOverflow | .storeCreatesResult | .eventPast => True
  | _ => False

theorem Base.init (env : Env) (img : Image) : Base cfg {} (init env img) := by
  have hRuu : (Outorder.init env img).rob.ruu cfg = [] := rfl
  have hLsq : (Outorder.init env img).rob.lsq cfg = [] := rfl
  refine ⟨⟨cfg.ruu_pos, Nat.zero_le _, ?_, cfg.lsq_pos, Nat.zero_le _, ?_, ?_, fun _ => rfl,
    fun _ => rfl⟩, ?_, ⟨rfl, List.Pairwise.nil, by simp [Outorder.init]⟩, ?_, ?_⟩
  · exact (Nat.zero_mod _).symm
  · exact (Nat.zero_mod _).symm
  · rw [hRuu, hLsq]
    exact .nil
  · refine ⟨fun r h => ?_, by simp [hRuu]⟩
    cases h.1
  · simp only [LinkInv, Outorder.init, Multiset.coe_reverse, List.map_nil, Multiset.coe_nil,
      add_zero]
    have hNone : Pool.held (linkKeys cfg) (odepIds fun _ => []) = 0 :=
      Pool.held_eq_zero fun _ _ => rfl
    rw [hNone, add_zero]
    rfl
  · refine ⟨Rename.Exact.nil, fun p hp => absurd rfl hp⟩

/-! ### Links move -/

theorem insertEvent_perm (ev : RSLink Int) (q : List (RSLink Int)) :
    (insertEvent ev q).Perm (ev :: q) := by
  refine List.perm_middle.trans (List.Perm.cons ev ?_)
  rw [List.takeWhile_append_dropWhile]

theorem insertReady_perm (first : Bool) (node : RSLink Word) (q : List (RSLink Word)) :
    (insertReady first node q).Perm (node :: q) := by
  unfold insertReady
  split
  · exact List.Perm.refl _
  · refine List.perm_middle.trans (List.Perm.cons node ?_)
    rw [List.takeWhile_append_dropWhile]

namespace LinkInv

variable {free loose : List Nat} {events : List (RSLink Int)} {ready : List (RSLink Word)}
  {odepList : CVLink → List (RSLink (Fin 3))} {id : Nat}

theorem enqueue {first : Bool} {node : RSLink Word}
    (h : LinkInv cfg (node.id :: free) events ready odepList loose) :
    LinkInv cfg free events (insertReady first node ready) odepList loose := by
  have hPerm := Multiset.coe_eq_coe.mpr ((insertReady_perm first node ready).map RSLink.id)
  unfold LinkInv at h ⊢
  rw [hPerm, ← h, List.map_cons, ← Multiset.cons_coe, ← Multiset.cons_coe]
  simp only [Multiset.cons_add, Multiset.add_cons]

theorem schedule {ev : RSLink Int} (h : LinkInv cfg (ev.id :: free) events ready odepList loose) :
    LinkInv cfg free (insertEvent ev events) ready odepList loose := by
  have hPerm := Multiset.coe_eq_coe.mpr ((insertEvent_perm ev events).map RSLink.id)
  unfold LinkInv at h ⊢
  rw [hPerm, ← h, List.map_cons, ← Multiset.cons_coe, ← Multiset.cons_coe]
  simp only [Multiset.cons_add, Multiset.add_cons]

theorem link {l : RSLink (Fin 3)} {p : CVLink} (hp : p ∈ linkKeys cfg)
    (h : LinkInv cfg (l.id :: free) events ready odepList loose) :
    LinkInv cfg free events ready (Function.update odepList p (l :: odepList p)) loose := by
  unfold LinkInv at h ⊢
  have hHeld := Pool.held_update_cons (linkKeys cfg) (odepIds odepList) hp l.id
  rw [odepIds_update, List.map_cons]
  rw [show (odepList p).map RSLink.id = odepIds odepList p from rfl, hHeld, ← h,
    ← Multiset.cons_coe]
  simp only [Multiset.cons_add, Multiset.add_cons]

theorem pop {ev : RSLink Int} (h : LinkInv cfg free (ev :: events) ready odepList loose) :
    LinkInv cfg (ev.id :: free) events ready odepList loose := by
  unfold LinkInv at h ⊢
  rw [← h, List.map_cons, ← Multiset.cons_coe, ← Multiset.cons_coe]
  simp only [Multiset.cons_add, Multiset.add_cons]

theorem release (h : LinkInv cfg free events ready odepList (id :: loose)) :
    LinkInv cfg (id :: free) events ready odepList loose := by
  unfold LinkInv at h ⊢
  rw [← h, ← Multiset.cons_coe, ← Multiset.cons_coe]
  simp only [Multiset.cons_add, Multiset.add_cons]

theorem takeList {p : CVLink} (hp : p ∈ linkKeys cfg)
    (h : LinkInv cfg free events ready odepList []) :
    LinkInv cfg free events ready (Function.update odepList p [])
      ((odepList p).map RSLink.id) := by
  unfold LinkInv at h ⊢
  have hHeld := Pool.held_update_nil (linkKeys cfg) (odepIds odepList) hp
  rw [odepIds_update, List.map_nil, add_assoc,
    show ((odepList p).map RSLink.id : List Nat) = odepIds odepList p from rfl, hHeld, ← h,
    Multiset.coe_nil, add_zero]

theorem takeQueue (h : LinkInv cfg free events ready odepList []) :
    LinkInv cfg free events [] odepList (ready.map RSLink.id) := by
  unfold LinkInv at h ⊢
  rw [← h, List.map_nil, Multiset.coe_nil]
  abel

theorem squash {free' : List Nat} {D : List Ref} (h : LinkInv cfg free events ready odepList loose)
    (hSame : (free' : Multiset Nat) + Pool.held (linkKeys cfg) (odepIds (dropLists D odepList)) =
      free + Pool.held (linkKeys cfg) (odepIds odepList)) :
    LinkInv cfg free' events ready (dropLists D odepList) loose := by
  unfold LinkInv at h ⊢
  calc (free' : Multiset Nat) + (events.map RSLink.id : List Nat) + (ready.map RSLink.id : List Nat) +
        Pool.held (linkKeys cfg) (odepIds (dropLists D odepList)) + (loose : Multiset Nat)
      = ((free' : Multiset Nat) + Pool.held (linkKeys cfg) (odepIds (dropLists D odepList))) +
          (events.map RSLink.id : List Nat) + (ready.map RSLink.id : List Nat) + loose := by abel
    _ = Multiset.range maxRsLinks := by
        rw [hSame, ← h]
        abel

end LinkInv

theorem mem_linkKeys_ruu {i : Nat} {j : Fin 2} (h : i < cfg.ruuSize) :
    (Ref.ruu i, j) ∈ linkKeys cfg := by
  simp [linkKeys, h]

theorem mem_linkKeys_lsq {i : Nat} {j : Fin 2} (h : i < cfg.lsqSize) :
    (Ref.lsq i, j) ∈ linkKeys cfg := by
  simp [linkKeys, h]

/-- The live entries are stations of the arrays. -/
theorem QueueInv.mem_linkKeys {q : Rob env} (h : QueueInv cfg q) {r : Ref} (hr : r ∈ q.prog cfg)
    (j : Fin 2) : (r, j) ∈ linkKeys cfg := by
  rcases h.mem_prog.mp hr with hr | hr
  · obtain ⟨i, hi, rfl⟩ := List.mem_map.mp hr
    exact mem_linkKeys_ruu (CircularQueue.lt_of_mem_slots cfg.ruu_pos hi)
  · obtain ⟨i, hi, rfl⟩ := List.mem_map.mp hr
    exact mem_linkKeys_lsq (CircularQueue.lt_of_mem_slots cfg.lsq_pos hi)

end SimpleScalar.Outorder

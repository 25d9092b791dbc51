import SimpleScalar.Outorder.Backend
import SimpleScalar.Outorder.FrontRules

/-!
# Allocation keeps the invariant

`ruu_dispatch` allocates in a few moves: it overwrites a station that is not live, links
its operands, installs its outputs in the create vector and moves the tails.  Each move
is a lemma about `Base`, with the `Slack` that says what is still missing.

* `alloc_base`: after allocation only the record of the new instruction is missing.
-/

namespace SimpleScalar.Outorder

open List Outcome
open Function (update_eq_self update_idem update_of_ne update_self)

variable {env : Env} {cfg : Config} {k : Slack} {s s' : State env} {A : Check → Prop} {rs : Ref}
  {on : Fin 2 → Nat}

/-! ### Overwriting a station -/

variable {r : Ref}

variable {specMode : Bool} {recoverPC : Word} {completed : Ref → Bool}

theorem SpecInv.fill {q : Rob env}
    (h : SpecInv cfg q specMode recoverPC completed) (hr : r ∉ q.ruu cfg)
    {st : Station env} (hRec : st.recoverInst = false) :
    SpecInv cfg { q with stn := Function.update q.stn r st } specMode recoverPC
      (Function.update completed r false) := by
  have hOther : ∀ x, x ≠ r → (Unresolved (Function.update q.stn r st)
      (Function.update completed r false) x ↔ Unresolved q.stn completed x) := by
    intro x hx
    unfold Unresolved
    rw [update_of_ne hx, update_of_ne hx]
  have hSelf : ¬ Unresolved (Function.update q.stn r st) (Function.update completed r false) r := by
    rintro ⟨hRec', _⟩
    rw [update_self, hRec] at hRec'
    cases hRec'
  have hStn : ∀ x ∈ q.ruu cfg, Function.update q.stn r st x = q.stn x := by
    intro x hx
    refine update_of_ne ?_ ..
    rintro rfl
    exact hr hx
  unfold SpecInv at h ⊢
  split at h
  · rename_i hOn
    rw [if_pos hOn]
    obtain ⟨pre, b, post, hRuu, hb, hPC, hPre, hPost⟩ := h
    have hMem : ∀ x, x ∈ pre ++ [b] ∨ x ∈ post → x ∈ q.ruu cfg := by
      intro x hx
      rw [hRuu, append_cons]
      exact mem_append.mpr hx
    have hbr : b ≠ r := by
      rintro rfl
      exact hr (hMem b (.inl (by simp)))
    refine ⟨pre, b, post, hRuu, fun x => ?_, ?_, fun x hx => ?_, fun x hx => ?_⟩
    · by_cases hx : x = r
      · subst hx
        exact ⟨fun h => absurd h hSelf, fun h => absurd h (Ne.symm hbr)⟩
      · exact (hOther x hx).trans (hb x)
    · show (Function.update q.stn r st b).nextPC = recoverPC
      rw [hStn b (hMem b (.inl (by simp))), hPC]
    · show (Function.update q.stn r st x).specMode = false
      rw [hStn x (hMem x (.inl hx)), hPre x hx]
    · show (Function.update q.stn r st x).specMode = true
      rw [hStn x (hMem x (.inr hx)), hPost x hx]
  · rename_i hOff
    rw [if_neg hOff]
    refine ⟨fun x hx => ?_, fun x hx => ?_⟩
    · by_cases hxr : x = r
      · subst hxr
        exact hSelf hx
      · exact h.1 x ((hOther x hxr).mp hx)
    · show (Function.update q.stn r st x).specMode = false
      rw [hStn x hx, h.2 x hx]

/-- A station that is not live may be overwritten. -/
theorem Base.overwrite (h : Base cfg k s) (hr : r ∉ s.rob.prog cfg) {st : Station env}
    (hRec : st.recoverInst = false) (hIn : ∀ i, r = .ruu i → st.inLSQ = false)
    (hExtra : ∀ d ∈ k.extra, d.key.1 = r → s.completed r = false) :
    Base cfg k { s with
      stn := Function.update s.stn r st
      completed := Function.update s.completed r false } ∧
    Rob.prog { s.rob with stn := Function.update s.stn r st } cfg = s.rob.prog cfg := by
  have hStn : ∀ x ∈ s.rob.prog cfg, Function.update s.stn r st x = s.stn x := by
    intro x hx
    refine update_of_ne ?_ ..
    rintro rfl
    exact hr hx
  have hRuu : r ∉ s.rob.ruu cfg := fun hMem => hr (h.queue.mem_prog.mpr (.inl hMem))
  obtain ⟨hQ, hProg⟩ := @QueueInv.setStn env cfg s.rob h.queue (Function.update s.stn r st)
    (fun x hx => by rw [hStn x hx]; rfl)
    (fun i => by
      by_cases hi : Ref.ruu i = r
      · subst hi
        rw [update_self]
        exact hIn i rfl
      · rw [update_of_ne hi]
        exact h.queue.ruu_inLSQ i)
    (fun i => by
      by_cases hi : Ref.lsq i = r
      · subst hi
        rw [update_self]
        exact hRec
      · rw [update_of_ne hi]
        exact h.queue.lsq_recoverInst i)
  have hDecls : decls (Function.update s.stn r st) (s.rob.prog cfg) =
      decls s.stn (s.rob.prog cfg) := by
    refine decls_congr fun x hx => ?_
    rw [hStn x hx]
    exact ⟨rfl, rfl⟩
  have hDone : ∀ d ∈ decls s.stn (s.rob.prog cfg) ++ k.extra,
      broadcastDone (Function.update s.completed r false) k.op d.key =
        broadcastDone s.completed k.op d.key := by
    intro d hd
    by_cases hk : d.key.1 = r
    · rcases mem_append.mp hd with hd | hd
      · have hMem := key_mem hd
        rw [hk] at hMem
        exact absurd hMem hr
      · simp [broadcastDone, hk, hExtra d hd hk]
    · simp [broadcastDone, hk]
  have hSettled : settledEntries cfg { s.rob with stn := Function.update s.stn r st } =
      settledEntries cfg s.rob := by
    have hEq : ∀ x ∈ s.rob.ruu cfg, Function.update s.stn r st x = s.stn x := fun x hx =>
      hStn x (h.queue.mem_prog.mpr (.inl hx))
    unfold settledEntries
    show ((s.rob.ruu cfg).filter fun x => !(Function.update s.stn r st x).specMode).map
      (fun x => (Function.update s.stn r st x).dispatch) = _
    rw [filter_congr (q := fun x => !(s.stn x).specMode) fun x hx => by rw [hEq x hx]]
    exact map_congr_left fun x hx => by rw [hEq x (mem_filter.mp hx).1]; rfl
  refine ⟨⟨hQ, h.spec.fill hRuu hRec, ⟨?_, h.hist.order, h.hist.bound⟩, h.links, ?_⟩, hProg⟩
  · exact (congrArg (s.retired ++ ·) hSettled).trans h.hist.eq
  · show NamesInv (decls (Function.update s.stn r st)
      (Rob.prog { s.rob with stn := Function.update s.stn r st } cfg) ++ k.extra) _ _ _ _ _
    rw [hProg, hDecls]
    refine ⟨h.names.exact.congr hDone, fun p hp => ?_⟩
    obtain ⟨hNot, d, hd, rfl⟩ := h.names.lists p hp
    exact ⟨(hDone d hd).trans hNot, d, hd, rfl⟩

theorem Base.fill (h : Base cfg {} s) (hr : r ∉ s.rob.prog cfg) {st : Station env}
    (hRec : st.recoverInst = false) (hIn : ∀ i, r = .ruu i → st.inLSQ = false) :
    Base cfg {} (fill r st s) ∧ (fill r st s).rob.prog cfg = s.rob.prog cfg := by
  obtain ⟨hBase, hProg⟩ := h.overwrite hr hRec hIn (by simp)
  exact ⟨{ hBase with }, hProg⟩

/-! ### Linking -/

theorem Base.operandLinked (h : Base cfg k s) (hKeys : ∀ d ∈ k.extra, d.key ∈ linkKeys cfg)
    {id name : Nat} {rest : List Nat} {head : CVLink} (rs : Ref) (j : Fin 3)
    (hHead : s.createVectorAt name = some head) (hFree : s.rslinkFreeList = id :: rest) :
    Base cfg k (operandLinked id rest head rs j s) := by
  have hRead : s.createVectorAt name = _ := h.names.exact.read name
  obtain ⟨d, hd, hdKey, _, hNot⟩ := Rename.mem_of_lookup (hRead.symm.trans hHead)
  have hMem : head ∈ linkKeys cfg := by
    rcases mem_append.mp hd with hd | hd
    · rw [← hdKey]
      exact h.queue.mem_linkKeys (key_mem hd) _
    · rw [← hdKey]
      exact hKeys d hd
  have hLinks := h.links
  rw [hFree] at hLinks
  refine ⟨h.queue, h.spec, h.hist, LinkInv.link hMem hLinks, h.names.exact, fun p hp => ?_⟩
  by_cases hpHead : p = head
  · rw [hpHead]
    exact ⟨hNot, d, hd, hdKey⟩
  · refine h.names.lists p ?_
    change Function.update s.odepList head _ p ≠ [] at hp
    rwa [update_of_ne hpHead] at hp

/-- Linking an operand changes the operand flags and the consumer lists. -/
def OperandFrame (s s' : State env) : Prop :=
  ∃ i f o, s' = { s with idepReady := i, rslinkFreeList := f, odepList := o }

variable {s₁ s₂ : State env}

theorem OperandFrame.trans (h₁ : OperandFrame s s₁)
    (h₂ : OperandFrame s₁ s₂) : OperandFrame s s₂ := by
  obtain ⟨i, f, o, rfl⟩ := h₁
  obtain ⟨i', f', o', rfl⟩ := h₂
  exact ⟨i', f', o', rfl⟩

/-- The output that an operand with this name waits for. -/
def State.producerOf (s : State env) (name : Nat) : Option CVLink :=
  if name = NA then none else s.createVectorAt name

/-- The operands `ks` of station `rs` have been linked, the first one of the list last. -/
structure Linked (rs : Ref) (names : Fin 3 → Nat) (ks : List (Fin 3)) (s s' : State env) :
    Prop where
  ready : ∀ k ∈ ks, s'.idepReady (rs, k) = (s.producerOf (names k)).isNone
  other : ∀ r k, (r = rs → k ∉ ks) → s'.idepReady (r, k) = s.idepReady (r, k)
  lists : ∀ q, ∃ new, s'.odepList q = new ++ s.odepList q ∧
    (∀ l ∈ new, l.rs = rs ∧ l.tag = s.tag rs ∧ l.gen = s.gen rs) ∧
    new.map RSLink.x = ks.filter fun k => s.producerOf (names k) = some q

theorem Linked.nil (rs : Ref) (names : Fin 3 → Nat) (s : State env) : Linked rs names [] s s :=
  ⟨by simp, fun _ _ _ => rfl, fun q => ⟨[], rfl, by simp, rfl⟩⟩

theorem OperandFrame.producerOf (h : OperandFrame s s') (name : Nat) :
    s'.producerOf name = s.producerOf name := by
  obtain ⟨i, f, o, rfl⟩ := h
  rfl

variable {names : Fin 3 → Nat} {ks : List (Fin 3)}

/-- One more operand, without a producer. -/
theorem Linked.ready_cons (h : Linked rs names ks s s') {k : Fin 3}
    (hNone : s.producerOf (names k) = none) :
    Linked rs names (k :: ks) s (operandReady rs k s') := by
  refine ⟨fun j hj => ?_, fun r j hj => ?_, fun q => ?_⟩
  · show Function.update s'.idepReady (rs, k) true (rs, j) = _
    by_cases hjk : j = k
    · rw [hjk, update_self, hNone]
      rfl
    · rw [update_of_ne (by simp [hjk])]
      exact h.ready j ((mem_cons.mp hj).resolve_left hjk)
  · show Function.update s'.idepReady (rs, k) true (r, j) = _
    rw [update_of_ne]
    · exact h.other r j fun hr hMem => hj hr (mem_cons_of_mem _ hMem)
    · rintro ⟨⟩
      exact hj rfl (mem_cons_self ..)
  · obtain ⟨new, hNew, hCur, hMap⟩ := h.lists q
    refine ⟨new, hNew, hCur, ?_⟩
    rw [filter_cons_of_neg (by simp [hNone]), hMap]

/-- One more operand, with a producer. -/
theorem Linked.link_cons (h : Linked rs names ks s s') (hFrame : OperandFrame s s') {k : Fin 3}
    {head : CVLink} (hSome : s.producerOf (names k) = some head) (id : Nat) (rest : List Nat) :
    Linked rs names (k :: ks) s (operandLinked id rest head rs k s') := by
  refine ⟨fun j hj => ?_, fun r j hj => ?_, fun q => ?_⟩
  · show Function.update s'.idepReady (rs, k) false (rs, j) = _
    by_cases hjk : j = k
    · rw [hjk, update_self, hSome]
      rfl
    · rw [update_of_ne (by simp [hjk])]
      exact h.ready j ((mem_cons.mp hj).resolve_left hjk)
  · show Function.update s'.idepReady (rs, k) false (r, j) = _
    rw [update_of_ne]
    · exact h.other r j fun hr hMem => hj hr (mem_cons_of_mem _ hMem)
    · rintro ⟨⟩
      exact hj rfl (mem_cons_self ..)
  · obtain ⟨new, hNew, hCur, hMap⟩ := h.lists q
    show ∃ new, Function.update s'.odepList head _ q = _ ∧ _
    by_cases hq : q = head
    · subst hq
      rw [update_self, filter_cons_of_pos (by simp [hSome])]
      refine ⟨newLink id rs k s' :: new, by rw [hNew]; rfl, fun l hl => ?_, by
        rw [map_cons, hMap]; rfl⟩
      rcases mem_cons.mp hl with rfl | hl
      · obtain ⟨_, _, _, rfl⟩ := hFrame
        exact ⟨rfl, rfl, rfl⟩
      · exact hCur l hl
    · rw [update_of_ne hq, filter_cons_of_neg (by simp [hSome, Ne.symm hq])]
      exact ⟨new, hNew, hCur, hMap⟩

theorem ruuLinkIdep_base {s₁ : State env} (hOut : A .outOfRsLinks) (h : Base cfg k s₁)
    (hKeys : ∀ d ∈ k.extra, d.key ∈ linkKeys cfg)
    (hFrame : OperandFrame s s₁) (hLinked : Linked rs names ks s s₁)
    (j : Fin 3) :
    Keeps A (ruuLinkIdep rs j (names j) s₁) fun s' =>
      Base cfg k s' ∧ OperandFrame s s' ∧ Linked rs names (j :: ks) s s' := by
  have hProducer := hFrame.producerOf (names j)
  refine ruuLinkIdep_keeps (fun hNone => ?_) (fun id rest head hNA _ hHead hFree => ?_)
    fun _ => hOut
  · refine ⟨{ h with }, hFrame.trans ⟨_, _, _, rfl⟩,
      hLinked.ready_cons ?_⟩
    rw [← hProducer, State.producerOf]
    rcases hNone with hNA | ⟨_, hNone⟩
    · exact if_pos hNA
    · rw [hNone, ite_self]
  · refine ⟨h.operandLinked hKeys rs j hHead hFree, hFrame.trans ⟨_, _, _, rfl⟩,
      hLinked.link_cons hFrame ?_ id rest⟩
    rw [← hProducer, State.producerOf, if_neg hNA, hHead]

/-- Installing an output changes its name and the create vectors. -/
def OutputFrame (rs : Ref) (on : Fin 2 → Nat) (s s' : State env) : Prop :=
  ∃ u c d, s' = { s with
    stn := Function.update s.stn rs { s.stn rs with onames := on }
    useSpecCv := u, createVector := c, specCreateVector := d }

theorem installed_eq (rs : Ref) (i : Fin 2) (name : Nat) (s : State env) :
    installed rs i name s = { s with
      stn := Function.update s.stn rs
        { s.stn rs with onames := Function.update (s.stn rs).onames i name }
      odepList := Function.update s.odepList (rs, i) []
      useSpecCv := if s.specMode = true then Function.update s.useSpecCv name true else s.useSpecCv
      createVector := if s.specMode = true then s.createVector
        else Function.update s.createVector name (some (rs, i))
      specCreateVector := if s.specMode = true then
        Function.update s.specCreateVector name (some (rs, i)) else s.specCreateVector } := by
  unfold installed setCreateVector setOname
  cases s.specMode <;> rfl

/-- On the correct path everything in the queues is on the correct path. -/
theorem Base.settled (h : Base cfg k s) (hSpec : s.specMode = false) :
    ∀ d ∈ decls s.stn (s.rob.prog cfg), d.spec = false := by
  obtain ⟨P₁, P₂, hP, h₁, _, hNil⟩ := h.spec.split h.queue
  rw [hNil hSpec, append_nil] at hP
  intro d hd
  have hMem := key_mem hd
  rw [hP] at hMem
  rw [spec_of_mem_decls hd]
  exact h₁ _ hMem

/-- A new station, not yet in the queues. -/
structure IsFresh (cfg : Config) (rs : Ref) (s : State env) : Prop where
  dead : rs ∉ s.rob.prog cfg
  keys : ∀ i, (rs, i) ∈ linkKeys cfg
  completed : s.completed rs = false
  recoverInst : (s.stn rs).recoverInst = false
  inLSQ : ∀ i, rs = .ruu i → (s.stn rs).inLSQ = false
  specMode : (s.stn rs).specMode = s.specMode

theorem Base.setOname (h : Base cfg k s) (hr : IsFresh cfg rs s) (on : Fin 2 → Nat) :
    Base cfg k { s with stn := Function.update s.stn rs { s.stn rs with onames := on } } ∧
    Rob.prog { s.rob with stn := Function.update s.stn rs { s.stn rs with onames := on } } cfg =
      s.rob.prog cfg := by
  obtain ⟨hBase, hProg⟩ := @Base.overwrite env cfg k s rs h hr.dead { s.stn rs with onames := on }
    hr.recoverInst hr.inLSQ fun _ _ _ => hr.completed
  have hSame : Function.update s.completed rs false = s.completed := by
    rw [← hr.completed]
    exact update_eq_self ..
  rw [hSame] at hBase
  exact ⟨hBase, hProg⟩

variable {E : List (Rename.Decl CVLink Nat)}

/-- A new station has no consumers. -/
theorem Base.update_odepList
    (h : Base cfg ⟨fun _ => false, E, [], []⟩ s) (hr : IsFresh cfg rs s) (i : Fin 2)
    (hNew : ∀ d ∈ E, d.key ≠ (rs, i)) : Function.update s.odepList (rs, i) [] = s.odepList := by
  have hList : s.odepList (rs, i) = [] := by
    by_contra hList
    obtain ⟨_, d, hd, hk⟩ := h.names.lists _ hList
    rcases mem_append.mp hd with hd | hd
    · have hMem := key_mem hd
      rw [hk] at hMem
      exact hr.dead hMem
    · exact hNew d hd hk
  rw [← hList]
  exact update_eq_self ..

theorem Base.install (h : Base cfg ⟨fun _ => false, E, [], []⟩ s)
    (hr : IsFresh cfg rs s) (i : Fin 2) (hNew : ∀ d ∈ E, d.key ≠ (rs, i))
    (hSpecE : ∀ d ∈ E, d.spec = s.specMode) (name : Nat) :
    Base cfg ⟨fun _ => false, E ++ [⟨(rs, i), name, s.specMode⟩], [], []⟩
      (installed rs i name s) := by
  obtain ⟨hBase, hProg⟩ := h.setOname hr (Function.update (s.stn rs).onames i name)
  have hDone : broadcastDone s.completed (fun _ => false) (rs, i) = false := by
    simp [broadcastDone, hr.completed]
  have hNames := hBase.names
  rw [installed_eq, h.update_odepList hr i hNew]
  refine ⟨hBase.queue, hBase.spec, hBase.hist, hBase.links, ?_, fun p hp => ?_⟩
  · show Rename.Exact _ (_ ++ (E ++ [_])) _ _ _
    rw [← append_assoc]
    cases hSpec : s.specMode with
    | true => exact hNames.exact.declareSpec rfl hDone
    | false =>
      refine hNames.exact.declare rfl hDone fun d hd => ?_
      rcases mem_append.mp hd with hd | hd
      · exact hBase.settled hSpec d hd
      · rw [hSpecE d hd, hSpec]
  · obtain ⟨hNot, d, hd, hk⟩ := hNames.lists p hp
    refine ⟨hNot, d, ?_, hk⟩
    show d ∈ _ ++ (E ++ [_])
    rw [← append_assoc]
    exact mem_append_left _ hd

theorem IsFresh.setOnames (hr : IsFresh cfg rs s)
    (hProg : Rob.prog { s.rob with
      stn := Function.update s.stn rs { s.stn rs with onames := on } } cfg = s.rob.prog cfg)
    (hFrame : OutputFrame rs on s s') : IsFresh cfg rs s' := by
  obtain ⟨u, c, d, rfl⟩ := hFrame
  refine ⟨?_, hr.keys, hr.completed, ?_, ?_, ?_⟩
  · show rs ∉ Rob.prog { s.rob with
      stn := Function.update s.stn rs { s.stn rs with onames := on } } cfg
    rw [hProg]
    exact hr.dead
  · show (Function.update s.stn rs _ rs).recoverInst = false
    rw [update_self]
    exact hr.recoverInst
  · intro i hi
    show (Function.update s.stn rs _ rs).inLSQ = false
    rw [update_self]
    exact hr.inLSQ i hi
  · show (Function.update s.stn rs _ rs).specMode = s.specMode
    rw [update_self]
    exact hr.specMode

/-- The declaration of one output. -/
def declOf (rs : Ref) (spec : Bool) (i : Fin 2) (name : Nat) : List (Rename.Decl CVLink Nat) :=
  if name = NA then [] else [⟨(rs, i), name, spec⟩]

theorem ruuInstallOdep_base
    (h : Base cfg ⟨fun _ => false, E, [], []⟩ s) (hr : IsFresh cfg rs s) (i : Fin 2)
    (hNew : ∀ d ∈ E, d.key ≠ (rs, i)) (hSpecE : ∀ d ∈ E, d.spec = s.specMode) (name : Nat) :
    Keeps A (ruuInstallOdep rs i name s) fun s' =>
      Base cfg ⟨fun _ => false, E ++ declOf rs s.specMode i name, [], []⟩ s' ∧ IsFresh cfg rs s' ∧
        OutputFrame rs (Function.update (s.stn rs).onames i name) s s' := by
  obtain ⟨hBase, hProg⟩ := h.setOname hr (Function.update (s.stn rs).onames i name)
  refine ruuInstallOdep_keeps (fun hNA => ?_) fun hNA _ => ?_
  · subst hNA
    have hFrame : OutputFrame rs (Function.update (s.stn rs).onames i NA) s (setOname rs i NA s) :=
      ⟨_, _, _, rfl⟩
    refine ⟨?_, hr.setOnames hProg hFrame, hFrame⟩
    rw [declOf, if_pos rfl, append_nil]
    exact hBase
  · have hFrame : OutputFrame rs (Function.update (s.stn rs).onames i name) s
        (installed rs i name s) := by
      rw [installed_eq, h.update_odepList hr i hNew]
      exact ⟨_, _, _, rfl⟩
    refine ⟨?_, hr.setOnames hProg hFrame, hFrame⟩
    rw [declOf, if_neg hNA]
    exact h.install hr i hNew hSpecE name

def outputNames (o₁ o₂ : Nat) : Fin 2 → Nat
  | 0 => o₁
  | 1 => o₂

theorem outputNames_eq (on : Fin 2 → Nat) (o₁ o₂ : Nat) :
    Function.update (Function.update on 0 o₁) 1 o₂ = outputNames o₁ o₂ := by
  funext i
  fin_cases i <;> simp [outputNames]

theorem declsOf_eq {stn : Ref → Station env} {o₁ o₂ : Nat}
    (h : (stn rs).onames = outputNames o₁ o₂) :
    declsOf stn rs = declOf rs (stn rs).specMode 0 o₁ ++ declOf rs (stn rs).specMode 1 o₂ := by
  simp only [declsOf, declOf, h, outputNames, filterMap_cons, filterMap_nil]
  by_cases h₁ : o₁ = NA <;> by_cases h₂ : o₂ = NA <;> simp [h₁, h₂]

/-- Linking a station changes its own record and the structures that hold links. -/
def LinkFrame (rs : Ref) (on : Fin 2 → Nat) (s s' : State env) : Prop :=
  ∃ i f o u c d, s' = { s with
    idepReady := i, rslinkFreeList := f
    stn := Function.update s.stn rs { s.stn rs with onames := on }
    odepList := o, useSpecCv := u, createVector := c, specCreateVector := d }

theorem OutputFrame.trans {on on' : Fin 2 → Nat}
    (h₁ : OutputFrame rs on s s₁) (h₂ : OutputFrame rs on' s₁ s₂) : OutputFrame rs on' s s₂ := by
  obtain ⟨u, c, d, rfl⟩ := h₁
  obtain ⟨u', c', d', rfl⟩ := h₂
  exact ⟨u', c', d', by simp only [update_self, update_idem]⟩

theorem OutputFrame.link
    (h₁ : OperandFrame s s₁) (h₂ : OutputFrame rs on s₁ s₂) : LinkFrame rs on s s₂ := by
  obtain ⟨i, f, o, rfl⟩ := h₁
  obtain ⟨u, c, d, rfl⟩ := h₂
  exact ⟨i, f, o, u, c, d, rfl⟩

theorem Linked.install (h : Linked rs names ks s s₁) (hFrame : OutputFrame rs on s₁ s₂) :
    Linked rs names ks s s₂ := by
  obtain ⟨u, c, d, rfl⟩ := hFrame
  exact ⟨h.ready, h.other, h.lists⟩

theorem IsFresh.operand (hr : IsFresh cfg rs s)
    (hFrame : OperandFrame s s') : IsFresh cfg rs s' := by
  obtain ⟨i, f, o, rfl⟩ := hFrame
  exact { hr with }

theorem LinkFrame.prog (cfg : Config)
    (h : LinkFrame rs on s s') : s'.rob.prog cfg = s.rob.prog cfg := by
  obtain ⟨i, f, o, u, c, d, rfl⟩ := h
  refine weave_congr (fun r _ => ?_) _
  show (Function.update s.stn rs _ r).eaComp = (s.stn r).eaComp
  by_cases hr : r = rs
  · subst hr
    rw [update_self]
  · rw [update_of_ne hr]

theorem LinkFrame.self (h : LinkFrame rs on s s') :
    s'.stn rs = { s.stn rs with onames := on } := by
  obtain ⟨i, f, o, u, c, d, rfl⟩ := h
  exact update_self (f := s.stn) rs _

theorem LinkFrame.stn_of_ne {rs r : Ref}
    (h : LinkFrame rs on s s') (hne : r ≠ rs) : s'.stn r = s.stn r := by
  obtain ⟨i, f, o, u, c, d, rfl⟩ := h
  exact update_of_ne (f := s.stn) hne _

/-- Linking one station leaves another one as it is. -/
theorem IsFresh.other {r rs : Ref} (hr : IsFresh cfg r s) (hne : r ≠ rs)
    (h : LinkFrame rs on s s') : IsFresh cfg r s' := by
  have hProg := h.prog cfg
  obtain ⟨i, f, o, u, c, d, rfl⟩ := h
  refine ⟨by rw [hProg]; exact hr.dead, hr.keys, hr.completed, ?_, ?_, ?_⟩
  · show (Function.update s.stn rs _ r).recoverInst = false
    rw [update_of_ne hne]
    exact hr.recoverInst
  · intro j hj
    show (Function.update s.stn rs _ r).inLSQ = false
    rw [update_of_ne hne]
    exact hr.inLSQ j hj
  · show (Function.update s.stn rs _ r).specMode = s.specMode
    rw [update_of_ne hne]
    exact hr.specMode

def inputNames (n₁ n₂ n₃ : Nat) : Fin 3 → Nat
  | 0 => n₁
  | 1 => n₂
  | 2 => n₃

/-- Operands first, outputs then. -/
theorem linkStation_base (hOut : A .outOfRsLinks)
    (h : Base cfg ⟨fun _ => false, E, [], []⟩ s) (hr : IsFresh cfg rs s)
    (hE : ∀ d ∈ E, d.key.1 ≠ rs ∧ d.key ∈ linkKeys cfg ∧ d.spec = s.specMode)
    (n₁ n₂ n₃ o₁ o₂ : Nat) :
    Keeps A (linkStation rs n₁ n₂ n₃ o₁ o₂ s) fun s' =>
      Base cfg ⟨fun _ => false, E ++ declsOf s'.stn rs, [], []⟩ s' ∧ IsFresh cfg rs s' ∧
        LinkFrame rs (outputNames o₁ o₂) s s' ∧
        Linked rs (inputNames n₁ n₂ n₃) [2, 1, 0] s s' := by
  have hKeys : ∀ d ∈ E, d.key ∈ linkKeys cfg := fun d hd => (hE d hd).2.1
  have hOther : ∀ i, ∀ d ∈ E, d.key ≠ (rs, i) := fun i d hd hk => (hE d hd).1 (by rw [hk])
  refine Keeps.bind (ruuLinkIdep_base hOut h hKeys ⟨_, _, _, rfl⟩
    (.nil rs (inputNames n₁ n₂ n₃) s) 0) ?_
  rintro s₁ ⟨h₁, hF₁, hL₁⟩
  refine Keeps.bind (ruuLinkIdep_base hOut h₁ hKeys hF₁ hL₁ 1) ?_
  rintro s₂ ⟨h₂, hF₂, hL₂⟩
  refine Keeps.bind (ruuLinkIdep_base hOut h₂ hKeys hF₂ hL₂ 2) ?_
  rintro s₃ ⟨h₃, hF, hL₃⟩
  have hr₃ := hr.operand hF
  have hSpec₃ : s₃.specMode = s.specMode := by
    obtain ⟨_, _, _, rfl⟩ := hF
    rfl
  refine Keeps.bind (ruuInstallOdep_base h₃ hr₃ 0 (hOther 0)
    (fun d hd => by rw [(hE d hd).2.2, hSpec₃]) o₁) ?_
  rintro s₄ ⟨h₄, hr₄, hF₄⟩
  have hSpec₄ : s₄.specMode = s₃.specMode := by
    obtain ⟨_, _, _, rfl⟩ := hF₄
    rfl
  refine (ruuInstallOdep_base h₄ hr₄ 1 (fun d hd hk => ?_) (fun d hd => ?_) o₂).mono ?_
  · rcases mem_append.mp hd with hd | hd
    · exact hOther 1 d hd hk
    · unfold declOf at hd
      split at hd
      · cases hd
      · rw [mem_singleton.mp hd] at hk
        cases hk
  · rw [hSpec₄]
    rcases mem_append.mp hd with hd | hd
    · rw [(hE d hd).2.2, hSpec₃]
    · unfold declOf at hd
      split at hd
      · cases hd
      · rw [mem_singleton.mp hd]
  rintro s₅ ⟨h₅, hr₅, hF₅⟩
  have hOn : Function.update (s₄.stn rs).onames 1 o₂ = outputNames o₁ o₂ := by
    obtain ⟨_, _, _, rfl⟩ := hF₄
    simp only [update_self, outputNames_eq]
  have hFrame : LinkFrame rs (outputNames o₁ o₂) s s₅ := by
    rw [hOn] at hF₅
    exact OutputFrame.link hF (hF₄.trans hF₅)
  refine ⟨?_, hr₅, hFrame, (hL₃.install hF₄).install hF₅⟩
  have hNames : (s₅.stn rs).onames = outputNames o₁ o₂ := by
    obtain ⟨_, _, _, _, _, _, rfl⟩ := hFrame
    simp
  have hSpec₅ : (s₅.stn rs).specMode = s₃.specMode := by
    obtain ⟨_, _, _, rfl⟩ := hF₅
    exact hr₅.specMode.trans hSpec₄
  rw [declsOf_eq hNames, hSpec₅, ← append_assoc]
  rw [hSpec₄] at h₅
  exact h₅

/-! ### The tails move -/

variable {q q' : Rob env}

theorem SpecInv.push (h : SpecInv cfg q specMode recoverPC completed)
    (hRuu : q'.ruu cfg = q.ruu cfg ++ [rs]) (hStn : q'.stn = q.stn)
    (hSpec : (q.stn rs).specMode = specMode) : SpecInv cfg q' specMode recoverPC completed := by
  unfold SpecInv at h ⊢
  rw [hStn, hRuu]
  split at h
  · rename_i hOn
    rw [if_pos hOn]
    obtain ⟨pre, b, post, hEq, hb, hPC, hPre, hPost⟩ := h
    refine ⟨pre, b, post ++ [rs], by rw [hEq]; simp, hb, hPC, hPre, fun r hr => ?_⟩
    rcases mem_append.mp hr with hr | hr
    · exact hPost r hr
    · rw [mem_singleton.mp hr, hSpec, hOn]
  · rename_i hOff
    rw [if_neg hOff]
    refine ⟨h.1, fun r hr => ?_⟩
    rcases mem_append.mp hr with hr | hr
    · exact h.2 r hr
    · rw [mem_singleton.mp hr, hSpec]
      simpa using hOff

/-- The entry of a correct-path instruction is still to be recorded. -/
def unrecorded (rs : Ref) (s : State env) : List Dispatch :=
  if s.specMode = true then [] else [(s.stn rs).dispatch]

theorem HistInv.push (h : HistInv cfg q s.retired s.dispatched s.inums)
    (hRuu : q'.ruu cfg = q.ruu cfg ++ [rs]) (hStn : q'.stn = q.stn) (hq : q.stn = s.stn)
    (hSpec : (s.stn rs).specMode = s.specMode) (hInum : (s.stn rs).inum = s.inums) :
    HistInv cfg q' s.retired (s.dispatched ++ unrecorded rs s) (s.inums + 1) := by
  have hEntries : settledEntries cfg q' = settledEntries cfg q ++ unrecorded rs s := by
    unfold settledEntries unrecorded
    rw [hStn, hRuu, hq]
    cases hMode : s.specMode with
    | true => simp [hSpec, hMode]
    | false => simp [hSpec, hMode]
  refine ⟨?_, ?_, fun d hd => ?_⟩
  · rw [hEntries, ← append_assoc, h.eq]
  · unfold unrecorded
    split
    · simpa using h.order
    · rw [pairwise_append]
      refine ⟨h.order, pairwise_singleton _ _, fun a ha b hb => ?_⟩
      rw [mem_singleton.mp hb]
      show a.inum < (s.stn rs).inum
      rw [hInum]
      exact h.bound a ha
  · rcases mem_append.mp hd with hd | hd
    · exact Nat.lt_succ_of_lt (h.bound d hd)
    · unfold unrecorded at hd
      split at hd
      · cases hd
      · rw [mem_singleton.mp hd]
        show (s.stn rs).inum < s.inums + 1
        omega

theorem Base.pushOp (h : Base cfg ⟨fun _ => false, declsOf s.stn (.ruu s.ruuTail), [], []⟩ s)
    (hr : IsFresh cfg (.ruu s.ruuTail) s) (hRoom : s.ruuNum < cfg.ruuSize)
    (hEa : (s.stn (.ruu s.ruuTail)).eaComp = false)
    (hInum : (s.stn (.ruu s.ruuTail)).inum = s.inums) :
    Base cfg ⟨fun _ => false, [], [], unrecorded (.ruu s.ruuTail) s⟩ (advanceRuu cfg s) := by
  obtain ⟨hQ, hProg⟩ := h.queue.pushOp hRoom hEa
  have hHist := h.hist
  rw [append_nil] at hHist
  refine ⟨hQ, h.spec.push h.queue.ruu_pushRuu rfl hr.specMode,
    hHist.push h.queue.ruu_pushRuu rfl rfl hr.specMode hInum, h.links, ?_⟩
  have hNames := h.names
  show NamesInv (decls s.stn ((s.rob.pushRuu cfg).prog cfg) ++ []) _ _ _ _ _
  rw [hProg, append_nil, decls_append]
  have hNew : decls s.stn [.ruu s.rob.ruuTail] = declsOf s.stn (.ruu s.ruuTail) :=
    append_nil _
  rw [hNew]
  exact hNames

theorem Base.pushMem (h : Base cfg ⟨fun _ => false,
      declsOf s.stn (.ruu s.ruuTail) ++ declsOf s.stn (.lsq s.lsqTail), [], []⟩ s)
    (hr : IsFresh cfg (.ruu s.ruuTail) s) (hRoom : s.ruuNum < cfg.ruuSize)
    (hRoomL : s.lsqNum < cfg.lsqSize) (hEa : (s.stn (.ruu s.ruuTail)).eaComp = true)
    (hPartner : Partner s.stn (.ruu s.ruuTail) (.lsq s.lsqTail))
    (hInum : (s.stn (.ruu s.ruuTail)).inum = s.inums) :
    Base cfg ⟨fun _ => false, [], [], unrecorded (.ruu s.ruuTail) s⟩
      (advanceLsq cfg (advanceRuu cfg s)) := by
  obtain ⟨hQ, hProg⟩ := h.queue.pushMem hRoom hRoomL hEa hPartner
  have hRuu : ((s.rob.pushRuu cfg).pushLsq cfg).ruu cfg = s.rob.ruu cfg ++ [.ruu s.ruuTail] :=
    h.queue.ruu_pushRuu
  have hHist := h.hist
  rw [append_nil] at hHist
  refine ⟨hQ, h.spec.push hRuu rfl hr.specMode, hHist.push hRuu rfl rfl hr.specMode hInum,
    h.links, ?_⟩
  have hNames := h.names
  show NamesInv (decls s.stn (((s.rob.pushRuu cfg).pushLsq cfg).prog cfg) ++ []) _ _ _ _ _
  rw [hProg, append_nil, decls_append]
  have hNew : decls s.stn [.ruu s.rob.ruuTail, .lsq s.rob.lsqTail] =
      declsOf s.stn (.ruu s.ruuTail) ++ declsOf s.stn (.lsq s.lsqTail) := by
    simp [decls, State.rob]
  rw [hNew]
  exact hNames

/-! ### Allocation -/

/-- `rs` has been queued as ready, or there is something to wait for. -/
inductive Queues (ready : Bool) (rs : Ref) (s : State env) : State env → Prop where
  | wait (hReady : ready = false) : Queues ready rs s s
  | queue {id : Nat} {rest : List Nat} (hReady : ready = true) (hQueued : s.queued rs = false)
      (hFree : s.rslinkFreeList = id :: rest) : Queues ready rs s (enqueued id rest rs s)

theorem Queues.queued_of_ne {ready : Bool} {rs r : Ref} (h : Queues ready rs s s')
    (hr : r ≠ rs) : s'.queued r = s.queued r := by
  cases h with
  | wait => rfl
  | queue => exact update_of_ne hr ..

/-- The steps of an allocation. -/
inductive Allocated (cfg : Config) (i : Insn env) (s : State env) : State env → Prop where
  | nop (hNop : i.op = .nop) : Allocated cfg i s s
  | op {s₁ s₂ : State env} (lastOp : Option (Ref × Word)) (hNop : i.op ≠ .nop)
      (hMem : i.op.has F.mem = false)
      (hFrame : LinkFrame (.ruu s.ruuTail) (outputNames i.out1 i.out2) (fillRuu i s) s₁)
      (hLinked : Linked (.ruu s.ruuTail) (inputNames i.in1 i.in2 i.in3) [2, 1, 0]
        (fillRuu i s) s₁)
      (hBase : Base cfg ⟨fun _ => false, declsOf s₁.stn (.ruu s.ruuTail), [], []⟩ s₁)
      (hQueues : Queues ((advanceRuu cfg s₁).operandsReady (.ruu s.ruuTail)) (.ruu s.ruuTail)
        (advanceRuu cfg s₁) s₂)
      (hLast : lastOp = if s₁.operandsReady (.ruu s.ruuTail) then none
        else some (.ruu s.ruuTail, s₁.tag (.ruu s.ruuTail))) :
      Allocated cfg i s { s₂ with lastOp := lastOp }
  | mem {s₁ s₂ s₃ s₄ : State env} (lastOp : Option (Ref × Word)) (hNop : i.op ≠ .nop)
      (hMem : i.op.has F.mem = true)
      (hFrame : LinkFrame (.ruu s.ruuTail) (outputNames DTMP NA) (fillLsq i (fillRuu i s)) s₁)
      (hLinked : Linked (.ruu s.ruuTail) (inputNames NA i.in2 i.in3) [2, 1, 0]
        (fillLsq i (fillRuu i s)) s₁)
      (hBase : Base cfg ⟨fun _ => false, declsOf s₁.stn (.ruu s.ruuTail), [], []⟩ s₁)
      (hFrameL : LinkFrame (.lsq s.lsqTail) (outputNames i.out1 i.out2) s₁ s₂)
      (hLinkedL : Linked (.lsq s.lsqTail) (inputNames i.in1 DTMP NA) [2, 1, 0] s₁ s₂)
      (hBaseL : Base cfg ⟨fun _ => false,
        declsOf s₁.stn (.ruu s.ruuTail) ++ declsOf s₂.stn (.lsq s.lsqTail), [], []⟩ s₂)
      (hQueues : Queues ((advanceLsq cfg (advanceRuu cfg s₂)).operandsReady (.ruu s.ruuTail))
        (.ruu s.ruuTail) (advanceLsq cfg (advanceRuu cfg s₂)) s₃)
      (hQueuesL : Queues (i.op.has (F.mem ||| F.store) && s₃.operandsReady (.lsq s.lsqTail))
        (.lsq s.lsqTail) { s₃ with lastOp := lastOp } s₄)
      (hLast : lastOp = some (.lsq s.lsqTail, s₃.tag (.lsq s.lsqTail))) :
      Allocated cfg i s s₄

/-- The newest RUU entry is `rs`, and it is still to be recorded. -/
structure NewEntry (cfg : Config) (rs : Ref) (i : Insn env) (s : State env) : Prop where
  base : Base cfg ⟨fun _ => false, [], [], unrecorded rs s⟩ s
  newest : ∃ pre, s.rob.ruu cfg = pre ++ [rs]
  completed : s.completed rs = false
  nextPC : (s.stn rs).nextPC = i.nextPC
  PC : (s.stn rs).PC = s.regsPC
  IR : (s.stn rs).IR = i.fetched.IR

variable {i : Insn env}

theorem NewEntry.enqueue (h : NewEntry cfg rs i s) {id : Nat}
    {rest : List Nat} (r : Ref) (hFree : s.rslinkFreeList = id :: rest) :
    NewEntry cfg rs i (enqueued id rest r s) :=
  { h with base := h.base.enqueue r hFree }

theorem NewEntry.lastOp (h : NewEntry cfg rs i s)
    (lastOp : Option (Ref × Word)) : NewEntry cfg rs i { s with lastOp := lastOp } :=
  { h with base := { h.base with } }

theorem enqueueIf_entry {f : Front env} (hOut : A .outOfRsLinks)
    (h : NewEntry cfg rs i s) (hFront : s.front = f) (ready : Bool)
    (hIdle : s.queued r = false) :
    Keeps A (enqueueIf ready r s) fun s' =>
      NewEntry cfg rs i s' ∧ s'.front = f ∧ Queues ready r s s' :=
  enqueueIf_keeps (fun hWait => ⟨h, hFront, .wait hWait⟩)
    (fun _ _ hReady hQ hFree => ⟨h.enqueue r hFree, hFront, .queue hReady hQ hFree⟩)
    (fun _ hQ => absurd (hIdle.symm.trans hQ) (by decide)) fun _ _ => hOut

/-- The RUU station at the tail, once `fillRuu` has written it. -/
theorem Base.fillRuu (h : Base cfg {} s) (hRoom : s.ruuNum < cfg.ruuSize) (i : Insn env) :
    Base cfg {} (fillRuu i s) ∧ (fillRuu i s).rob.prog cfg = s.rob.prog cfg ∧
      IsFresh cfg (.ruu s.ruuTail) (fillRuu i s) := by
  have hDead := h.queue.tailRuu_not_mem hRoom
  obtain ⟨hBase, hProg⟩ := @Base.fill env cfg s _ h hDead (ruuStation i s) rfl fun _ _ => rfl
  refine ⟨hBase, hProg, ?_, fun j => mem_linkKeys_ruu ?_, update_self .., ?_, ?_, ?_⟩
  · rw [show (Outorder.fillRuu i s).rob.prog cfg = s.rob.prog cfg from hProg]
    exact hDead
  · rw [show s.ruuTail = _ from h.queue.ruuTail_eq]
    exact Nat.mod_lt _ cfg.ruu_pos
  · simp [Outorder.fillRuu, Outorder.fill, ruuStation]
  · intro _ _
    simp [Outorder.fillRuu, Outorder.fill, ruuStation]
  · simp [Outorder.fillRuu, Outorder.fill, ruuStation]

theorem Base.fillLsq (h : Base cfg {} s) (hRoom : s.lsqNum < cfg.lsqSize) (i : Insn env) :
    Base cfg {} (fillLsq i s) ∧ (fillLsq i s).rob.prog cfg = s.rob.prog cfg ∧
      IsFresh cfg (.lsq s.lsqTail) (fillLsq i s) := by
  have hDead := h.queue.tailLsq_not_mem hRoom
  obtain ⟨hBase, hProg⟩ := @Base.fill env cfg s _ h hDead (lsqStation i s) rfl (by simp)
  refine ⟨hBase, hProg, ?_, fun j => mem_linkKeys_lsq ?_, update_self .., ?_, ?_, ?_⟩
  · rw [show (Outorder.fillLsq i s).rob.prog cfg = s.rob.prog cfg from hProg]
    exact hDead
  · rw [show s.lsqTail = _ from h.queue.lsqTail_eq]
    exact Nat.mod_lt _ cfg.lsq_pos
  · simp [Outorder.fillLsq, Outorder.fill, lsqStation]
  · intro _ hEq
    cases hEq
  · simp [Outorder.fillLsq, Outorder.fill, lsqStation]

theorem allocOp_base (hOut : A .outOfRsLinks) (h : Base cfg {} s)
    (hRoom : s.ruuNum < cfg.ruuSize) (hNop : i.op ≠ .nop) (hMem : i.op.has F.mem = false) :
    Keeps A (allocOp cfg i s) fun s' =>
      NewEntry cfg (.ruu s.ruuTail) i s' ∧ s'.front = s.front ∧ Allocated cfg i s s' := by
  obtain ⟨h₁, hProg, hr₁⟩ := h.fillRuu hRoom i
  have hStn : (fillRuu i s).stn (.ruu s.ruuTail) = ruuStation i s := update_self ..
  refine Keeps.bind (linkStation_base hOut h₁ hr₁ (by simp) i.in1 i.in2 i.in3 i.out1 i.out2) ?_
  rintro s₂ ⟨h₂, hr₂, hFrame, hLinked⟩
  rw [nil_append] at h₂
  have hEntry : NewEntry cfg (.ruu s.ruuTail) i (advanceRuu cfg s₂) ∧
      (advanceRuu cfg s₂).front = s.front := by
    have hSelf : s₂.stn (.ruu s.ruuTail) =
        { ruuStation i s with onames := outputNames i.out1 i.out2 } := by
      rw [hFrame.self, hStn]
    obtain ⟨i', f, o, u, c, d, hs₂⟩ := id hFrame
    have hTail : s₂.ruuTail = s.ruuTail := by rw [hs₂]; rfl
    rw [← hTail] at h₂ hr₂ hSelf ⊢
    have hBase := h₂.pushOp hr₂ (by rw [hs₂]; exact hRoom) (by rw [hSelf]; exact hMem)
      (by rw [hSelf, hs₂]; rfl)
    refine ⟨⟨hBase, ⟨_, h₂.queue.ruu_pushRuu⟩, hr₂.completed, ?_, ?_, ?_⟩, by rw [hs₂]; rfl⟩
    · show (s₂.stn (.ruu s₂.ruuTail)).nextPC = i.nextPC
      rw [hSelf]
      rfl
    · show (s₂.stn (.ruu s₂.ruuTail)).PC = s₂.regsPC
      rw [hSelf, hs₂]
      rfl
    · show (s₂.stn (.ruu s₂.ruuTail)).IR = i.fetched.IR
      rw [hSelf]
      rfl
  have hIdle : (advanceRuu cfg s₂).queued (.ruu s.ruuTail) = false := by
    obtain ⟨_, _, _, _, _, _, rfl⟩ := hFrame
    exact update_self ..
  refine keeps_ite (fun hReady => ?_) fun hReady => ⟨hEntry.1.lastOp _, hEntry.2,
    .op _ hNop hMem hFrame hLinked h₂ (.wait (by simpa using hReady)) (if_neg hReady).symm⟩
  refine Keeps.bind (readyqEnqueue_keeps (Q := fun s' => NewEntry cfg (.ruu s.ruuTail) i s' ∧
    s'.front = s.front ∧ Queues _ (.ruu s.ruuTail) (advanceRuu cfg s₂) s') (fun id rest hQ hFree =>
      ⟨hEntry.1.enqueue _ hFree, hEntry.2, .queue hReady hQ hFree⟩)
    (fun hQ => absurd (hIdle.symm.trans hQ) (by decide)) fun _ => hOut) ?_
  rintro s₃ ⟨h₃, hF₃, hQ₃⟩
  exact keeps_ok ⟨h₃.lastOp none, hF₃,
    .op none hNop hMem hFrame hLinked h₂ hQ₃ (if_pos hReady).symm⟩

/-- Both stations of a load or a store, written. -/
theorem Base.fillMem (h : Base cfg {} s) (hRoom : s.ruuNum < cfg.ruuSize)
    (hRoomL : s.lsqNum < cfg.lsqSize) (i : Insn env) :
    Base cfg {} (Outorder.fillLsq i (Outorder.fillRuu i s)) ∧
      IsFresh cfg (.ruu s.ruuTail) (Outorder.fillLsq i (Outorder.fillRuu i s)) ∧
      IsFresh cfg (.lsq s.lsqTail) (Outorder.fillLsq i (Outorder.fillRuu i s)) := by
  obtain ⟨h₁, hProg₁, hr₁⟩ := h.fillRuu hRoom i
  obtain ⟨h₂, hProg₂, hl₂⟩ := h₁.fillLsq hRoomL i
  refine ⟨h₂, ⟨?_, hr₁.keys, ?_, ?_, ?_, ?_⟩, hl₂⟩
  · rw [hProg₂]
    exact hr₁.dead
  · exact hr₁.completed
  · exact hr₁.recoverInst
  · exact hr₁.inLSQ
  · exact hr₁.specMode

theorem allocMem_base (hOut : A .outOfRsLinks) (h : Base cfg {} s)
    (hRoom : s.ruuNum < cfg.ruuSize) (hRoomL : s.lsqNum < cfg.lsqSize) (hNop : i.op ≠ .nop)
    (hMem : i.op.has F.mem = true) :
    Keeps A (allocMem cfg i s) fun s' =>
      NewEntry cfg (.ruu s.ruuTail) i s' ∧ s'.front = s.front ∧ Allocated cfg i s s' := by
  obtain ⟨h₁, hr₁, hl₁⟩ := h.fillMem hRoom hRoomL i
  have hStnR : (fillLsq i (fillRuu i s)).stn (.ruu s.ruuTail) = ruuStation i s := by
    simp [fillLsq, fillRuu, fill]
  have hStnL : (fillLsq i (fillRuu i s)).stn (.lsq s.lsqTail) = lsqStation i (fillRuu i s) := by
    simp [fillLsq, fillRuu, fill]
  have hNe : Ref.ruu s.ruuTail ≠ .lsq s.lsqTail := by simp
  refine Keeps.bind (linkStation_base hOut h₁ hr₁ (by simp) NA i.in2 i.in3 DTMP NA) ?_
  rintro s₂ ⟨h₂, hr₂, hF₂, hL₂⟩
  rw [nil_append] at h₂
  have hl₂ := hl₁.other hNe.symm hF₂
  have hExtra : ∀ d ∈ declsOf s₂.stn (.ruu s.ruuTail), d.key.1 ≠ .lsq s.lsqTail ∧
      d.key ∈ linkKeys cfg ∧ d.spec = s₂.specMode := by
    intro d hd
    obtain ⟨j, _, rfl⟩ := mem_declsOf.mp hd
    exact ⟨hNe, hr₂.keys j, hr₂.specMode⟩
  refine Keeps.bind (linkStation_base hOut h₂ hl₂ hExtra i.in1 DTMP NA i.out1 i.out2) ?_
  rintro s₃ ⟨h₃, hl₃, hF₃, hL₃⟩
  have hr₃ := hr₂.other hNe hF₃
  have hEntry : NewEntry cfg (.ruu s.ruuTail) i (advanceLsq cfg (advanceRuu cfg s₃)) ∧
      (advanceLsq cfg (advanceRuu cfg s₃)).front = s.front := by
    have hKeep := hF₃.stn_of_ne hNe
    have hSelf : s₃.stn (.ruu s.ruuTail) =
        { ruuStation i s with onames := outputNames DTMP NA } := by
      rw [hKeep, hF₂.self, hStnR]
    have hSelfL : s₃.stn (.lsq s.lsqTail) =
        { lsqStation i (fillRuu i s) with onames := outputNames i.out1 i.out2 } := by
      rw [hF₃.self, hF₂.stn_of_ne hNe.symm, hStnL]
    obtain ⟨i₂, f₂, o₂, u₂, c₂, d₂, hs₂⟩ := id hF₂
    obtain ⟨i₃, f₃, o₃, u₃, c₃, d₃, hs₃⟩ := id hF₃
    have hTail : s₃.ruuTail = s.ruuTail := by rw [hs₃, hs₂]; rfl
    have hTailL : s₃.lsqTail = s.lsqTail := by rw [hs₃, hs₂]; rfl
    have hDecls : declsOf s₂.stn (.ruu s.ruuTail) = declsOf s₃.stn (.ruu s.ruuTail) := by
      simp only [declsOf, hKeep]
    rw [hDecls] at h₃
    rw [← hTail] at h₃ hr₃ hSelf ⊢
    rw [← hTailL] at h₃ hSelfL
    have hPartner : Partner s₃.stn (.ruu s₃.ruuTail) (.lsq s₃.lsqTail) := by
      constructor <;> rw [hSelfL] <;> first | rw [hSelf]; rfl | rfl
    have hBase := h₃.pushMem hr₃ (by rw [hs₃, hs₂]; exact hRoom) (by rw [hs₃, hs₂]; exact hRoomL)
      (by rw [hSelf]; exact hMem) hPartner (by rw [hSelf, hs₃, hs₂]; rfl)
    refine ⟨⟨hBase, ⟨_, h₃.queue.ruu_pushRuu⟩, hr₃.completed, ?_, ?_, ?_⟩,
      by rw [hs₃, hs₂]; rfl⟩
    · show (s₃.stn (.ruu s₃.ruuTail)).nextPC = i.nextPC
      rw [hSelf]
      rfl
    · show (s₃.stn (.ruu s₃.ruuTail)).PC = s₃.regsPC
      rw [hSelf, hs₃, hs₂]
      rfl
    · show (s₃.stn (.ruu s₃.ruuTail)).IR = i.fetched.IR
      rw [hSelf]
      rfl
  have hQueued : (advanceLsq cfg (advanceRuu cfg s₃)).queued = Function.update
      (Function.update s.queued (.ruu s.ruuTail) false) (.lsq s.lsqTail) false := by
    obtain ⟨_, _, _, _, _, _, rfl⟩ := hF₃
    obtain ⟨_, _, _, _, _, _, rfl⟩ := hF₂
    rfl
  refine Keeps.bind (enqueueIf_entry hOut hEntry.1 hEntry.2 _ (r := .ruu s.ruuTail)
    (by simp [hQueued])) ?_
  rintro s₄ ⟨h₄, hF₄, hQ₄⟩
  have hIdle : s₄.queued (.lsq s.lsqTail) = false := by
    rw [hQ₄.queued_of_ne hNe.symm, hQueued, update_self]
  refine (enqueueIf_entry hOut (h₄.lastOp (some (.lsq s.lsqTail, s₄.tag (.lsq s.lsqTail)))) hF₄ _
    (r := .lsq s.lsqTail) hIdle).mono
    fun s₅ hs₅ => ⟨hs₅.1, hs₅.2.1, ?_⟩
  exact .mem _ hNop hMem hF₂ hL₂ h₂ hF₃ hL₃ h₃ hQ₄ hs₅.2.2 rfl

theorem alloc_base (hOut : A .outOfRsLinks) (h : Base cfg {} s)
    (hRoom : s.ruuNum < cfg.ruuSize) (hRoomL : s.lsqNum < cfg.lsqSize) (i : Insn env) :
    Keeps A (alloc cfg i s) fun s' =>
      (if i.op = .nop then Base cfg {} s' else NewEntry cfg (.ruu s.ruuTail) i s') ∧
        s'.front = s.front ∧ Allocated cfg i s s' := by
  refine keeps_ite (fun hNop => ?_) fun hNop => ?_
  · simp only [if_pos hNop]
    exact ⟨h, rfl, .nop hNop⟩
  · simp only [if_neg hNop]
    exact keeps_ite (fun hMem => allocMem_base hOut h hRoom hRoomL hNop hMem) fun hMem =>
      allocOp_base hOut h hRoom hNop (by simpa using hMem)

end SimpleScalar.Outorder

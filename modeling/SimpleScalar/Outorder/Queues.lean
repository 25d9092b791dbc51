import SimpleScalar.Outorder.Rules

/-!
# The two queues

The RUU and the LSQ are circular buffers that shrink at the head (commit) and at the
tail (recovery) and grow at the tail (dispatch).  `QueueInv` says that heads, tails
and counts fit together and that the LSQ is in step with the RUU: its entries belong,
one to one and in order, to the RUU entries that are address computations
(`InSync`).

`weave` puts the entries of both queues in program order, each memory access right
after its address computation.

* `QueueInv.retireOp`, `QueueInv.retireMem`: commit keeps it.
* `QueueInv.pushOp`, `QueueInv.pushMem`: dispatch keeps it.
* `QueueInv.truncate`: so does cutting both queues after a live entry.
-/

namespace SimpleScalar.Outorder

open List

variable {env : Env} {stn stn' : Ref → Station env}

/-! ### Program order -/

/-- The RUU entry and the LSQ entry of one load or store. -/
structure Partner (stn : Ref → Station env) (r l : Ref) : Prop where
  IR : (stn l).IR = (stn r).IR
  PC : (stn l).PC = (stn r).PC
  inum : (stn l).inum = (stn r).inum
  specMode : (stn l).specMode = (stn r).specMode
  inLSQ : (stn l).inLSQ = true

/-- The LSQ list `L` belongs to the address computations of the RUU list, in order. -/
inductive InSync (stn : Ref → Station env) : List Ref → List Ref → Prop where
  | nil : InSync stn [] []
  | op {r : Ref} {R L : List Ref} (hEa : (stn r).eaComp = false) (h : InSync stn R L) :
      InSync stn (r :: R) L
  | mem {r l : Ref} {R L : List Ref} (hEa : (stn r).eaComp = true) (hPartner : Partner stn r l)
      (h : InSync stn R L) : InSync stn (r :: R) (l :: L)

/-- Program order. -/
def weave (stn : Ref → Station env) : List Ref → List Ref → List Ref
  | [], _ => []
  | r :: R, L =>
    if (stn r).eaComp then r :: (L.take 1 ++ weave stn R (L.drop 1)) else r :: weave stn R L

theorem InSync.append {R L R' L' : List Ref} (h : InSync stn R L) (h' : InSync stn R' L') :
    InSync stn (R ++ R') (L ++ L') := by
  induction h with
  | nil => exact h'
  | op hEa _ ih => exact .op hEa ih
  | mem hEa hPartner _ ih => exact .mem hEa hPartner ih

variable {R L : List Ref}

theorem InSync.of_op {r : Ref} (hEa : (stn r).eaComp = false)
    (h : InSync stn (r :: R) L) : InSync stn R L := by
  cases h with
  | op _ h => exact h
  | mem hEa' => rw [hEa] at hEa'; cases hEa'

theorem InSync.of_mem {r : Ref} (hEa : (stn r).eaComp = true)
    (h : InSync stn (r :: R) L) :
    ∃ l L', L = l :: L' ∧ Partner stn r l ∧ InSync stn R L' := by
  cases h with
  | op hEa' => rw [hEa] at hEa'; cases hEa'
  | mem _ hPartner h => exact ⟨_, _, rfl, hPartner, h⟩

/-- A cut of the RUU cuts the LSQ. -/
theorem InSync.split {R' L : List Ref} : ∀ {R : List Ref}, InSync stn (R ++ R') L →
    ∃ L₁ L₂, L = L₁ ++ L₂ ∧ InSync stn R L₁ ∧ InSync stn R' L₂ := by
  intro R
  induction R generalizing L with
  | nil => intro h; exact ⟨[], L, rfl, .nil, h⟩
  | cons r R ih =>
    intro h
    rw [cons_append] at h
    cases h with
    | op hEa h =>
      obtain ⟨L₁, L₂, rfl, h₁, h₂⟩ := ih h
      exact ⟨L₁, L₂, rfl, .op hEa h₁, h₂⟩
    | mem hEa hPartner h =>
      obtain ⟨L₁, L₂, rfl, h₁, h₂⟩ := ih h
      exact ⟨_ :: L₁, L₂, rfl, .mem hEa hPartner h₁, h₂⟩

/-- One to one and in order. -/
theorem InSync.forall₂ (h : InSync stn R L) :
    List.Forall₂ (Partner stn) (R.filter fun r => (stn r).eaComp) L := by
  induction h with
  | nil => exact .nil
  | op hEa _ ih => rwa [filter_cons_of_neg (by simp [hEa])]
  | mem hEa hPartner _ ih =>
    rw [filter_cons_of_pos (by simpa using hEa)]
    exact .cons hPartner ih

theorem InSync.length_le (h : InSync stn R L) : L.length ≤ R.length := by
  induction h with
  | nil => simp
  | op _ _ ih => simp; omega
  | mem _ _ _ ih => simp; omega

/-- The fields that say which instruction a station holds. -/
def Station.ident (st : Station env) : Inst × Word × Nat × Bool × Bool × Bool :=
  (st.IR, st.PC, st.inum, st.specMode, st.inLSQ, st.eaComp)

theorem Partner.congr {r l : Ref} (h : Partner stn r l) (hr : (stn' r).ident = (stn r).ident)
    (hl : (stn' l).ident = (stn l).ident) : Partner stn' r l := by
  simp only [Station.ident, Prod.mk.injEq] at hr hl
  obtain ⟨hr₁, hr₂, hr₃, hr₄, -, -⟩ := hr
  obtain ⟨hl₁, hl₂, hl₃, hl₄, hl₅, -⟩ := hl
  refine ⟨?_, ?_, ?_, ?_, ?_⟩
  · rw [hl₁, hr₁, h.IR]
  · rw [hl₂, hr₂, h.PC]
  · rw [hl₃, hr₃, h.inum]
  · rw [hl₄, hr₄, h.specMode]
  · rw [hl₅, h.inLSQ]

/-- Being in step is a matter of the instructions the stations in the lists hold. -/
theorem InSync.congr (h : InSync stn R L) (hR : ∀ r ∈ R, (stn' r).ident = (stn r).ident)
    (hL : ∀ l ∈ L, (stn' l).ident = (stn l).ident) : InSync stn' R L := by
  have hEa : ∀ r, (stn' r).ident = (stn r).ident → (stn' r).eaComp = (stn r).eaComp := by
    intro r hr
    simp only [Station.ident, Prod.mk.injEq] at hr
    exact hr.2.2.2.2.2
  induction h with
  | nil => exact .nil
  | op hEa' _ ih =>
    refine .op ?_ (ih (fun r hr => hR r (by simp [hr])) hL)
    rw [hEa _ (hR _ (by simp)), hEa']
  | mem hEa' hPartner _ ih =>
    refine .mem ?_ (hPartner.congr (hR _ (by simp)) (hL _ (by simp)))
      (ih (fun r hr => hR r (by simp [hr])) fun l hl => hL l (by simp [hl]))
    rw [hEa _ (hR _ (by simp)), hEa']

theorem weave_congr {R : List Ref} (hR : ∀ r ∈ R, (stn' r).eaComp = (stn r).eaComp) :
    ∀ L, weave stn' R L = weave stn R L := by
  induction R with
  | nil => intro L; rfl
  | cons r R ih =>
    intro L
    have hRest := ih fun r hr => hR r (by simp [hr])
    simp only [weave, hR r (by simp), hRest]

theorem InSync.weave_append {R L S M : List Ref} (h : InSync stn R L) :
    weave stn (R ++ S) (L ++ M) = weave stn R L ++ weave stn S M := by
  induction h with
  | nil => rfl
  | op hEa _ ih => simp [weave, hEa, ih]
  | mem hEa _ _ ih => simp [weave, hEa, ih]

/-- Program order is a merge of the two queues. -/
theorem InSync.weave_perm (h : InSync stn R L) :
    (weave stn R L).Perm (R ++ L) := by
  induction h with
  | nil => exact .nil
  | op hEa _ ih =>
    simp only [weave, hEa, Bool.false_eq_true, if_false, cons_append]
    exact ih.cons _
  | @mem r l R L hEa _ _ ih =>
    simp only [weave, hEa, if_true, take_succ_cons, take_zero, drop_succ_cons,
      drop_zero, cons_append, nil_append]
    exact ((ih.cons l).trans perm_middle.symm).cons r

theorem InSync.mem_weave (h : InSync stn R L) {x : Ref} :
    x ∈ weave stn R L ↔ x ∈ R ∨ x ∈ L :=
  h.weave_perm.mem_iff.trans mem_append

/-- A load or store is on one path with its address computation. -/
theorem InSync.specMode_weave {c : Bool} (h : InSync stn R L)
    (hR : ∀ r ∈ R, (stn r).specMode = c) : ∀ x ∈ weave stn R L, (stn x).specMode = c := by
  have hL : ∀ l ∈ L, (stn l).specMode = c := by
    induction h with
    | nil => intro l hl; cases hl
    | op _ _ ih => exact ih fun r hr => hR r (by simp [hr])
    | mem _ hPartner _ ih =>
      intro l hl
      rcases mem_cons.mp hl with rfl | hl
      · rw [hPartner.specMode, hR _ (by simp)]
      · exact ih (fun r hr => hR r (by simp [hr])) l hl
  intro x hx
  rcases h.mem_weave.mp hx with hx | hx
  · exact hR x hx
  · exact hL x hx

/-! ### The invariant -/

structure QueueInv (cfg : Config) (q : Rob env) : Prop where
  ruuHead_lt : q.ruuHead < cfg.ruuSize
  ruuNum_le : q.ruuNum ≤ cfg.ruuSize
  ruuTail_eq : q.ruuTail = (q.ruuHead + q.ruuNum) % cfg.ruuSize
  lsqHead_lt : q.lsqHead < cfg.lsqSize
  lsqNum_le : q.lsqNum ≤ cfg.lsqSize
  lsqTail_eq : q.lsqTail = (q.lsqHead + q.lsqNum) % cfg.lsqSize
  sync : InSync q.stn (q.ruu cfg) (q.lsq cfg)
  ruu_inLSQ : ∀ i, (q.stn (.ruu i)).inLSQ = false
  lsq_recoverInst : ∀ i, (q.stn (.lsq i)).recoverInst = false

namespace Rob

variable (q : Rob env) (cfg : Config)

/-- The live entries in program order. -/
def prog : List Ref := weave q.stn (q.ruu cfg) (q.lsq cfg)

@[simp] theorem length_ruu : (q.ruu cfg).length = q.ruuNum := by simp [ruu]

@[simp] theorem length_lsq : (q.lsq cfg).length = q.lsqNum := by simp [lsq]

theorem nodup_ruu (h : q.ruuNum ≤ cfg.ruuSize) : (q.ruu cfg).Nodup :=
  (CircularQueue.nodup_slots h).map fun _ _ h => by injection h

theorem nodup_lsq (h : q.lsqNum ≤ cfg.lsqSize) : (q.lsq cfg).Nodup :=
  (CircularQueue.nodup_slots h).map fun _ _ h => by injection h

/-- The head of the RUU leaves. -/
def popRuu : Rob env :=
  { q with ruuHead := (q.ruuHead + 1) % cfg.ruuSize, ruuNum := q.ruuNum - 1 }

def popLsq : Rob env :=
  { q with lsqHead := (q.lsqHead + 1) % cfg.lsqSize, lsqNum := q.lsqNum - 1 }

/-- The station at the tail of the RUU becomes live. -/
def pushRuu : Rob env :=
  { q with ruuTail := (q.ruuTail + 1) % cfg.ruuSize, ruuNum := q.ruuNum + 1 }

def pushLsq : Rob env :=
  { q with lsqTail := (q.lsqTail + 1) % cfg.lsqSize, lsqNum := q.lsqNum + 1 }

/-- The queues cut down to `m` and `n` entries. -/
def truncate (m n : Nat) : Rob env :=
  { q with
    ruuTail := (q.ruuHead + m) % cfg.ruuSize
    ruuNum := m
    lsqTail := (q.lsqHead + n) % cfg.lsqSize
    lsqNum := n }

theorem ruu_cons {cfg : Config} {q : Rob env} (hHead : q.ruuHead < cfg.ruuSize)
    (hNum : q.ruuNum ≠ 0) : q.ruu cfg = .ruu q.ruuHead :: (q.popRuu cfg).ruu cfg := by
  obtain ⟨n, hn⟩ := Nat.exists_eq_succ_of_ne_zero hNum
  simp only [ruu, popRuu, hn, Nat.succ_eq_add_one, Nat.add_sub_cancel]
  rw [CircularQueue.slots_succ_left, Nat.mod_eq_of_lt hHead, map_cons]

theorem lsq_cons {cfg : Config} {q : Rob env} (hHead : q.lsqHead < cfg.lsqSize)
    (hNum : q.lsqNum ≠ 0) : q.lsq cfg = .lsq q.lsqHead :: (q.popLsq cfg).lsq cfg := by
  obtain ⟨n, hn⟩ := Nat.exists_eq_succ_of_ne_zero hNum
  simp only [lsq, popLsq, hn, Nat.succ_eq_add_one, Nat.add_sub_cancel]
  rw [CircularQueue.slots_succ_left, Nat.mod_eq_of_lt hHead, map_cons]

end Rob

namespace QueueInv

variable {cfg : Config} {q : Rob env} (h : QueueInv cfg q)

include h

theorem mem_prog {r : Ref} : r ∈ q.prog cfg ↔ r ∈ q.ruu cfg ∨ r ∈ q.lsq cfg := h.sync.mem_weave

theorem nodup_prog : (q.prog cfg).Nodup := by
  refine h.sync.weave_perm.nodup_iff.mpr (nodup_append.mpr ⟨q.nodup_ruu cfg h.ruuNum_le,
    q.nodup_lsq cfg h.lsqNum_le, ?_⟩)
  intro a ha b hb hab
  obtain ⟨i, _, rfl⟩ := mem_map.mp ha
  obtain ⟨j, _, rfl⟩ := mem_map.mp hb
  cases hab

theorem lsqNum_le_ruuNum : q.lsqNum ≤ q.ruuNum := by
  simpa using h.sync.length_le

/-! ### Commit -/

theorem popRuu_ring (hNum : q.ruuNum ≠ 0) :
    (q.popRuu cfg).ruuHead < cfg.ruuSize ∧ (q.popRuu cfg).ruuNum ≤ cfg.ruuSize ∧
      (q.popRuu cfg).ruuTail = ((q.popRuu cfg).ruuHead + (q.popRuu cfg).ruuNum) % cfg.ruuSize := by
  obtain ⟨n, hn⟩ := Nat.exists_eq_succ_of_ne_zero hNum
  have hLe := h.ruuNum_le
  refine ⟨Nat.mod_lt _ cfg.ruu_pos, ?_, ?_⟩
  · simp only [Rob.popRuu]
    omega
  · simp only [Rob.popRuu, hn, Nat.succ_eq_add_one, Nat.add_sub_cancel]
    rw [h.ruuTail_eq, CircularQueue.tail_pop, hn]

theorem popLsq_ring (hNum : q.lsqNum ≠ 0) :
    (q.popLsq cfg).lsqHead < cfg.lsqSize ∧ (q.popLsq cfg).lsqNum ≤ cfg.lsqSize ∧
      (q.popLsq cfg).lsqTail = ((q.popLsq cfg).lsqHead + (q.popLsq cfg).lsqNum) % cfg.lsqSize := by
  obtain ⟨n, hn⟩ := Nat.exists_eq_succ_of_ne_zero hNum
  have hLe := h.lsqNum_le
  refine ⟨Nat.mod_lt _ cfg.lsq_pos, ?_, ?_⟩
  · simp only [Rob.popLsq]
    omega
  · simp only [Rob.popLsq, hn, Nat.succ_eq_add_one, Nat.add_sub_cancel]
    rw [h.lsqTail_eq, CircularQueue.tail_pop, hn]

/-- An entry that is no address computation leaves the RUU alone. -/
theorem retireOp (hNum : q.ruuNum ≠ 0) (hEa : (q.stn (.ruu q.ruuHead)).eaComp = false) :
    QueueInv cfg (q.popRuu cfg) ∧ q.prog cfg = .ruu q.ruuHead :: (q.popRuu cfg).prog cfg := by
  have hCons := Rob.ruu_cons h.ruuHead_lt hNum
  have hSync := h.sync
  rw [hCons] at hSync
  obtain ⟨h₁, h₂, h₃⟩ := h.popRuu_ring hNum
  refine ⟨⟨h₁, h₂, h₃, h.lsqHead_lt, h.lsqNum_le, h.lsqTail_eq, hSync.of_op hEa, h.ruu_inLSQ,
    h.lsq_recoverInst⟩, ?_⟩
  unfold Rob.prog
  rw [hCons, weave, if_neg (by rw [hEa]; decide)]
  rfl

/-- A load or store leaves both queues; the LSQ has its entry at the head. -/
theorem retireMem (hNum : q.ruuNum ≠ 0) (hEa : (q.stn (.ruu q.ruuHead)).eaComp = true) :
    q.lsqNum ≠ 0 ∧ Partner q.stn (.ruu q.ruuHead) (.lsq q.lsqHead) ∧
      QueueInv cfg ((q.popLsq cfg).popRuu cfg) ∧
      q.prog cfg = .ruu q.ruuHead :: .lsq q.lsqHead :: ((q.popLsq cfg).popRuu cfg).prog cfg := by
  have hCons := Rob.ruu_cons h.ruuHead_lt hNum
  have hSync := h.sync
  rw [hCons] at hSync
  obtain ⟨l, L, hL, hPartner, hSync⟩ := hSync.of_mem hEa
  have hLsq : q.lsqNum ≠ 0 := by
    rw [← q.length_lsq cfg, hL]
    simp
  have hConsL := Rob.lsq_cons h.lsqHead_lt hLsq
  rw [hConsL] at hL
  obtain ⟨rfl, rfl⟩ := List.cons.inj hL
  obtain ⟨h₁, h₂, h₃⟩ := h.popRuu_ring hNum
  obtain ⟨l₁, l₂, l₃⟩ := h.popLsq_ring hLsq
  refine ⟨hLsq, hPartner, ⟨h₁, h₂, h₃, l₁, l₂, l₃, hSync, h.ruu_inLSQ, h.lsq_recoverInst⟩, ?_⟩
  unfold Rob.prog
  rw [hCons, hConsL, weave, if_pos hEa]
  rfl

/-! ### Dispatch -/

/-- Writing stations that are not live. -/
theorem setStn {stn' : Ref → Station env}
    (hLive : ∀ r ∈ q.prog cfg, (stn' r).ident = (q.stn r).ident)
    (hRuu : ∀ i, (stn' (.ruu i)).inLSQ = false)
    (hLsq : ∀ i, (stn' (.lsq i)).recoverInst = false) :
    QueueInv cfg { q with stn := stn' } ∧ Rob.prog { q with stn := stn' } cfg = q.prog cfg := by
  have hR : ∀ r ∈ q.ruu cfg, (stn' r).ident = (q.stn r).ident := fun r hr =>
    hLive r (h.mem_prog.mpr (.inl hr))
  have hL : ∀ l ∈ q.lsq cfg, (stn' l).ident = (q.stn l).ident := fun l hl =>
    hLive l (h.mem_prog.mpr (.inr hl))
  refine ⟨{ h with sync := h.sync.congr hR hL, ruu_inLSQ := hRuu, lsq_recoverInst := hLsq }, ?_⟩
  refine weave_congr (fun r hr => ?_) _
  have hIdent := hR r hr
  simp only [Station.ident, Prod.mk.injEq] at hIdent
  exact hIdent.2.2.2.2.2

theorem ruu_pushRuu : (q.pushRuu cfg).ruu cfg = q.ruu cfg ++ [.ruu q.ruuTail] := by
  simp only [Rob.ruu, Rob.pushRuu, CircularQueue.slots_succ_right, map_append, map_cons,
    map_nil, h.ruuTail_eq]

theorem lsq_pushLsq : (q.pushLsq cfg).lsq cfg = q.lsq cfg ++ [.lsq q.lsqTail] := by
  simp only [Rob.lsq, Rob.pushLsq, CircularQueue.slots_succ_right, map_append, map_cons,
    map_nil, h.lsqTail_eq]

theorem pushRuu_tail :
    (q.pushRuu cfg).ruuTail = (q.ruuHead + (q.ruuNum + 1)) % cfg.ruuSize := by
  simp only [Rob.pushRuu]
  rw [h.ruuTail_eq, CircularQueue.tail_succ]

theorem pushLsq_tail :
    (q.pushLsq cfg).lsqTail = (q.lsqHead + (q.lsqNum + 1)) % cfg.lsqSize := by
  simp only [Rob.pushLsq]
  rw [h.lsqTail_eq, CircularQueue.tail_succ]

theorem pushOp (hRoom : q.ruuNum < cfg.ruuSize) (hEa : (q.stn (.ruu q.ruuTail)).eaComp = false) :
    QueueInv cfg (q.pushRuu cfg) ∧ (q.pushRuu cfg).prog cfg = q.prog cfg ++ [.ruu q.ruuTail] := by
  have hRuu := h.ruu_pushRuu
  have hSync := h.sync.append (.op hEa .nil)
  have hWeave := h.sync.weave_append (S := [.ruu q.ruuTail]) (M := [])
  rw [append_nil] at hSync hWeave
  refine ⟨⟨h.ruuHead_lt, hRoom, h.pushRuu_tail, h.lsqHead_lt, h.lsqNum_le, h.lsqTail_eq, ?_,
    h.ruu_inLSQ, h.lsq_recoverInst⟩, ?_⟩
  · rw [hRuu]
    exact hSync
  · unfold Rob.prog
    rw [hRuu]
    refine hWeave.trans ?_
    simp [weave]

theorem pushMem (hRoom : q.ruuNum < cfg.ruuSize) (hRoomL : q.lsqNum < cfg.lsqSize)
    (hEa : (q.stn (.ruu q.ruuTail)).eaComp = true)
    (hPartner : Partner q.stn (.ruu q.ruuTail) (.lsq q.lsqTail)) :
    QueueInv cfg ((q.pushRuu cfg).pushLsq cfg) ∧
      ((q.pushRuu cfg).pushLsq cfg).prog cfg = q.prog cfg ++ [.ruu q.ruuTail, .lsq q.lsqTail] := by
  have hRuu := h.ruu_pushRuu
  have hLsq := h.lsq_pushLsq
  have hSync := h.sync.append (.mem hEa hPartner .nil)
  have hWeave := h.sync.weave_append (S := [.ruu q.ruuTail]) (M := [.lsq q.lsqTail])
  have hRuu' : ((q.pushRuu cfg).pushLsq cfg).ruu cfg = q.ruu cfg ++ [.ruu q.ruuTail] := hRuu
  have hLsq' : ((q.pushRuu cfg).pushLsq cfg).lsq cfg = q.lsq cfg ++ [.lsq q.lsqTail] := hLsq
  refine ⟨⟨h.ruuHead_lt, hRoom, h.pushRuu_tail, h.lsqHead_lt, hRoomL, h.pushLsq_tail, ?_,
    h.ruu_inLSQ, h.lsq_recoverInst⟩, ?_⟩
  · rw [hRuu', hLsq']
    exact hSync
  · unfold Rob.prog
    rw [hRuu', hLsq']
    refine hWeave.trans ?_
    simp [weave, hEa]

theorem tailRuu_not_mem (hRoom : q.ruuNum < cfg.ruuSize) : Ref.ruu q.ruuTail ∉ q.prog cfg := by
  rw [h.mem_prog, h.ruuTail_eq]
  rintro (hMem | hMem)
  · obtain ⟨i, hi, he⟩ := mem_map.mp hMem
    injection he with he
    rw [he] at hi
    exact CircularQueue.tail_not_mem_slots hRoom hi
  · obtain ⟨i, _, he⟩ := mem_map.mp hMem
    cases he

theorem tailLsq_not_mem (hRoom : q.lsqNum < cfg.lsqSize) : Ref.lsq q.lsqTail ∉ q.prog cfg := by
  rw [h.mem_prog, h.lsqTail_eq]
  rintro (hMem | hMem)
  · obtain ⟨i, _, he⟩ := mem_map.mp hMem
    cases he
  · obtain ⟨i, hi, he⟩ := mem_map.mp hMem
    injection he with he
    rw [he] at hi
    exact CircularQueue.tail_not_mem_slots hRoom hi

/-! ### Recovery -/

/-- The queues cut after the entries `R` and `L`. -/
theorem truncate {R R' L L' : List Ref} (hR : q.ruu cfg = R ++ R') (hL : q.lsq cfg = L ++ L')
    (hSync : InSync q.stn R L) :
    QueueInv cfg (q.truncate cfg R.length L.length) ∧
      (q.truncate cfg R.length L.length).ruu cfg = R ∧
      (q.truncate cfg R.length L.length).lsq cfg = L ∧
      q.prog cfg = (q.truncate cfg R.length L.length).prog cfg ++ weave q.stn R' L' := by
  have hNum : q.ruuNum = R.length + R'.length := by
    rw [← q.length_ruu cfg, hR, length_append]
  have hNumL : q.lsqNum = L.length + L'.length := by
    rw [← q.length_lsq cfg, hL, length_append]
  have hLe := h.ruuNum_le
  have hLeL := h.lsqNum_le
  have hRuu : (q.truncate cfg R.length L.length).ruu cfg = R := by
    have hCut := hR
    simp only [Rob.ruu, hNum, CircularQueue.slots_add, map_append] at hCut
    exact (append_inj hCut (by simp)).1
  have hLsq : (q.truncate cfg R.length L.length).lsq cfg = L := by
    have hCut := hL
    simp only [Rob.lsq, hNumL, CircularQueue.slots_add, map_append] at hCut
    exact (append_inj hCut (by simp)).1
  refine ⟨⟨h.ruuHead_lt, ?_, rfl, h.lsqHead_lt, ?_, rfl, ?_, h.ruu_inLSQ, h.lsq_recoverInst⟩,
    hRuu, hLsq, ?_⟩
  · show R.length ≤ cfg.ruuSize
    omega
  · show L.length ≤ cfg.lsqSize
    omega
  · rw [hRuu, hLsq]
    exact hSync
  · unfold Rob.prog
    rw [hRuu, hLsq, hR, hL]
    exact hSync.weave_append

end QueueInv

end SimpleScalar.Outorder

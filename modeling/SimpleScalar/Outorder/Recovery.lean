import SimpleScalar.Outorder.Queues
import SimpleScalar.Lib.Pool
import Mathlib.Tactic.Abel
import Mathlib.Tactic.FinCases

/-!
# Recovery in closed form

`ruu_recover` walks both queues backwards from their tails, with the previous index of
each in a local.  `ruuRecover_eq` says what comes out when the branch is a live entry:
the entries younger than it are squashed, the queues are cut after it, and none of
the checks on the way fires.

* `squashAll_eq`: squashing distinct stations empties their consumer lists and moves
  their tags on by one; everything else is left alone.
* `squashAll_conserves`: the links of those lists are the ones that became free.
-/

namespace SimpleScalar.Outorder

open List

variable {env : Env} {cfg : Config}

/-! ### Squashing -/

theorem rslinkFreeAll_eq {α : Type} (ls : List (RSLink α)) (s : State env) :
    rslinkFreeAll ls s =
      { s with rslinkFreeList := (ls.map RSLink.id).reverse ++ s.rslinkFreeList } := by
  induction ls generalizing s with
  | nil => rfl
  | cons l ls ih =>
    rw [rslinkFreeAll, ih]
    simp [rslinkFree]

/-- The identities of the links in a consumer list. -/
def odepIds (odepList : CVLink → List (RSLink (Fin 3))) (p : CVLink) : List Nat :=
  (odepList p).map RSLink.id

theorem odepIds_update (odepList : CVLink → List (RSLink (Fin 3))) (p : CVLink)
    (ls : List (RSLink (Fin 3))) :
    odepIds (Function.update odepList p ls) =
      Function.update (odepIds odepList) p (ls.map RSLink.id) := by
  funext k
  by_cases hk : k = p
  · subst hk
    simp [odepIds]
  · simp [odepIds, hk]

/-- The consumer lists without those of the stations in `D`. -/
def dropLists (D : List Ref) (odepList : CVLink → List (RSLink (Fin 3))) :
    CVLink → List (RSLink (Fin 3)) :=
  fun p => if p.1 ∈ D then [] else odepList p

/-- The stations of `D` squashed, with free list `free`. -/
def squashed (D : List Ref) (free : List Nat) (s : State env) : State env :=
  { s with
    rslinkFreeList := free
    odepList := dropLists D s.odepList
    tag := fun r => if r ∈ D then s.tag r + 1 else s.tag r
    gen := fun r => if r ∈ D then s.gen r + 1 else s.gen r }

theorem dropLists_singleton (rs : Ref) (odepList : CVLink → List (RSLink (Fin 3))) :
    dropLists [rs] odepList =
      Function.update (Function.update odepList (rs, 0) []) (rs, 1) [] := by
  funext ⟨r, i⟩
  by_cases hr : r = rs
  · subst hr
    fin_cases i <;> simp [dropLists]
  · simp [dropLists, hr]

theorem squash_eq (rs : Ref) (s : State env) :
    squash rs s = squashed [rs] ((odepIds s.odepList (rs, 1)).reverse ++
      ((odepIds s.odepList (rs, 0)).reverse ++ s.rslinkFreeList)) s := by
  have hLists := dropLists_singleton rs s.odepList
  have hOther : Function.update s.odepList (rs, 0) [] (rs, 1) = s.odepList (rs, 1) := by simp
  simp only [squash, rslinkFreeAll_eq, squashed, hLists, bumpTag, hOther, odepIds]
  congr 1
  · funext r
    by_cases hr : r = rs
    · subst hr
      simp
    · simp [hr]
  · funext r
    by_cases hr : r = rs
    · subst hr
      simp
    · simp [hr]

/-- The squashes of `ruu_recover`, in their order. -/
def squashAll (D : List Ref) (s : State env) : State env := D.foldl (fun s rs => squash rs s) s

theorem squashed_squashed {D : List Ref} {rs : Ref} (hNew : rs ∉ D) (free free' : List Nat)
    (s : State env) : squashed D free' (squashed [rs] free s) = squashed (rs :: D) free' s := by
  simp only [squashed]
  congr 1
  · funext r
    by_cases hr : r = rs
    · subst hr
      simp [hNew]
    · simp [hr]
  · funext ⟨r, i⟩
    by_cases hr : r = rs <;> simp [dropLists, hr]
  · funext r
    by_cases hr : r = rs
    · subst hr
      simp [hNew]
    · simp [hr]

theorem squashAll_eq {D : List Ref} (hD : D.Nodup) (s : State env) :
    ∃ free, squashAll D s = squashed D free s := by
  induction D generalizing s with
  | nil =>
    have hNone : dropLists [] s.odepList = s.odepList := by
      funext p
      simp [dropLists]
    exact ⟨s.rslinkFreeList, by simp [squashAll, squashed, hNone]⟩
  | cons rs D ih =>
    obtain ⟨hNew, hD⟩ := nodup_cons.mp hD
    obtain ⟨free, hFree⟩ := ih hD (squash rs s)
    refine ⟨free, ?_⟩
    have hStep : squashAll (rs :: D) s = squashAll D (squash rs s) := rfl
    rw [hStep, hFree, squash_eq, squashed_squashed hNew]

/-- No link is lost: what the squashed lists held is on the free list. -/
theorem squashAll_conserves {K : Finset CVLink} {D : List Ref} (hK : ∀ r ∈ D, ∀ i, (r, i) ∈ K)
    (s : State env) :
    ((squashAll D s).rslinkFreeList : Multiset Nat) + Pool.held K (odepIds (squashAll D s).odepList) =
      s.rslinkFreeList + Pool.held K (odepIds s.odepList) := by
  induction D generalizing s with
  | nil => rfl
  | cons rs D ih =>
    have hStep : squashAll (rs :: D) s = squashAll D (squash rs s) := rfl
    rw [hStep, ih fun r hr => hK r (by simp [hr]), squash_eq]
    simp only [squashed, dropLists_singleton, odepIds_update, map_nil]
    have h₀ := Pool.held_update_nil K (odepIds s.odepList) (hK rs (by simp) 0)
    have h₁ := Pool.held_update_nil K (Function.update (odepIds s.odepList) (rs, 0) [])
      (hK rs (by simp) 1)
    have hOther : Function.update (odepIds s.odepList) (rs, 0) [] (rs, 1) =
        odepIds s.odepList (rs, 1) := by simp
    rw [hOther] at h₁
    rw [← h₀, ← h₁]
    simp only [← Multiset.coe_add, Multiset.coe_reverse]
    abel

theorem squashAll_nums (D : List Ref) (m n : Nat) (s : State env) :
    squashAll D { s with ruuNum := m, lsqNum := n } =
      { squashAll D s with ruuNum := m, lsqNum := n } := by
  induction D generalizing s with
  | nil => rfl
  | cons rs D ih =>
    have hStep : ∀ s : State env, squashAll (rs :: D) s = squashAll D (squash rs s) := fun _ => rfl
    rw [hStep, hStep, ← ih, squash_eq, squash_eq]
    rfl

/-! ### The walk -/

/-- The state after a recovery that leaves `m` RUU entries and `n` LSQ entries and
squashes `D`. -/
def cutBack (cfg : Config) (m n : Nat) (D : List Ref) (s : State env) : State env :=
  { squashAll D s with
    ruuTail := (s.ruuHead + m) % cfg.ruuSize
    ruuNum := m
    lsqTail := (s.lsqHead + n) % cfg.lsqSize
    lsqNum := n
    useSpecCv := fun _ => false }

/-- The RUU entries from the `k`-th on, `m` of them. -/
def laterRuu (cfg : Config) (s : State env) (k m : Nat) : List Ref :=
  (CircularQueue.slots cfg.ruuSize (s.ruuHead + k) m).map .ruu

theorem laterRuu_succ (s : State env) (k m : Nat) :
    laterRuu cfg s k (m + 1) =
      laterRuu cfg s k m ++ [.ruu ((s.ruuHead + (k + m)) % cfg.ruuSize)] := by
  simp [laterRuu, CircularQueue.slots_succ_right, Nat.add_assoc]

theorem cutBack_nums (m n a b : Nat) (D : List Ref) (s : State env) :
    cutBack cfg m n D { s with ruuNum := a, lsqNum := b } = cutBack cfg m n D s := by
  simp only [cutBack, squashAll_nums]

theorem cutBack_squash (m n : Nat) (rs : Ref) (D : List Ref) (s : State env) :
    cutBack cfg m n D (squash rs s) = cutBack cfg m n (rs :: D) s := by
  have hHeads : (squash rs s).ruuHead = s.ruuHead ∧ (squash rs s).lsqHead = s.lsqHead := by
    rw [squash_eq]
    exact ⟨rfl, rfl⟩
  simp only [cutBack, hHeads]
  rfl

theorem squash_lsqNum (rs : Ref) (n : Nat) (s : State env) :
    squash rs { s with lsqNum := n } = { squash rs s with lsqNum := n } := by
  rw [squash_eq, squash_eq]
  rfl

/-- The walk, with the branch in the `k`-th entry and `m` entries after it.  `L₁` are the
LSQ entries up to the branch. -/
theorem ruuRecoverLoop_eq {k b : Nat} : ∀ {m : Nat} {s : State env} {L₁ L₂ : List Ref}
    {ri li pr pl n : Nat}, s.ruuHead < cfg.ruuSize → k + 1 + m ≤ cfg.ruuSize →
    s.ruuNum = k + 1 + m → n = k + 1 + m → s.rob.lsq cfg = L₁ ++ L₂ →
    InSync s.stn (laterRuu cfg s (k + 1) m) L₂ → b = (s.ruuHead + k) % cfg.ruuSize →
    ri = (s.ruuHead + (k + m)) % cfg.ruuSize → pr = (s.ruuHead + (k + 1 + m)) % cfg.ruuSize →
    pl = (s.lsqHead + s.lsqNum) % cfg.lsqSize → li = (pl + (cfg.lsqSize - 1)) % cfg.lsqSize →
    ruuRecoverLoop cfg b ri li pr pl n s =
      .ok (cutBack cfg (k + 1) L₁.length (weave s.stn (laterRuu cfg s (k + 1) m) L₂).reverse s) := by
  intro m
  induction m with
  | zero =>
    intro s L₁ L₂ ri li pr pl n hHead hRoom hNum hn hLsq hSync hb hri hpr hpl hli
    have hL₂ : L₂ = [] := by
      cases hSync
      rfl
    have hNumL : s.lsqNum = L₁.length := by
      have := congrArg List.length hLsq
      rwa [Rob.length_lsq, hL₂, append_nil] at this
    unfold ruuRecoverLoop
    rw [if_pos (by rw [hri, hb, Nat.add_zero]), hpr, hpl, hNumL]
    simp only [cutBack, laterRuu, CircularQueue.slots_zero, map_nil, weave, reverse_nil,
      Nat.add_zero, ← hNumL]
    rw [← Nat.add_zero (k + 1), ← hNum]
    rfl
  | succ m ih =>
    intro s L₁ L₂ ri li pr pl n hHead hRoom hNum hn hLsq hSync hb hri hpr hpl hli
    have hBranch : ri ≠ b := by
      intro he
      rw [hri, hb] at he
      have := CircularQueue.offset_inj (by omega) (by omega) he
      omega
    have hNotHead : ri ≠ s.ruuHead := by
      intro he
      have he' : (s.ruuHead + (k + (m + 1))) % cfg.ruuSize = (s.ruuHead + 0) % cfg.ruuSize := by
        rw [← hri, he, Nat.add_zero, Nat.mod_eq_of_lt hHead]
      have := CircularQueue.offset_inj (by omega) (by omega) he'
      omega
    have hPrev : (ri + (cfg.ruuSize - 1)) % cfg.ruuSize = (s.ruuHead + (k + m)) % cfg.ruuSize := by
      rw [hri]
      exact CircularQueue.prev_tail cfg.ruu_pos s.ruuHead (k + m)
    have hIndex : ri = (s.ruuHead + (k + 1 + m)) % cfg.ruuSize := by
      rw [hri]
      congr 1
      omega
    -- the newest entry and, for a load or a store, its partner
    rw [laterRuu_succ, ← hIndex] at hSync ⊢
    obtain ⟨L, M, rfl, hInit, hLast⟩ := hSync.split
    rw [hInit.weave_append, reverse_append]
    obtain ⟨n', rfl⟩ : ∃ n', n = n' + 1 := ⟨k + 1 + m, by omega⟩
    rw [ruuRecoverLoop, if_neg hBranch, if_neg hNotHead]
    cases hEa : (s.stn (.ruu ri)).eaComp with
    | false =>
      have hM : M = [] := by
        have := hLast.of_op hEa
        cases this
        rfl
      subst hM
      rw [append_nil] at hLsq
      obtain ⟨free, hSq⟩ : ∃ free, squash (.ruu ri) s = squashed [.ruu ri] free s :=
        ⟨_, squash_eq _ _⟩
      have hDrop : (squash (.ruu ri) s).ruuNum - 1 = k + 1 + m := by
        rw [hSq]
        show s.ruuNum - 1 = _
        omega
      have hRun := @ih { squashed [.ruu ri] free s with ruuNum := k + 1 + m } L₁ L _ li _ pl n' hHead
        (by omega) rfl (by omega) hLsq hInit hb hPrev hIndex hpl hli
      have hCut : cutBack cfg (k + 1) L₁.length (weave s.stn (laterRuu cfg s (k + 1) m) L).reverse
          { squash (.ruu ri) s with ruuNum := k + 1 + m } =
          cutBack cfg (k + 1) L₁.length
            (.ruu ri :: (weave s.stn (laterRuu cfg s (k + 1) m) L).reverse) s := by
        rw [← cutBack_squash]
        exact cutBack_nums _ _ _ _ _ _
      simp only [weave, hEa, Bool.false_eq_true, if_false, reverse_cons, reverse_nil,
        nil_append, cons_append, hDrop, ← hCut]
      rw [hSq]
      exact hRun
    | true =>
      obtain ⟨l, M', rfl, hPartner, hNil⟩ := hLast.of_mem hEa
      have hM' : M' = [] := by
        cases hNil
        rfl
      subst hM'
      obtain ⟨n₁, hn₁⟩ : ∃ n₁, s.lsqNum = n₁ + 1 := by
        have hLen := congrArg List.length hLsq
        rw [Rob.length_lsq] at hLen
        exact ⟨s.lsqNum - 1, by simp [State.rob] at hLen; omega⟩
      have hPrevL : li = (s.lsqHead + n₁) % cfg.lsqSize := by
        rw [hli, hpl, hn₁]
        exact CircularQueue.prev_tail cfg.lsq_pos s.lsqHead n₁
      -- the LSQ entry that goes is the partner
      have hCutL : (CircularQueue.slots cfg.lsqSize s.lsqHead n₁).map Ref.lsq = L₁ ++ L ∧
          Ref.lsq li = l := by
        rw [Rob.lsq] at hLsq
        simp only [State.rob, hn₁, CircularQueue.slots_succ_right, map_append, map_cons,
          map_nil, ← append_assoc] at hLsq
        obtain ⟨hInitL, hLastL⟩ := append_inj' hLsq rfl
        exact ⟨hInitL, by rw [hPrevL]; exact (List.cons.inj hLastL).1⟩
      obtain ⟨hLsq', rfl⟩ := hCutL
      obtain ⟨free, hSq⟩ : ∃ free, squash (.ruu ri) (squash (.lsq li) s) =
          squashed [.ruu ri] free (squash (.lsq li) s) := ⟨_, squash_eq _ _⟩
      obtain ⟨free', hSq'⟩ : ∃ free', squash (.lsq li) s = squashed [.lsq li] free' s :=
        ⟨_, squash_eq _ _⟩
      have hDrop : (squash (.ruu ri) (squash (.lsq li) s)).ruuNum - 1 = k + 1 + m := by
        rw [hSq, hSq']
        show s.ruuNum - 1 = _
        omega
      have hDropL : (squash (.lsq li) s).lsqNum - 1 = n₁ := by
        rw [hSq']
        show s.lsqNum - 1 = _
        omega
      have hRun := @ih { squashed [.ruu ri] free (squashed [.lsq li] free' s) with
        ruuNum := k + 1 + m, lsqNum := n₁ } L₁ L _ _ _ li n' hHead
        (by omega) rfl (by omega) hLsq' hInit hb hPrev hIndex hPrevL rfl
      have hCut : cutBack cfg (k + 1) L₁.length (weave s.stn (laterRuu cfg s (k + 1) m) L).reverse
          { squash (.ruu ri) (squash (.lsq li) s) with ruuNum := k + 1 + m, lsqNum := n₁ } =
          cutBack cfg (k + 1) L₁.length (.lsq li :: .ruu ri ::
            (weave s.stn (laterRuu cfg s (k + 1) m) L).reverse) s := by
        rw [← cutBack_squash, ← cutBack_squash]
        exact cutBack_nums _ _ _ _ _ _
      simp only [weave, hEa, if_true, reverse_cons, reverse_nil, nil_append,
        cons_append, take_succ_cons, take_zero, hn₁,
        Nat.add_one_ne_zero, if_false, squash_lsqNum, hDropL, hDrop, ← hCut]
      rw [hSq, hSq']
      exact hRun

/-- The queues cut after `m` and `n` entries, and the entries `D` after them squashed. -/
def recovered (cfg : Config) (m n : Nat) (D : List Ref) (free : List Nat) (s : State env) :
    State env :=
  { squashed D free s with
    ruuTail := (s.ruuHead + m) % cfg.ruuSize
    ruuNum := m
    lsqTail := (s.lsqHead + n) % cfg.lsqSize
    lsqNum := n
    useSpecCv := fun _ => false }

theorem squashed_reverse (D : List Ref) (free : List Nat) (s : State env) :
    squashed D.reverse free s = squashed D free s := by
  have hLists : dropLists D.reverse s.odepList = dropLists D s.odepList := by
    funext p
    simp [dropLists]
  simp [squashed, hLists]

/-- `ruu_recover` on a live entry. -/
theorem ruuRecover_eq {s : State env} (hQ : QueueInv cfg s.rob) {pre post : List Ref} {b : Nat}
    (hRuu : s.rob.ruu cfg = pre ++ .ruu b :: post) :
    ∃ L₁ L₂ free, s.rob.lsq cfg = L₁ ++ L₂ ∧ InSync s.stn (pre ++ [.ruu b]) L₁ ∧
      InSync s.stn post L₂ ∧
      ruuRecover cfg b s = .ok (recovered cfg (pre.length + 1) L₁.length (weave s.stn post L₂) free s) ∧
      ∀ K : Finset CVLink, (∀ r ∈ weave s.stn post L₂, ∀ i, (r, i) ∈ K) →
        (free : Multiset Nat) + Pool.held K (odepIds (dropLists (weave s.stn post L₂) s.odepList)) =
          s.rslinkFreeList + Pool.held K (odepIds s.odepList) := by
  have hSync := hQ.sync
  rw [hRuu, append_cons] at hSync
  obtain ⟨L₁, L₂, hLsq, h₁, h₂⟩ := hSync.split
  have hNum : s.ruuNum = pre.length + 1 + post.length := by
    have hLen := congrArg List.length hRuu
    rw [Rob.length_ruu, length_append, length_cons] at hLen
    simp only [State.rob] at hLen
    omega
  -- the entries of the list are the slots from the head on
  have hSlots : .ruu b = Ref.ruu ((s.ruuHead + pre.length) % cfg.ruuSize) ∧
      post = laterRuu cfg s (pre.length + 1) post.length := by
    have hCut := hRuu
    simp only [Rob.ruu, State.rob, hNum, CircularQueue.slots_add, map_append,
      append_assoc] at hCut
    obtain ⟨_, hRest⟩ := append_inj hCut (by simp)
    simp only [CircularQueue.slots_succ_left, CircularQueue.slots_zero, map_cons, map_nil,
      cons_append, nil_append] at hRest
    obtain ⟨hb, hPost⟩ := List.cons.inj hRest
    exact ⟨hb.symm, hPost.symm⟩
  obtain ⟨hb, hPost⟩ := hSlots
  injection hb with hb
  have hNodup : (weave s.stn post L₂).Nodup := by
    have hProg := hQ.nodup_prog
    unfold Rob.prog at hProg
    rw [hRuu, hLsq, append_cons, h₁.weave_append] at hProg
    exact (nodup_append.mp hProg).2.1
  obtain ⟨free, hFree⟩ := squashAll_eq (nodup_reverse.mpr hNodup) s
  refine ⟨L₁, L₂, free, hLsq, h₁, h₂, ?_, fun K hK => ?_⟩
  · have hLoop := @ruuRecoverLoop_eq env cfg pre.length b post.length s L₁ L₂ _ _ _ _ s.ruuNum
      hQ.ruuHead_lt (by rw [← hNum]; exact hQ.ruuNum_le) hNum hNum hLsq (by rwa [← hPost]) hb rfl
      rfl rfl rfl
    rw [← hPost] at hLoop
    have hTail : s.ruuTail = (s.ruuHead + (pre.length + 1 + post.length)) % cfg.ruuSize := by
      rw [← hNum]
      exact hQ.ruuTail_eq
    have hPrev := CircularQueue.prev_tail cfg.ruu_pos s.ruuHead (pre.length + post.length)
    unfold ruuRecover
    rw [hTail, show pre.length + 1 + post.length = pre.length + post.length + 1 by omega, hPrev,
      show pre.length + post.length + 1 = pre.length + 1 + post.length by omega,
      show s.lsqTail = (s.lsqHead + s.lsqNum) % cfg.lsqSize from hQ.lsqTail_eq, hLoop]
    simp only [cutBack, hFree, squashed_reverse, recovered]
  · have hKeep := squashAll_conserves (D := (weave s.stn post L₂).reverse)
      (fun r hr => hK r (mem_reverse.mp hr)) s
    rw [hFree, squashed_reverse] at hKeep
    exact hKeep

end SimpleScalar.Outorder

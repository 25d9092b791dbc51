import SimpleScalar.Bpred.Product
import SimpleScalar.Lib.LinkedList
import SimpleScalar.Lib.Recency

/-!
# The branch target buffer

The entries of a set are linked in the order of their last use.  `Good` says so of all
sets, and that the entries in use come first and have different addresses.  It holds of a
new BTB and after every update, so that the asserts on the pointers of a set never fail and
a set has a least recently used entry.

* `find_eq`: what the search of a lookup finds.
* `scan_eq`: the loop of an update finds the entry of the branch and both ends of the chain.
* `learn_spec`: a taken branch gets the entry of its address, or the last one of the chain if
  there is none; it becomes the first of the chain.
-/

namespace SimpleScalar.Bpred.Btb

open List LinkedList Outcome Recency
open Function (update_eq_self update_of_ne update_self)

/-- The entries of set `k`. -/
def ways (b : Btb) (k : Nat) : List Nat := List.range' (k * b.assoc.toNat) b.assoc.toNat

/-- The set of an address. -/
def set (b : Btb) (baddr : Word) : Nat := ((baddr >>> 3) &&& (b.sets - 1)).toNat

theorem base_eq (b : Btb) (baddr : Word) : b.base baddr = b.set baddr * b.assoc.toNat := rfl

def next (b : Btb) (i : Nat) : Option Nat := (b.data i).next

def prev (b : Btb) (i : Nat) : Option Nat := (b.data i).prev

/-- The address an entry is for; zero is no address. -/
def lab (b : Btb) (i : Nat) : Option Word := if (b.data i).addr = 0 then none else some (b.data i).addr

/-- The chain of set `k`, most recently used entry first. -/
def ChainOf (b : Btb) (k : Nat) (l : List Nat) : Prop :=
  l.Perm (b.ways k) ∧ Doubly l.head? l.getLast? b.next b.prev l

/-- A BTB with all its entries and chains. -/
structure Good (b : Btb) : Prop where
  sets : b.sets ≠ 0
  assoc : 1 ≤ b.assoc.toNat
  len : b.len = b.sets.toNat * b.assoc.toNat
  chain : ∀ k < b.sets.toNat, ∃ l, b.ChainOf k l ∧ Packed b.lab l

variable {b : Btb} {baddr : Word}

variable {i : Nat}

theorem lab_eq_some (h : baddr ≠ 0) : b.lab i = some baddr ↔ (b.data i).addr = baddr := by
  unfold lab
  split
  · rename_i hZero
    rw [hZero]
    exact iff_of_false (by simp) (Ne.symm h)
  · simp

variable {k i : Nat}

theorem mem_ways : i ∈ b.ways k ↔ k * b.assoc.toNat ≤ i ∧
    i < k * b.assoc.toNat + b.assoc.toNat := by
  unfold ways
  rw [mem_range'_1]

theorem length_ways (b : Btb) (k : Nat) : (b.ways k).length = b.assoc.toNat := length_range' ..

theorem set_lt (h : b.sets ≠ 0) (baddr : Word) : b.set baddr < b.sets.toNat := and_pred_lt _ h

theorem ways_lt (hLen : b.len = b.sets.toNat * b.assoc.toNat) (hk : k < b.sets.toNat)
    (hi : i ∈ b.ways k) : i < b.len := by
  have hMul : (k + 1) * b.assoc.toNat ≤ b.sets.toNat * b.assoc.toNat := Nat.mul_le_mul_right _ hk
  rw [Nat.add_mul, Nat.one_mul] at hMul
  have hUpper := (mem_ways.mp hi).2
  rw [hLen]
  omega

/-- Sets are disjoint. -/
theorem ways_disjoint {k k' i : Nat} (hi : i ∈ b.ways k) (hi' : i ∈ b.ways k') : k = k' := by
  have hDiv : ∀ j, i ∈ b.ways j → i / b.assoc.toNat = j := by
    intro j hj
    obtain ⟨hLower, hUpper⟩ := mem_ways.mp hj
    exact Nat.div_eq_of_lt_le hLower (by rw [Nat.add_mul, Nat.one_mul]; exact hUpper)
  rw [← hDiv k hi, ← hDiv k' hi']

/-- Every entry is in a set. -/
theorem exists_ways (hLen : b.len = b.sets.toNat * b.assoc.toNat) (hi : i < b.len) :
    ∃ k < b.sets.toNat, i ∈ b.ways k := by
  rw [hLen] at hi
  refine ⟨i / b.assoc.toNat, Nat.div_lt_of_lt_mul (by rwa [Nat.mul_comm]), mem_ways.mpr ⟨?_, ?_⟩⟩
  · exact Nat.div_mul_le_self ..
  · have hPos : 0 < b.assoc.toNat := Nat.pos_of_ne_zero fun hZero => by
      rw [hZero, Nat.mul_zero] at hi
      omega
    have hMod := Nat.mod_lt i hPos
    have hDiv := Nat.div_add_mod i b.assoc.toNat
    rw [Nat.mul_comm] at hDiv
    omega

theorem ent_eq (hLen : b.len = b.sets.toNat * b.assoc.toNat) (hk : k < b.sets.toNat)
    (hi : i ∈ b.ways k) : b.ent i = .ok (b.data i) :=
  if_pos (ways_lt hLen hk hi)

/-! ### Searches -/

theorem firstMatch_eq : ∀ {n i : Nat}, (∀ j ∈ List.range' i n, b.ent j = .ok (b.data j)) →
    b.firstMatch baddr n i = .ok ((List.range' i n).find? fun j => (b.data j).addr = baddr) := by
  intro n
  induction n with
  | zero => intro i _; rfl
  | succ n ih =>
    intro i hEnt
    rw [List.range'_succ] at hEnt ⊢
    rw [firstMatch, hEnt i (by simp), List.find?_cons]
    show (if (b.data i).addr = baddr then _ else _) = _
    by_cases hAddr : (b.data i).addr = baddr
    · rw [if_pos hAddr, decide_eq_true hAddr]
      rfl
    · rw [if_neg hAddr, decide_eq_false hAddr]
      exact ih fun j hj => hEnt j (mem_cons_of_mem _ hj)

/-- The search of a lookup. -/
theorem find_eq (h : b.Good) (baddr : Word) :
    b.find baddr = .ok ((b.ways (b.set baddr)).find? fun j => (b.data j).addr = baddr) :=
  firstMatch_eq fun _ hj => ent_eq h.len (set_lt h.sets baddr) hj

theorem assert_bind {α : Type} {c : Bool} (h : c = true) (k : Unit → Except Fault α) :
    (assert c >>= k) = k () := by
  rw [assert, if_pos h]
  rfl

variable {P : Nat → Bool} {L : List Nat}

/-- A pointer that the loop sets at most once. -/
theorem keep_one {x : Option Nat} (h : x.toList.length + (i :: L).countP P ≤ 1) :
    (!(P i && x.isSome)) = true ∧ (if P i then some i else x).toList.length + L.countP P ≤ 1 ∧
      (if P i then some i else x).or (L.find? P) = x.or ((i :: L).find? P) := by
  rw [countP_cons] at h
  cases hP : P i with
  | false =>
    rw [hP, if_neg (by decide)] at h
    refine ⟨rfl, by rwa [if_neg (by decide)], ?_⟩
    rw [if_neg (by decide), List.find?_cons, hP]
  | true =>
    rw [hP, if_pos rfl] at h
    cases x with
    | none =>
      refine ⟨rfl, ?_, ?_⟩
      · rw [if_pos rfl, Option.toList_some, length_singleton]
        exact (Nat.add_comm _ _).le.trans ((Nat.zero_add _).symm.le.trans h)
      · rw [if_pos rfl, List.find?_cons, hP]
        rfl
    | some j =>
      simp only [Option.toList_some, length_singleton] at h
      omega

/-- The loop of an update: it keeps the entry with the address and those without a predecessor or a
successor.  No assert fails if there is at most one of each. -/
theorem scan_eq : ∀ {n i : Nat} {x : Scan}, (∀ j ∈ List.range' i n, b.ent j = .ok (b.data j)) →
    (∀ j ∈ List.range' i n, b.prev j ≠ b.next j) →
    x.pbtb.toList.length + (List.range' i n).countP (fun j => (b.data j).addr = baddr) ≤ 1 →
    x.lruhead.toList.length + (List.range' i n).countP (fun j => (b.prev j).isNone) ≤ 1 →
    x.lruitem.toList.length + (List.range' i n).countP (fun j => (b.next j).isNone) ≤ 1 →
    b.scan baddr n i x = .ok
      ⟨x.pbtb.or ((List.range' i n).find? fun j => (b.data j).addr = baddr),
        x.lruhead.or ((List.range' i n).find? fun j => (b.prev j).isNone),
        x.lruitem.or ((List.range' i n).find? fun j => (b.next j).isNone)⟩ := by
  intro n
  induction n with
  | zero =>
    intro i x _ _ _ _ _
    simp [scan]
  | succ n ih =>
    intro i x hEnt hNe hAddr hPrev hNext
    rw [List.range'_succ] at hEnt hNe hAddr hPrev hNext ⊢
    obtain ⟨hAssert₁, hAddr, hFind₁⟩ := keep_one hAddr
    obtain ⟨hAssert₂, hPrev, hFind₂⟩ := keep_one hPrev
    obtain ⟨hAssert₃, hNext, hFind₃⟩ := keep_one hNext
    have hOne : b.scanOne baddr i x = .ok ⟨if decide ((b.data i).addr = baddr) then some i else x.pbtb,
        if (b.prev i).isNone then some i else x.lruhead, if (b.next i).isNone then some i else x.lruitem⟩ := by
      have hLinks : b.prev i ≠ b.next i := hNe i (by simp)
      unfold scanOne
      rw [hEnt i (by simp)]
      refine (assert_bind hAssert₁ _).trans ?_
      refine (assert_bind (decide_eq_true hLinks) _).trans ?_
      refine (assert_bind hAssert₂ _).trans ?_
      refine (assert_bind hAssert₃ _).trans ?_
      simp only [decide_eq_true_eq]
      rfl
    rw [scan, hOne, ← hFind₁, ← hFind₂, ← hFind₃]
    exact ih (fun j hj => hEnt j (mem_cons_of_mem _ hj)) (fun j hj => hNe j (mem_cons_of_mem _ hj))
      hAddr hPrev hNext

/-! ### Chains -/

theorem countP_le_one (hNodup : L.Nodup)
    (hOne : ∀ i ∈ L, ∀ j ∈ L, P i = true → P j = true → i = j) : L.countP P ≤ 1 := by
  induction L with
  | nil => exact Nat.zero_le _
  | cons i L ih =>
    obtain ⟨hi, hNodup⟩ := nodup_cons.mp hNodup
    rw [countP_cons]
    by_cases hP : P i = true
    · have hNone : L.countP P = 0 := countP_eq_zero.mpr fun j hj hPj =>
        hi (hOne i (by simp) j (by simp [hj]) hP hPj ▸ hj)
      rw [hNone, if_pos hP]
    · rw [if_neg hP]
      exact ih hNodup fun i hi j hj => hOne i (by simp [hi]) j (by simp [hj])

theorem find?_of_unique (hi : i ∈ L) (hP : P i = true)
    (hOne : ∀ j ∈ L, P j = true → j = i) : L.find? P = some i := by
  cases hFind : L.find? P with
  | none => exact absurd hP (List.find?_eq_none.mp hFind i hi)
  | some j => rw [hOne j (mem_of_find?_eq_some hFind) (List.find?_some hFind)]

section

variable {k : Nat} {l : List Nat}

theorem ChainOf.length (h : b.ChainOf k l) : l.length = b.assoc.toNat :=
  h.1.length_eq.trans (b.length_ways k)

theorem ChainOf.nodup (h : b.ChainOf k l) : l.Nodup := h.2.nodup

theorem ChainOf.mem (h : b.ChainOf k l) : i ∈ l ↔ i ∈ b.ways k := h.1.mem_iff

/-- Only the first entry has no predecessor. -/
theorem ChainOf.prev_none (h : b.ChainOf k l) (hi : i ∈ l) : b.prev i = none ↔ l.head? = some i := by
  obtain ⟨u, v, rfl⟩ := append_of_mem hi
  rw [h.2.prev_eq, h.2.head_eq_some, List.getLast?_eq_none_iff]

/-- Only the last entry has no successor. -/
theorem ChainOf.next_none (h : b.ChainOf k l) (hi : i ∈ l) : b.next i = none ↔ l.getLast? = some i := by
  obtain ⟨u, v, rfl⟩ := append_of_mem hi
  rw [h.2.next_eq, h.2.tail_eq_some, List.head?_eq_none_iff]

theorem ChainOf.prev_ne_next (h : b.ChainOf k l) (hAssoc : 1 < b.assoc.toNat) (hi : i ∈ l) :
    b.prev i ≠ b.next i := by
  have hLen := h.length
  have hNodup := h.nodup
  obtain ⟨u, v, rfl⟩ := append_of_mem hi
  rw [h.2.prev_eq, h.2.next_eq]
  intro hEq
  cases v with
  | nil =>
    have hu : u = [] := by simpa using hEq
    rw [hu] at hLen
    simp only [nil_append, length_singleton] at hLen
    omega
  | cons y v =>
    have hy : y ∈ u := mem_of_getLast? hEq
    exact (nodup_append.mp hNodup).2.2 y hy y (by simp) rfl

/-- What the loop finds. -/
theorem ChainOf.scan_eq (h : b.ChainOf (b.set baddr) l) (hPacked : Packed b.lab l) (hGood : b.Good)
    (hAddr : baddr ≠ 0) (hAssoc : 1 < b.assoc.toNat) :
    b.scan baddr b.assoc.toNat (b.base baddr) {} =
      .ok ⟨(b.ways (b.set baddr)).find? fun j => (b.data j).addr = baddr, l.head?, l.getLast?⟩ := by
  have hNodup : (b.ways (b.set baddr)).Nodup := h.1.nodup_iff.mp h.nodup
  have hHead : ∀ j ∈ b.ways (b.set baddr), (b.prev j).isNone = true ↔ l.head? = some j := fun j hj =>
    Option.isNone_iff_eq_none.trans (h.prev_none (h.mem.mpr hj))
  have hLast : ∀ j ∈ b.ways (b.set baddr), (b.next j).isNone = true ↔ l.getLast? = some j := fun j hj =>
    Option.isNone_iff_eq_none.trans (h.next_none (h.mem.mpr hj))
  have hPos : l ≠ [] := by
    intro hNil
    have hLen := h.length
    rw [hNil, length_nil] at hLen
    omega
  refine (Btb.scan_eq (fun j hj => ent_eq hGood.len (set_lt hGood.sets baddr) hj)
    (fun j hj => h.prev_ne_next hAssoc (h.mem.mpr hj)) ?_ ?_ ?_).trans ?_
  · refine (Nat.zero_add _).le.trans (countP_le_one hNodup fun i hi j hj hP hP' => ?_)
    exact hPacked.distinct i (h.mem.mpr hi) j (h.mem.mpr hj) baddr ((lab_eq_some hAddr).mpr (of_decide_eq_true hP))
      ((lab_eq_some hAddr).mpr (of_decide_eq_true hP'))
  · refine (Nat.zero_add _).le.trans (countP_le_one hNodup fun i hi j hj hP hP' => ?_)
    exact Option.some.inj (((hHead i hi).mp hP).symm.trans ((hHead j hj).mp hP'))
  · refine (Nat.zero_add _).le.trans (countP_le_one hNodup fun i hi j hj hP hP' => ?_)
    exact Option.some.inj (((hLast i hi).mp hP).symm.trans ((hLast j hj).mp hP'))
  · have hFirst : (b.ways (b.set baddr)).find? (fun j => (b.prev j).isNone) = l.head? := by
      rw [List.head?_eq_some_head hPos]
      have hIn := h.mem.mp (head_mem hPos)
      exact find?_of_unique hIn ((hHead _ hIn).mpr (List.head?_eq_some_head hPos)) fun j hj hP =>
        Option.some.inj (((hHead j hj).mp hP).symm.trans (List.head?_eq_some_head hPos))
    have hEnd : (b.ways (b.set baddr)).find? (fun j => (b.next j).isNone) = l.getLast? := by
      rw [List.getLast?_eq_some_getLast hPos]
      have hIn := h.mem.mp (getLast_mem hPos)
      exact find?_of_unique hIn ((hLast _ hIn).mpr (List.getLast?_eq_some_getLast hPos)) fun j hj hP =>
        Option.some.inj (((hLast j hj).mp hP).symm.trans (List.getLast?_eq_some_getLast hPos))
    rw [← hFirst, ← hEnd]
    rfl

end

/-! ### Promotion -/

variable {l : List Nat}

theorem ends {head tail : Option Nat} {next prev : Nat → Option Nat}
    (h : Doubly head tail next prev l) : Doubly l.head? l.getLast? next prev l := by
  rw [← h.head_eq, ← h.tail_eq]
  exact h

/-- The branch and the target of an entry. -/
def entry (b : Btb) (i : Nat) : Word × Word := ((b.data i).addr, (b.data i).target)

/-- The BTBs differ in the links at most. -/
structure SameEntries (b b' : Btb) : Prop where
  sets : b'.sets = b.sets
  assoc : b'.assoc = b.assoc
  len : b'.len = b.len
  entry : b'.entry = b.entry

/-- An assignment to a field of a node, through a pointer that may be null. -/
def patch (f : Nat → Option Nat) (p q : Option Nat) : Nat → Option Nat :=
  match p with
  | none => f
  | some i => Function.update f i q

theorem data_update {α : Type} (g : BtbEnt → α) (data : Nat → BtbEnt) (i : Nat) (e : BtbEnt) :
    (fun j => g (Function.update data i e j)) = Function.update (fun j => g (data j)) i (g e) := by
  funext j
  by_cases hj : j = i
  · subst hj
    rw [update_self, update_self]
  · rw [update_of_ne hj, update_of_ne hj]

theorem setNext_spec (b : Btb) (p q : Option Nat) :
    (b.setNext p q).next = patch b.next p q ∧ (b.setNext p q).prev = b.prev ∧ SameEntries b (b.setNext p q) := by
  cases p with
  | none => exact ⟨rfl, rfl, rfl, rfl, rfl, rfl⟩
  | some i =>
    refine ⟨data_update BtbEnt.next .., ?_, rfl, rfl, rfl, ?_⟩
    · exact (data_update BtbEnt.prev ..).trans (update_eq_self i _)
    · exact (data_update (fun e => (e.addr, e.target)) ..).trans (update_eq_self i _)

theorem setPrev_spec (b : Btb) (p q : Option Nat) :
    (b.setPrev p q).prev = patch b.prev p q ∧ (b.setPrev p q).next = b.next ∧ SameEntries b (b.setPrev p q) := by
  cases p with
  | none => exact ⟨rfl, rfl, rfl, rfl, rfl, rfl⟩
  | some i =>
    refine ⟨data_update BtbEnt.prev .., ?_, rfl, rfl, rfl, ?_⟩
    · exact (data_update BtbEnt.next ..).trans (update_eq_self i _)
    · exact (data_update (fun e => (e.addr, e.target)) ..).trans (update_eq_self i _)

theorem SameEntries.trans {b b' b'' : Btb} (h : SameEntries b b') (h' : SameEntries b' b'') : SameEntries b b'' :=
  ⟨h'.sets.trans h.sets, h'.assoc.trans h.assoc, h'.len.trans h.len, h'.entry.trans h.entry⟩

/-- The links after a promotion; the entry is not the first one, so it has a predecessor `y`. -/
theorem promote_eq {x head y : Nat} (hPrev : b.prev x = some y) (hy : y ≠ x) (hHead : x ≠ head) :
    ∃ b', b.promote x head = .ok b' ∧ SameEntries b b' ∧
      b'.next = Function.update (Function.update b.next y (b.next x)) x (some head) ∧
      b'.prev = Function.update (Function.update (patch b.prev (b.next x) (some y)) x none) head (some x) := by
  obtain ⟨b₁, hb₁⟩ : ∃ c, c = b.setNext (b.prev x) (b.next x) := ⟨_, rfl⟩
  obtain ⟨b₂, hb₂⟩ : ∃ c, c = b₁.setPrev (b₁.next x) (b₁.prev x) := ⟨_, rfl⟩
  obtain ⟨b₃, hb₃⟩ : ∃ c, c = b₂.setNext (some x) (some head) := ⟨_, rfl⟩
  obtain ⟨b₄, hb₄⟩ : ∃ c, c = b₃.setPrev (some x) none := ⟨_, rfl⟩
  obtain ⟨b₅, hb₅⟩ : ∃ c, c = b₄.setPrev (some head) (some x) := ⟨_, rfl⟩
  have hPromote : b.promote x head = (do
      assert ((b₅.prev x).isSome || (b₅.next x).isSome)
      assert (decide (b₅.prev x ≠ b₅.next x))
      return b₅) := by
    subst hb₅ hb₄ hb₃ hb₂ hb₁
    rfl
  obtain ⟨hNext₁, hPrev₁, hSame₁⟩ := hb₁ ▸ setNext_spec b (b.prev x) (b.next x)
  obtain ⟨hPrev₂, hNext₂, hSame₂⟩ := hb₂ ▸ setPrev_spec b₁ (b₁.next x) (b₁.prev x)
  obtain ⟨hNext₃, hPrev₃, hSame₃⟩ := hb₃ ▸ setNext_spec b₂ (some x) (some head)
  obtain ⟨hPrev₄, hNext₄, hSame₄⟩ := hb₄ ▸ setPrev_spec b₃ (some x) none
  obtain ⟨hPrev₅, hNext₅, hSame₅⟩ := hb₅ ▸ setPrev_spec b₄ (some head) (some x)
  have hNext : b₅.next = Function.update (Function.update b.next y (b.next x)) x (some head) := by
    rw [hNext₅, hNext₄, hNext₃, hNext₂, hNext₁, hPrev]
    rfl
  have hPrev : b₅.prev = Function.update (Function.update (patch b.prev (b.next x) (some y)) x none) head (some x) := by
    rw [hPrev₅, hPrev₄, hPrev₃, hPrev₂, hNext₁, hPrev₁, hPrev]
    have hOld : patch b.next (some y) (b.next x) x = b.next x := update_of_ne hy.symm ..
    rw [hOld]
    rfl
  have hAtNext : b₅.next x = some head := by rw [hNext, update_self]
  have hAtPrev : b₅.prev x = none := by rw [hPrev, update_of_ne hHead, update_self]
  refine ⟨b₅, ?_, (((hSame₁.trans hSame₂).trans hSame₃).trans hSame₄).trans hSame₅, hNext, hPrev⟩
  rw [hPromote, hAtNext, hAtPrev]
  rfl

/-- An entry behind the first one becomes the first of its chain. -/
theorem ChainOf.promote {k x head : Nat} {u v : List Nat} (h : b.ChainOf k (head :: u ++ x :: v)) :
    ∃ b', b.promote x head = .ok b' ∧ SameEntries b b' ∧ b'.ChainOf k (x :: (head :: u ++ v)) ∧
      ∀ j ∉ head :: u ++ x :: v, b'.next j = b.next j ∧ b'.prev j = b.prev j := by
  obtain ⟨w, y, hw⟩ : ∃ w y, head :: u = w ++ [y] :=
    ⟨_, _, (dropLast_append_getLast (cons_ne_nil head u)).symm⟩
  have hNodup := h.nodup
  have hOut : x ∉ head :: u ++ v := (nodup_middle.mp hNodup).notMem
  have hy : y ∈ head :: u := by rw [hw]; simp
  have hyx : y ≠ x := by
    rintro rfl
    exact hOut (mem_append_left _ hy)
  have hHead : x ≠ head := by
    rintro rfl
    exact hOut (by simp)
  have hNext : b.next x = v.head? := h.2.next_eq
  have hPrev : b.prev x = some y := by
    rw [h.2.prev_eq, hw]
    exact List.getLast?_concat ..
  obtain ⟨b', hPromote, hSame, hNext', hPrev'⟩ := promote_eq hPrev hyx hHead
  refine ⟨b', hPromote, hSame, ⟨?_, ?_⟩, ?_⟩
  · have hWays : b'.ways k = b.ways k := by rw [ways, ways, hSame.assoc]
    rw [hWays]
    exact perm_middle.symm.trans h.1
  · -- the entry is taken out, and then put in front
    have hDoubly := h.2
    rw [hNext', hPrev', hNext]
    cases v with
    | nil =>
      rw [hw, append_assoc] at hDoubly
      have hRest := hDoubly.dropLast_of_append
      rw [← hw] at hRest
      rw [append_nil] at hOut ⊢
      exact ends (hRest.push hOut)
    | cons z v =>
      rw [hw, append_assoc] at hDoubly
      have hRest := hDoubly.erase
      rw [show w ++ y :: z :: v = head :: (u ++ z :: v) by rw [← cons_append, hw]; simp] at hRest
      exact ends (hRest.push hOut)
  · intro j hj
    have hjx : j ≠ x := by
      rintro rfl
      exact hj (by simp)
    have hjy : j ≠ y := by
      rintro rfl
      exact hj (mem_append_left _ hy)
    have hjh : j ≠ head := by
      rintro rfl
      exact hj (by simp)
    rw [hNext', hPrev', update_of_ne hjx, update_of_ne hjy, update_of_ne hjh,
      update_of_ne hjx, hNext]
    refine ⟨rfl, ?_⟩
    cases v with
    | nil => rfl
    | cons z v =>
      refine update_of_ne ?_ ..
      rintro rfl
      exact hj (by simp)

theorem SameEntries.refl (b : Btb) : SameEntries b b := ⟨rfl, rfl, rfl, rfl⟩

/-- What a selection leaves: the entry is the first of its chain, and the entries of other sets keep
their links. -/
structure Selected (b : Btb) (k : Nat) (l : List Nat) (i : Nat) (b' : Btb) : Prop where
  same : SameEntries b b'
  mem : i ∈ l
  chain : b'.ChainOf k (i :: l.erase i)
  apart : ∀ j ∉ l, b'.next j = b.next j ∧ b'.prev j = b.prev j

/-- An entry of the set is moved to the front, unless it is there. -/
theorem ChainOf.select {k head i : Nat} (h : b.ChainOf k l) (hHead : l.head? = some head)
    (hi : i ∈ l) : ∃ b', (if i ≠ head then b.promote i head else .ok b) = .ok b' ∧ b.Selected k l i b' := by
  obtain ⟨t, rfl⟩ := List.head?_eq_some_iff.mp hHead
  by_cases hEq : i = head
  · subst hEq
    refine ⟨b, if_neg (not_not.mpr rfl), .refl b, hi, ?_, fun _ _ => ⟨rfl, rfl⟩⟩
    rw [erase_cons_head]
    exact h
  · have hTail : i ∈ t := (mem_cons.mp hi).resolve_left hEq
    obtain ⟨u, v, rfl⟩ := append_of_mem hTail
    obtain ⟨b', hPromote, hSame, hChain, hApart⟩ := h.promote
    refine ⟨b', by rw [if_pos hEq, hPromote], hSame, hi, ?_, hApart⟩
    have hOut : i ∉ head :: u := by
      intro hIn
      exact (nodup_append.mp (show (head :: u ++ i :: v).Nodup from h.nodup)).2.2 i hIn i (by simp) rfl
    rw [← cons_append, erase_append_right _ hOut, erase_cons_head]
    exact hChain

/-- A taken branch gets the entry of its address, or else the last one of its set. -/
theorem select_spec (hGood : b.Good) (hAddr : baddr ≠ 0) (h : b.ChainOf (b.set baddr) l)
    (hPacked : Packed b.lab l) :
    ∃ i b', b.select baddr = .ok (i, b') ∧ b.Selected (b.set baddr) l i b' ∧
      ((b.data i).addr = baddr ∨ (∀ j ∈ l, (b.data j).addr ≠ baddr) ∧ l.getLast? = some i) := by
  have hLen := h.length
  have hPos := hGood.assoc
  unfold Btb.select
  by_cases hAssoc : 1 < b.assoc.toNat
  · have hNil : l ≠ [] := by
      rintro rfl
      rw [length_nil] at hLen
      omega
    rw [if_pos hAssoc, h.scan_eq hPacked hGood hAddr hAssoc]
    have hHead := List.head?_eq_some_head hNil
    have hLast := List.getLast?_eq_some_getLast hNil
    -- the entry that matches, or the last one
    have hChoice : ∃ i ∈ l, ((b.ways (b.set baddr)).find? fun j => (b.data j).addr = baddr).getD
        (l.getLast hNil) = i ∧
        ((b.data i).addr = baddr ∨ (∀ j ∈ l, (b.data j).addr ≠ baddr) ∧ l.getLast? = some i) := by
      cases hFind : (b.ways (b.set baddr)).find? fun j => (b.data j).addr = baddr with
      | none =>
        refine ⟨l.getLast hNil, getLast_mem hNil, rfl, .inr ⟨fun j hj => ?_, hLast⟩⟩
        simpa using List.find?_eq_none.mp hFind j (h.mem.mp hj)
      | some i =>
        refine ⟨i, h.mem.mpr (mem_of_find?_eq_some hFind), rfl, .inl ?_⟩
        simpa using List.find?_some hFind
    obtain ⟨i, hi, hGet, hMatch⟩ := hChoice
    obtain ⟨b', hSelect, hSelected⟩ := h.select hHead hi
    refine ⟨i, b', ?_, hSelected, hMatch⟩
    rw [hHead, hLast]
    show (if _ ≠ l.head hNil then _ else _) = _
    rw [hGet]
    by_cases hEq : i ≠ l.head hNil
    · rw [if_pos hEq] at hSelect ⊢
      rw [hSelect]
      rfl
    · rw [if_neg hEq] at hSelect ⊢
      cases hSelect
      rfl
  · have hOne : b.assoc.toNat = 1 := by omega
    rw [if_neg hAssoc]
    obtain ⟨i, rfl⟩ := length_eq_one_iff.mp (hLen.trans hOne)
    have hBase : b.base baddr = i := by
      have hIn := h.mem.mp (mem_singleton_self i)
      obtain ⟨hLower, hUpper⟩ := mem_ways.mp hIn
      rw [base_eq]
      omega
    refine ⟨i, b, by rw [hBase], ⟨.refl b, by simp, ?_, fun _ _ => ⟨rfl, rfl⟩⟩, ?_⟩
    · rw [erase_cons_head]
      exact h
    · by_cases hMatch : (b.data i).addr = baddr
      · exact .inl hMatch
      · exact .inr ⟨by simpa using hMatch, rfl⟩

/-! ### Learning a branch -/

/-- What an update does to the BTB for a taken branch. -/
def learn (b : Btb) (baddr btarget : Word) (correct : Bool) (op : Opcode) : Except Fault Btb := do
  let (i, b) ← b.select baddr
  b.write i baddr btarget correct op

/-- The links stay, and entry `i` is for the branch. -/
theorem write_spec (hi : b.ent i = .ok (b.data i)) (btarget : Word) (correct : Bool) (op : Opcode) :
    ∃ b', b.write i baddr btarget correct op = .ok b' ∧ b'.sets = b.sets ∧ b'.assoc = b.assoc ∧
      b'.len = b.len ∧ b'.next = b.next ∧ b'.prev = b.prev ∧
      b'.entry = Function.update b.entry i
        (baddr, if (b.data i).addr = baddr ∧ correct = true then (b.data i).target else btarget) := by
  unfold write
  rw [hi]
  show ∃ b', (if (b.data i).addr = baddr then _ else _) = _ ∧ _
  by_cases hAddr : (b.data i).addr = baddr
  · rw [if_pos hAddr]
    cases correct with
    | true =>
      refine ⟨b, rfl, rfl, rfl, rfl, rfl, rfl, ?_⟩
      rw [if_pos ⟨hAddr, rfl⟩, ← hAddr]
      exact (update_eq_self i b.entry).symm
    | false =>
      refine ⟨_, rfl, rfl, rfl, rfl, ?_, ?_, ?_⟩
      · exact (data_update BtbEnt.next ..).trans (update_eq_self i _)
      · exact (data_update BtbEnt.prev ..).trans (update_eq_self i _)
      · rw [if_neg (by simp), ← hAddr]
        exact data_update (fun e => (e.addr, e.target)) ..
  · rw [if_neg hAddr, if_neg fun h => hAddr h.1]
    refine ⟨_, rfl, rfl, rfl, rfl, ?_, ?_, ?_⟩
    · exact (data_update BtbEnt.next ..).trans (update_eq_self i _)
    · exact (data_update BtbEnt.prev ..).trans (update_eq_self i _)
    · exact data_update (fun e => (e.addr, e.target)) ..

/-- What learning a branch with target `t` leaves: entry `i` of its set is for it and the first of the
chain. -/
structure Learned (b : Btb) (baddr t : Word) (l : List Nat) (i : Nat) (b' : Btb) : Prop where
  sets : b'.sets = b.sets
  assoc : b'.assoc = b.assoc
  len : b'.len = b.len
  mem : i ∈ l
  chain : b'.ChainOf (b.set baddr) (i :: l.erase i)
  apart : ∀ j ∉ l, b'.next j = b.next j ∧ b'.prev j = b.prev j
  entry : b'.entry = Function.update b.entry i (baddr, t)

theorem learn_spec (hGood : b.Good) (hAddr : baddr ≠ 0) (h : b.ChainOf (b.set baddr) l)
    (hPacked : Packed b.lab l) (btarget : Word) (correct : Bool) (op : Opcode) :
    ∃ i b', b.learn baddr btarget correct op = .ok b' ∧
      b.Learned baddr (if (b.data i).addr = baddr ∧ correct = true then (b.data i).target else btarget) l i b' ∧
      ((b.data i).addr = baddr ∨ (∀ j ∈ l, (b.data j).addr ≠ baddr) ∧ l.getLast? = some i) := by
  obtain ⟨i, b₁, hSelect, hSelected, hMatch⟩ := select_spec hGood hAddr h hPacked
  have hData : ((b₁.data i).addr, (b₁.data i).target) = ((b.data i).addr, (b.data i).target) :=
    congrFun hSelected.same.entry i
  have hEnt : b₁.ent i = .ok (b₁.data i) := by
    refine if_pos ?_
    rw [hSelected.same.len]
    exact ways_lt hGood.len (set_lt hGood.sets baddr) (h.mem.mp hSelected.mem)
  obtain ⟨b₂, hWrite, hSets, hAssoc, hLen, hNext, hPrev, hEntry⟩ := write_spec hEnt btarget correct op
  refine ⟨i, b₂, ?_, ⟨?_, ?_, ?_, hSelected.mem, ?_, ?_, ?_⟩, hMatch⟩
  · rw [learn, hSelect]
    exact hWrite
  · rw [hSets, hSelected.same.sets]
  · rw [hAssoc, hSelected.same.assoc]
  · rw [hLen, hSelected.same.len]
  · have hChain := hSelected.chain
    unfold ChainOf ways at hChain ⊢
    rw [hNext, hPrev, hAssoc]
    exact hChain
  · rw [hNext, hPrev]
    exact hSelected.apart
  · rw [hEntry, hSelected.same.entry, (Prod.mk.inj hData).1, (Prod.mk.inj hData).2]

section

variable {t : Word} {l : List Nat} {i : Nat} {b' : Btb}

/-- The entries of other sets stay. -/
theorem Learned.other (h : b.Learned baddr t l i b') (hChain : b.ChainOf (b.set baddr) l) {k : Nat}
    (hk : k ≠ b.set baddr) {l' : List Nat} (hl' : b.ChainOf k l') :
    b'.ChainOf k l' ∧ ∀ j ∈ l', b'.entry j = b.entry j := by
  have hOut : ∀ j ∈ l', j ∉ l := fun j hj hIn =>
    hk (ways_disjoint (hl'.mem.mp hj) (hChain.mem.mp hIn))
  refine ⟨⟨?_, ⟨?_, ?_, hl'.nodup⟩⟩, fun j hj => ?_⟩
  · unfold ways
    rw [h.assoc]
    exact hl'.1
  · exact hl'.2.forward.congr fun j hj => (h.apart j (hOut j hj)).1
  · exact hl'.2.backward.congr fun j hj => (h.apart j (hOut j (mem_reverse.mp hj))).2
  · rw [h.entry]
    refine update_of_ne ?_ ..
    rintro rfl
    exact hOut j hj h.mem

theorem lab_of_entry {j : Nat} (h : b'.entry j = b.entry j) : b'.lab j = b.lab j := by
  unfold lab
  rw [show (b'.data j).addr = (b.data j).addr from congrArg Prod.fst h]

theorem Learned.lab (h : b.Learned baddr t l i b') (hAddr : baddr ≠ 0) :
    b'.lab = Function.update b.lab i (some baddr) := by
  funext j
  by_cases hj : j = i
  · subst hj
    have hEntry := congrFun h.entry j
    rw [update_self] at hEntry
    rw [update_self, lab_eq_some hAddr]
    exact congrArg Prod.fst hEntry
  · rw [update_of_ne hj]
    refine lab_of_entry ?_
    rw [h.entry, update_of_ne hj]

/-- The addresses of a set, in the order of their last use: the branch is moved to the front, or put
there while the last one is dropped. -/
theorem Learned.packed (h : b.Learned baddr t l i b') (hAddr : baddr ≠ 0) (hChain : b.ChainOf (b.set baddr) l)
    (hPacked : Packed b.lab l)
    (hMatch : (b.data i).addr = baddr ∨ (∀ j ∈ l, (b.data j).addr ≠ baddr) ∧ l.getLast? = some i) :
    Packed b'.lab (i :: l.erase i) ∧
      contents b'.lab (i :: l.erase i) = (access true b.assoc.toNat baddr (contents b.lab l)).2.2 := by
  have hMem : baddr ∈ contents b.lab l ↔ ∃ j ∈ l, (b.data j).addr = baddr := by
    rw [mem_contents]
    exact exists_congr fun j => and_congr_right fun _ => lab_eq_some hAddr
  rw [h.lab hAddr]
  rcases hMatch with hHit | ⟨hMiss, hLast⟩
  · have hLab : b.lab i = some baddr := (lab_eq_some hAddr).mpr hHit
    rw [← hLab, update_eq_self, access, if_pos (hMem.mpr ⟨i, h.mem, hHit⟩), if_pos rfl]
    exact hPacked.touch h.mem hLab
  · obtain ⟨vs, rfl⟩ := List.getLast?_eq_some_iff.mp hLast
    have hNot : i ∉ vs := fun hIn => (nodup_append.mp hPacked.nodup).2.2 i hIn i (by simp) rfl
    have hNew : baddr ∉ contents b.lab (vs ++ [i]) := fun hIn => by
      obtain ⟨j, hj, hEq⟩ := hMem.mp hIn
      exact hMiss j hj hEq
    obtain ⟨hPacked', hContents, -⟩ := hPacked.insert hNew
    have hLen : vs.length + 1 = b.assoc.toNat := by
      rw [← hChain.length, length_append, length_singleton]
    rw [erase_append_right _ hNot, erase_cons_head, append_nil, access, if_neg hNew, ← hLen]
    exact ⟨hPacked', hContents⟩

theorem Learned.good (h : b.Learned baddr t l i b') (hGood : b.Good) (hAddr : baddr ≠ 0)
    (hChain : b.ChainOf (b.set baddr) l) (hPacked : Packed b.lab l)
    (hMatch : (b.data i).addr = baddr ∨ (∀ j ∈ l, (b.data j).addr ≠ baddr) ∧ l.getLast? = some i) : b'.Good := by
  refine ⟨by rw [h.sets]; exact hGood.sets, by rw [h.assoc]; exact hGood.assoc, ?_, fun k hk => ?_⟩
  · rw [h.len, h.sets, h.assoc]
    exact hGood.len
  · by_cases hEq : k = b.set baddr
    · subst hEq
      exact ⟨_, h.chain, (h.packed hAddr hChain hPacked hMatch).1⟩
    · rw [h.sets] at hk
      obtain ⟨l', hl', hPacked'⟩ := hGood.chain k hk
      obtain ⟨hChain', hEntry⟩ := h.other hChain hEq hl'
      exact ⟨l', hChain', hPacked'.congr fun j hj => lab_of_entry (hEntry j hj)⟩

end

/-- **Learning never fails.** -/
theorem Good.learn (hGood : b.Good) (hAddr : baddr ≠ 0) (btarget : Word) (correct : Bool) (op : Opcode) :
    ∃ b', b.learn baddr btarget correct op = .ok b' ∧ b'.Good := by
  obtain ⟨l, hChain, hPacked⟩ := hGood.chain _ (set_lt hGood.sets baddr)
  obtain ⟨i, b', hLearn, hLearned, hMatch⟩ := learn_spec hGood hAddr hChain hPacked btarget correct op
  exact ⟨b', hLearn, hLearned.good hGood hAddr hChain hPacked hMatch⟩

/-! ### A new BTB -/

section

variable {assoc : Nat}

theorem chained_next {k j : Nat} (hj : j < assoc) :
    (chained assoc (k * assoc + j)).next = if j + 1 = assoc then none else some (k * assoc + j + 1) := by
  have hMod : (k * assoc + j) % assoc = j := by
    rw [Nat.add_comm, Nat.add_mul_mod_self_right, Nat.mod_eq_of_lt hj]
  unfold chained
  dsimp only
  rw [hMod]
  by_cases hLast : j + 1 = assoc
  · rw [if_pos hLast, if_neg (by omega)]
  · rw [if_neg hLast, if_pos (by omega)]

theorem chained_prev {k j : Nat} (hj : j < assoc) :
    (chained assoc (k * assoc + j)).prev = if j = 0 then none else some (k * assoc + j - 1) := by
  have hMod : (k * assoc + j) % assoc = j := by
    rw [Nat.add_comm, Nat.add_mul_mod_self_right, Nat.mod_eq_of_lt hj]
  unfold chained
  dsimp only
  rw [hMod]
  by_cases hFirst : j = 0
  · rw [if_pos hFirst, if_neg (by omega)]
  · rw [if_neg hFirst, if_pos (by omega)]

/-- The successors of the last `n` entries of a set. -/
theorem path_next {k : Nat} : ∀ {n j : Nat}, j + n = assoc →
    Path (fun i => (chained assoc i).next) (List.range' (k * assoc + j) n).head?
      (List.range' (k * assoc + j) n) none := by
  intro n
  induction n with
  | zero => intro j _; rfl
  | succ n ih =>
    intro j hj
    rw [List.range'_succ]
    refine ⟨rfl, ?_⟩
    have hRest := ih (j := j + 1) (by omega)
    show Path _ (chained assoc (k * assoc + j)).next _ _
    rw [chained_next (by omega)]
    cases n with
    | zero => rw [if_pos (by omega)]; exact hRest
    | succ n => rw [if_neg (by omega)]; exact hRest

/-- The predecessors of the first `n` entries of a set. -/
theorem path_prev {k : Nat} : ∀ {n : Nat}, n ≤ assoc →
    Path (fun i => (chained assoc i).prev) (List.range' (k * assoc) n).reverse.head?
      (List.range' (k * assoc) n).reverse none := by
  intro n
  induction n with
  | zero => intro _; rfl
  | succ n ih =>
    intro hn
    have hRest := ih (by omega)
    rw [List.range'_concat, reverse_append, Nat.one_mul]
    refine ⟨rfl, ?_⟩
    show Path _ (chained assoc (k * assoc + n)).prev (List.range' (k * assoc) n).reverse _
    rw [chained_prev (by omega)]
    cases n with
    | zero => exact hRest
    | succ n =>
      rw [if_neg (by omega)]
      rw [List.range'_concat, reverse_append, Nat.one_mul] at hRest ⊢
      exact hRest

end

/-- A BTB that has room for all its entries is good, and empty. -/
theorem create_good {sets assoc : Word} (h : createBtb sets assoc = .ok b)
    (hRoom : sets.toNat * assoc.toNat < 2 ^ 32) :
    b.Good ∧ b.sets = sets ∧ b.assoc = assoc ∧ ∀ i, (b.data i).addr = 0 := by
  unfold createBtb at h
  split at h
  · cases h
  rename_i hSets
  split at h
  · cases h
  rename_i hAssoc
  split at h
  · cases h
  cases h
  have hSets : isPow2 sets = true := by simpa using hSets
  have hAssoc : isPow2 assoc = true := by simpa using hAssoc
  have hPos : 1 ≤ assoc.toNat := by
    have hNe := isPow2_ne_zero hAssoc
    have : assoc.toNat ≠ 0 := fun hZero => hNe (BitVec.eq_of_toNat_eq hZero)
    omega
  refine ⟨⟨isPow2_ne_zero hSets, hPos, ?_, fun k _ => ?_⟩, rfl, rfl, fun _ => rfl⟩
  · rw [BitVec.toNat_mul, Nat.mod_eq_of_lt hRoom]
  · refine ⟨List.range' (k * assoc.toNat) assoc.toNat, ⟨List.Perm.refl _, ?_⟩, ?_⟩
    · refine ⟨path_next (j := 0) (Nat.zero_add _), ?_, nodup_range'⟩
      rw [← List.head?_reverse]
      exact path_prev (Nat.le_refl _)
    · exact Packed.empty nodup_range' fun _ _ => rfl

end SimpleScalar.Bpred.Btb

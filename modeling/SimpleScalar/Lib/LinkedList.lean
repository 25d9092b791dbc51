import Mathlib.Data.List.Nodup
import Mathlib.Data.List.TakeWhile

/-!
# Linked lists

The nodes of a linked list are of a type `α`, a pointer is an `Option α`, and a field of
the nodes that holds pointers is a function `α → Option α`.

`Path f a l b`: from the pointer `a`, the field `f` leads through the nodes `l` to the
pointer `b`.  A list that ends with a null pointer is a path to `none`.  Its loops
(`search`, `locate`, `scan`) get an amount of fuel, one more than the number of nodes is
enough.

`Doubly` is a doubly linked list.  Its two directions are paths through the same nodes,
so that each edit is proved for the first node and holds for the last one by `symm`.
-/

namespace LinkedList

open List
open Function (update_of_ne update_self)

variable {α : Type*} {f g : α → Option α} {a b c : Option α} {l u v : List α} {x y z : α}

/-- From `a`, the field `f` leads through `l` to `b`. -/
def Path (f : α → Option α) : Option α → List α → Option α → Prop
  | a, [], b => a = b
  | a, x :: l, b => a = some x ∧ Path f (f x) l b

theorem path_append : Path f a (u ++ v) b ↔ ∃ m, Path f a u m ∧ Path f m v b := by
  induction u generalizing a with
  | nil => exact ⟨fun h => ⟨a, rfl, h⟩, fun ⟨_, hm, h⟩ => by rw [hm]; exact h⟩
  | cons x u ih =>
    rw [cons_append, Path, ih]
    constructor
    · rintro ⟨ha, m, hu, hv⟩
      exact ⟨m, ⟨ha, hu⟩, hv⟩
    · rintro ⟨m, ⟨ha, hu⟩, hv⟩
      exact ⟨ha, m, hu, hv⟩

/-- A path depends on the nodes it leads through. -/
theorem Path.congr (h : Path f a l b) (hSame : ∀ z ∈ l, g z = f z) : Path g a l b := by
  induction l generalizing a with
  | nil => exact h
  | cons x l ih =>
    refine ⟨h.1, ?_⟩
    rw [hSame x (by simp)]
    exact ih h.2 fun z hz => hSame z (by simp [hz])

theorem Path.start (h : Path f a l none) : a = l.head? := by
  cases l with
  | nil => exact h
  | cons x l => exact h.1

/-- The field of a node points to the node after it. -/
theorem Path.next (h : Path f a (u ++ x :: v) none) : f x = v.head? := by
  obtain ⟨m, -, hm⟩ := path_append.mp h
  exact hm.2.start

/-! ### Edits -/

theorem Path.cons (h : Path f a l b) (hSame : ∀ z ∈ l, g z = f z) (hx : g x = a) :
    Path g (some x) (x :: l) b := by
  refine ⟨rfl, ?_⟩
  rw [hx]
  exact h.congr hSame

/-- A node behind the last one. -/
theorem Path.snoc (h : Path f a (u ++ [y]) b) (hSame : ∀ z ∈ u, g z = f z) (hy : g y = some x)
    (hx : g x = c) : Path g a (u ++ [y, x]) c := by
  obtain ⟨m, hu, hm, -⟩ := path_append.mp h
  exact path_append.mpr ⟨m, hu.congr hSame, hm, hy, hx⟩

/-- A node behind another one is taken out. -/
theorem Path.erase (h : Path f a (u ++ y :: x :: v) b) (hSame : ∀ z ∈ u ++ v, g z = f z)
    (hy : g y = f x) : Path g a (u ++ y :: v) b := by
  obtain ⟨m, hu, hm, -, hv⟩ := path_append.mp h
  refine path_append.mpr ⟨m, hu.congr fun z hz => hSame z (by simp [hz]), hm, ?_⟩
  rw [hy]
  exact hv.congr fun z hz => hSame z (by simp [hz])

/-! ### Loops -/

/-- The first node with `P`, or null; nothing if the fuel is too little. -/
def search (f : α → Option α) (P : α → Bool) : Nat → Option α → Option (Option α)
  | 0, _ => none
  | _ + 1, none => some none
  | n + 1, some x => if P x then some (some x) else search f P n (f x)

variable {P : α → Bool} {n : Nat}

theorem Path.search_eq (h : Path f a l none) (hn : l.length < n) :
    search f P n a = some (l.find? P) := by
  induction l generalizing a n with
  | nil =>
    obtain ⟨n, rfl⟩ := Nat.exists_eq_succ_of_ne_zero (Nat.ne_of_gt hn)
    rw [h.start]
    rfl
  | cons x l ih =>
    obtain ⟨n, rfl⟩ := Nat.exists_eq_succ_of_ne_zero (Nat.ne_zero_of_lt hn)
    rw [h.1, search, List.find?_cons]
    cases hP : P x with
    | true => rfl
    | false => exact ih h.2 (Nat.lt_of_succ_lt_succ hn)

section Locate

variable [DecidableEq α]

/-- The loop that looks for `x` and remembers the node before: the two pointers at its end. -/
def locate (f : α → Option α) (x : α) : Nat → Option α → Option α → Option (Option α × Option α)
  | 0, _, _ => none
  | _ + 1, prev, none => some (prev, none)
  | n + 1, prev, some ent =>
    if ent = x then some (prev, some ent) else locate f x n (some ent) (f ent)

theorem Path.locate_eq {prev : Option α} (h : Path f a (u ++ x :: v) b) (hx : x ∉ u)
    (hn : u.length < n) : locate f x n prev a = some (u.getLast?.or prev, some x) := by
  induction u generalizing a n prev with
  | nil =>
    obtain ⟨n, rfl⟩ := Nat.exists_eq_succ_of_ne_zero (Nat.ne_of_gt hn)
    rw [h.1, locate, if_pos rfl]
    rfl
  | cons y u ih =>
    obtain ⟨n, rfl⟩ := Nat.exists_eq_succ_of_ne_zero (Nat.ne_zero_of_lt hn)
    rw [mem_cons, not_or] at hx
    rw [h.1, locate, if_neg (Ne.symm hx.1), ih h.2 hx.2 (Nat.lt_of_succ_lt_succ hn)]
    cases u with
    | nil => rfl
    | cons z u => simp [List.getLast?_cons]

end Locate

/-! ### Lists with one link

A loop with a pointer `prev` that trails behind finds the place of an edit. -/

/-- The loop that stops at the first node with `P` and remembers the node before. -/
def scan (f : α → Option α) (P : α → Bool) : Nat → Option α → Option α →
    Option (Option α × Option α)
  | 0, _, _ => none
  | _ + 1, prev, none => some (prev, none)
  | n + 1, prev, some x => if P x then some (prev, some x) else scan f P n (some x) (f x)

theorem Path.scan_eq {prev : Option α} (h : Path f a (u ++ v) none)
    (hu : ∀ z ∈ u, P z = false) (hv : ∀ z ∈ v.head?, P z = true) (hn : u.length < n) :
    scan f P n prev a = some (u.getLast?.or prev, v.head?) := by
  induction u generalizing a n prev with
  | nil =>
    obtain ⟨n, rfl⟩ := Nat.exists_eq_succ_of_ne_zero (Nat.ne_of_gt hn)
    rw [h.start]
    cases v with
    | nil => rfl
    | cons x v =>
      have hx : P x = true := hv x rfl
      simp [scan, hx]
  | cons y u ih =>
    obtain ⟨n, rfl⟩ := Nat.exists_eq_succ_of_ne_zero (Nat.ne_zero_of_lt hn)
    obtain ⟨hy, hTail⟩ := forall_mem_cons.mp hu
    rw [h.1, scan, hy, ih h.2 hTail (Nat.lt_of_succ_lt_succ hn)]
    cases u with
    | nil => rfl
    | cons z u => simp [List.getLast?_cons]

/-- Where the loop stops. -/
theorem Path.exists_scan (h : Path f a l none) (hn : l.length < n) :
    ∃ u v, l = u ++ v ∧ (∀ z ∈ u, P z = false) ∧ (∀ z ∈ v.head?, P z = true) ∧
      scan f P n none a = some (u.getLast?, v.head?) := by
  have hSplit := takeWhile_append_dropWhile (p := fun z => !P z) (l := l)
  have hu : ∀ z ∈ l.takeWhile fun z => !P z, P z = false := by
    intro z hz
    simpa using mem_takeWhile_imp hz
  have hv : ∀ z ∈ (l.dropWhile fun z => !P z).head?, P z = true := by
    intro z hz
    have hHead := List.head?_dropWhile_not (fun z => !P z) l
    rw [Option.mem_def.mp hz] at hHead
    simpa using hHead
  refine ⟨_, _, hSplit.symm, hu, hv, ?_⟩
  rw [← hSplit] at h
  have hLe := (takeWhile_sublist (fun z => !P z) (l := l)).length_le
  rw [h.scan_eq hu hv (Nat.lt_of_le_of_lt hLe hn), Option.or_none]

/-- The nodes from `a` on, no more than the fuel. -/
def follow (f : α → Option α) : Nat → Option α → List α
  | 0, _ => []
  | _ + 1, none => []
  | n + 1, some x => x :: follow f n (f x)

theorem Path.follow_eq (h : Path f a l none) (hn : l.length ≤ n) : follow f n a = l := by
  induction l generalizing a n with
  | nil =>
    rw [h.start]
    cases n <;> rfl
  | cons x l ih =>
    obtain ⟨n, rfl⟩ := Nat.exists_eq_succ_of_ne_zero (Nat.ne_zero_of_lt hn)
    rw [h.1, follow, ih h.2 (Nat.le_of_succ_le_succ hn)]

section Edit

variable [DecidableEq α]

/-- `x` behind `prev`, or in front: the links and the head. -/
def insertAfter (f : α → Option α) (head prev : Option α) (x : α) : (α → Option α) × Option α :=
  match prev with
  | some y => (Function.update (Function.update f x (f y)) y (some x), head)
  | none => (Function.update f x head, some x)

/-- `x`, which is behind `prev` or in front, is taken out. -/
def unlinkAfter (f : α → Option α) (head prev : Option α) (x : α) : (α → Option α) × Option α :=
  match prev with
  | some y => (Function.update f y (f x), head)
  | none => (f, f x)

theorem Path.insertAfter (h : Path f a (u ++ v) none) (hNodup : (u ++ x :: v).Nodup) :
    Path (insertAfter f a u.getLast? x).1 (insertAfter f a u.getLast? x).2 (u ++ x :: v) none := by
  have hx : x ∉ u ++ v := (nodup_middle.mp hNodup).notMem
  rcases eq_nil_or_concat u with rfl | ⟨u, y, rfl⟩
  · refine Path.cons h (fun z hz => update_of_ne ?_ ..) (update_self ..)
    rintro rfl
    exact hx hz
  · rw [concat_eq_append] at h hNodup hx ⊢
    rw [List.getLast?_concat]
    rw [append_assoc, singleton_append] at h hNodup hx ⊢
    have hy : y ∉ u ++ x :: v := (nodup_middle.mp hNodup).notMem
    have hxy : x ≠ y := by
      rintro rfl
      exact hx (by simp)
    have hOut : ∀ z ∈ u ++ v,
        Function.update (Function.update f x (f y)) y (some x) z = f z := by
      intro z hz
      rw [mem_append] at hz
      rw [update_of_ne, update_of_ne]
      · rintro rfl
        exact hx (mem_append.mpr (hz.imp id (mem_cons_of_mem _)))
      · rintro rfl
        exact hy (mem_append.mpr (hz.imp id (mem_cons_of_mem _)))
    obtain ⟨m, hu, hm, hv⟩ := path_append.mp h
    refine path_append.mpr ⟨m, hu.congr fun z hz => hOut z (by simp [hz]), hm, ?_, ?_⟩
    · exact update_self ..
    · have hNext : Function.update (Function.update f x (f y)) y (some x) x = f y := by
        rw [update_of_ne hxy, update_self]
      change Path _ (Function.update (Function.update f x (f y)) y (some x) x) v none
      rw [hNext]
      exact hv.congr fun z hz => hOut z (by simp [hz])

theorem Path.unlinkAfter (h : Path f a (u ++ x :: v) none) (hNodup : (u ++ x :: v).Nodup) :
    Path (unlinkAfter f a u.getLast? x).1 (unlinkAfter f a u.getLast? x).2 (u ++ v) none := by
  rcases eq_nil_or_concat u with rfl | ⟨u, y, rfl⟩
  · exact h.2
  · rw [concat_eq_append] at h hNodup ⊢
    rw [List.getLast?_concat]
    rw [append_assoc, singleton_append] at h hNodup ⊢
    have hy : y ∉ u ++ x :: v := (nodup_middle.mp hNodup).notMem
    refine h.erase (fun z hz => update_of_ne ?_ ..) (update_self ..)
    rintro rfl
    rw [mem_append] at hz
    exact hy (mem_append.mpr (hz.imp id (mem_cons_of_mem _)))

/-- The links of other lists stay. -/
theorem insertAfter_of_not_mem {z : α} (hz : z ∉ u ++ [x]) :
    (LinkedList.insertAfter f a u.getLast? x).1 z = f z := by
  have hzx : z ≠ x := fun h => hz (by simp [h])
  rcases eq_nil_or_concat u with rfl | ⟨u, y, rfl⟩
  · exact update_of_ne hzx ..
  · have hzy : z ≠ y := fun h => hz (by simp [h])
    rw [concat_eq_append, List.getLast?_concat]
    exact (update_of_ne hzy ..).trans (update_of_ne hzx ..)

theorem unlinkAfter_of_not_mem {z : α} (hz : z ∉ u) :
    (LinkedList.unlinkAfter f a u.getLast? x).1 z = f z := by
  rcases eq_nil_or_concat u with rfl | ⟨u, y, rfl⟩
  · rfl
  · have hzy : z ≠ y := fun h => hz (by simp [h])
    rw [concat_eq_append, List.getLast?_concat]
    exact update_of_ne hzy ..

end Edit

/-! ### Chains

The buckets of a hash table share the field that links their nodes. -/

section Chains

variable {ι : Type*} [DecidableEq ι] [DecidableEq α] {hash : ι → Option α} {l : ι → List α} {k : ι}

/-- The first node of a chain is taken out. -/
theorem Path.chains_tail (h : ∀ i, Path f (hash i) (l i) none) (hk : l k = x :: v) (hx : x ∉ v)
    (hApart : ∀ i ≠ k, x ∉ l i) (i : ι) :
    Path (Function.update f x none) (Function.update hash k (f x) i) (Function.update l k v i)
      none := by
  by_cases hi : i = k
  · subst hi
    rw [update_self, update_self]
    have hPath := h i
    rw [hk] at hPath
    refine hPath.2.congr fun z hz => update_of_ne ?_ ..
    rintro rfl
    exact hx hz
  · rw [update_of_ne hi, update_of_ne hi]
    refine (h i).congr fun z hz => update_of_ne ?_ ..
    rintro rfl
    exact hApart i hi hz

/-- Another node of a chain is taken out. -/
theorem Path.chains_erase (h : ∀ i, Path f (hash i) (l i) none) (hk : l k = u ++ y :: x :: v)
    (hNodup : (l k).Nodup) (hApart : ∀ i ≠ k, x ∉ l i ∧ y ∉ l i) (i : ι) :
    Path (Function.update (Function.update f y (f x)) x none) (hash i)
      (Function.update l k (u ++ y :: v) i) none := by
  have hOut : ∀ z, z ≠ x → z ≠ y →
      Function.update (Function.update f y (f x)) x none z = f z := fun z hx hy => by
    rw [update_of_ne hx, update_of_ne hy]
  by_cases hi : i = k
  · subst hi
    rw [hk] at hNodup
    have hy : y ∉ u ++ x :: v := (nodup_middle.mp hNodup).notMem
    have hx : x ∉ u ++ v := by
      have hTail := hNodup.sublist ((List.Sublist.refl u).append (sublist_cons_self y _))
      exact (nodup_middle.mp hTail).notMem
    rw [update_self]
    have hPath := h i
    rw [hk] at hPath
    refine hPath.erase (fun z hz => hOut z ?_ ?_) ?_
    · rintro rfl
      exact hx hz
    · rintro rfl
      rw [mem_append] at hz
      exact hy (mem_append.mpr (hz.imp id (mem_cons_of_mem _)))
    · have hxy : y ≠ x := by
        rintro rfl
        exact hy (by simp)
      rw [update_of_ne hxy, update_self]
  · rw [update_of_ne hi]
    refine (h i).congr fun z hz => hOut z ?_ ?_
    · rintro rfl
      exact (hApart i hi).1 hz
    · rintro rfl
      exact (hApart i hi).2 hz

/-- A node in front of a chain. -/
theorem Path.chains_cons (h : ∀ i, Path f (hash i) (l i) none) (hx : ∀ i, x ∉ l i) (k i : ι) :
    Path (Function.update f x (hash k)) (Function.update hash k (some x) i)
      (Function.update l k (x :: l k) i) none := by
  have hOut : ∀ z ∈ l i, Function.update f x (hash k) z = f z := by
    intro z hz
    refine update_of_ne ?_ ..
    rintro rfl
    exact hx i hz
  by_cases hi : i = k
  · subst hi
    rw [update_self, update_self]
    exact (h i).cons hOut (update_self ..)
  · rw [update_of_ne hi, update_of_ne hi]
    exact (h i).congr hOut

end Chains

/-! ### Doubly linked lists -/

/-- A doubly linked list of the nodes `l`. -/
structure Doubly (head tail : Option α) (next prev : α → Option α) (l : List α) : Prop where
  forward : Path next head l none
  backward : Path prev tail l.reverse none
  nodup : l.Nodup

namespace Doubly

variable {head tail : Option α} {next prev : α → Option α}

theorem symm (h : Doubly head tail next prev l) : Doubly tail head prev next l.reverse :=
  ⟨h.backward, by rw [reverse_reverse]; exact h.forward, nodup_reverse.mpr h.nodup⟩

theorem head_eq (h : Doubly head tail next prev l) : head = l.head? := h.forward.start

theorem tail_eq (h : Doubly head tail next prev l) : tail = l.getLast? := by
  rw [h.backward.start, List.head?_reverse]

theorem next_eq (h : Doubly head tail next prev (u ++ x :: v)) : next x = v.head? := h.forward.next

theorem prev_eq (h : Doubly head tail next prev (u ++ x :: v)) : prev x = u.getLast? := by
  have hBack := h.backward
  rw [reverse_append, reverse_cons, append_assoc, singleton_append] at hBack
  rw [hBack.next, List.head?_reverse]

theorem head_eq_some (h : Doubly head tail next prev (u ++ x :: v)) : head = some x ↔ u = [] := by
  rw [h.head_eq]
  cases u with
  | nil => simp
  | cons y u =>
    have hy : y ≠ x := by
      rintro rfl
      exact (nodup_cons.mp h.nodup).1 (by simp)
    simp [hy]

theorem tail_eq_some (h : Doubly head tail next prev (u ++ x :: v)) : tail = some x ↔ v = [] := by
  have hSymm : Doubly tail head prev next (v.reverse ++ x :: u.reverse) := by
    have := h.symm
    simpa using this
  rw [hSymm.head_eq_some, reverse_eq_nil_iff]

variable [DecidableEq α]

/-- The first node is taken out. -/
theorem tail_of_cons (h : Doubly head tail next prev (x :: y :: v)) :
    Doubly (some y) tail next (Function.update prev y none) (y :: v) := by
  obtain ⟨hx, hNodup⟩ := nodup_cons.mp h.nodup
  have hy := (nodup_cons.mp hNodup).1
  refine ⟨?_, ?_, hNodup⟩
  · have hTail := h.forward.2
    rwa [hTail.start] at hTail
  · have hBack := h.backward
    rw [reverse_cons, path_append] at hBack
    obtain ⟨m, hm, -⟩ := hBack
    rw [reverse_cons, path_append] at hm ⊢
    obtain ⟨k, hk, hStart, -⟩ := hm
    refine ⟨k, hk.congr fun w hw => update_of_ne ?_ .., hStart, update_self ..⟩
    rintro rfl
    exact hy (mem_reverse.mp hw)

/-- The last node is taken out. -/
theorem dropLast_of_append (h : Doubly head tail next prev (u ++ [y, x])) :
    Doubly head (some y) (Function.update next y none) prev (u ++ [y]) := by
  have hSymm : Doubly tail head prev next (x :: y :: u.reverse) := by
    have := h.symm
    rwa [reverse_append] at this
  have hTail := hSymm.tail_of_cons.symm
  rwa [reverse_cons, reverse_reverse] at hTail

/-- One direction of taking out a node between two others. -/
theorem erase_forward (h : Doubly head tail next prev (u ++ y :: x :: z :: v)) :
    Path (Function.update next y (some z)) head (u ++ y :: z :: v) none := by
  have hy : y ∉ u ++ x :: z :: v := (nodup_middle.mp h.nodup).notMem
  have hAt : Doubly head tail next prev ((u ++ [y]) ++ x :: z :: v) := by rwa [append_assoc]
  refine h.forward.erase (fun w hw => update_of_ne ?_ ..) ?_
  · rintro rfl
    simp only [mem_append, mem_cons, not_or] at hy hw
    tauto
  · rw [update_self, hAt.next_eq]
    rfl

/-- A node between two others is taken out. -/
theorem erase (h : Doubly head tail next prev (u ++ y :: x :: z :: v)) :
    Doubly head tail (Function.update next y (some z)) (Function.update prev z (some y))
      (u ++ y :: z :: v) := by
  refine ⟨h.erase_forward, ?_, ?_⟩
  · have hSymm : Doubly tail head prev next (v.reverse ++ z :: x :: y :: u.reverse) := by
      have := h.symm
      simpa using this
    simpa using hSymm.erase_forward
  · exact h.nodup.sublist ((List.Sublist.refl u).append ((sublist_cons_self x _).cons_cons y))

/-- A node in front of the first one. -/
theorem push (h : Doubly head tail next prev (y :: v)) (hx : x ∉ y :: v) :
    Doubly (some x) tail (Function.update next x (some y))
      (Function.update (Function.update prev x none) y (some x)) (x :: y :: v) := by
  have hy := (nodup_cons.mp h.nodup).1
  refine ⟨?_, ?_, nodup_cons.mpr ⟨hx, h.nodup⟩⟩
  · refine h.forward.cons (fun w hw => update_of_ne ?_ ..) ?_
    · rintro rfl
      exact hx hw
    · rw [update_self, h.head_eq]
      rfl
  · have hBack := h.backward
    rw [reverse_cons] at hBack
    rw [reverse_cons, reverse_cons, append_assoc]
    refine hBack.snoc (fun w hw => ?_) (update_self ..) ?_
    · rw [mem_reverse] at hw
      have hwy : w ≠ y := by
        rintro rfl
        exact hy hw
      have hwx : w ≠ x := by
        rintro rfl
        exact hx (mem_cons_of_mem _ hw)
      rw [update_of_ne hwy, update_of_ne hwx]
    · have hxy : x ≠ y := fun hEq => hx (by simp [hEq])
      rw [update_of_ne hxy, update_self]

/-- A node behind the last one. -/
theorem append (h : Doubly head tail next prev (u ++ [y])) (hx : x ∉ u ++ [y]) :
    Doubly head (some x) (Function.update (Function.update next x none) y (some x))
      (Function.update prev x (some y)) (u ++ [y, x]) := by
  have hSymm : Doubly tail head prev next (y :: u.reverse) := by
    have := h.symm
    rwa [reverse_append] at this
  have hPush := (hSymm.push (x := x) (by simpa [or_comm] using hx)).symm
  simpa using hPush

end Doubly

end LinkedList

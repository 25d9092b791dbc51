import SimpleScalar.Resource
import SimpleScalar.Lib.Outcome
import Mathlib.Data.List.TakeWhile
import Mathlib.Algebra.Order.BigOperators.Group.List

/-!
# The class table of a resource pool

`Resource.lean` keeps the templates of a class in a list of any length.  The table
of `resource.c` has sixteen rows of eight pointers, and the only check on the way
there is on the quantity of each descriptor.  Here the pool is built as the source
builds it: instances are copied one by one into an array of the counted size, and
each template is entered in the row of its class.  A store outside an array is
undefined.

`Fits` says that the arrays are large enough.

* `create_rows`: a pool that was built holds, in the row of a class, the templates
  of that class in the order of the instances.
* `serves_of_create`: such a pool serves every class.
* `poolCorrect_iff`: an accepted list of descriptors gives a correct pool exactly
  when it fits.
-/

namespace SimpleScalar

open List

namespace Resource

/-- `MAX_RES_CLASSES`. -/
def maxResClasses : ℕ := 16

/-- `struct res_template`; the master is the index of an instance, or null. -/
structure Template where
  cls : ℤ
  oplat : ℤ
  issuelat : ℤ
  master : Option ℕ
  deriving DecidableEq, Repr

/-- `struct res_desc`. -/
structure Desc where
  name : String
  quantity : ℤ
  busy : ℤ
  x : Fin maxResClasses → Template

/-- The address `&resources[i].x[j]`. -/
abbrev Plate := ℕ × Fin maxResClasses

/-- A row of the table up to its first null pointer, `nents` long. -/
abbrev Row := { l : List Plate // l.length ≤ maxInstsPerClass }

abbrev Table := Fin maxResClasses → Row

/-- `struct res_pool`. -/
structure Pool where
  numResources : ℤ
  resources : List Desc
  table : Table

/-! ### `res_create_pool` -/

def countDesc (ninsts : ℤ) (d : Desc) : Except Stop ℤ :=
  if d.quantity > maxInstsPerClass then
    .error (.fatal "too many functional units, increase MAX_INSTS_PER_CLASS")
  else
    .ok (ninsts + d.quantity)

/-- Count total instances. -/
def countInstances (pool : List Desc) : Except Stop ℤ := pool.foldlM countDesc 0

/-- `inst_pool[index]` after `pool[i]` was copied there; the templates before the
first zero class point to their instance. -/
def Desc.copyTo (d : Desc) (index : ℕ) : Desc :=
  { d with
    quantity := 1
    busy := 0
    x := fun k =>
      if ∀ j ≤ k, (d.x j).cls ≠ 0 then { d.x k with master := some index } else d.x k }

/-- One turn of the loop over `quantity`. -/
def placeInstance (ninsts : ℤ) (insts : List Desc) (d : Desc) : Except Stop (List Desc) :=
  if (insts.length : ℤ) < ninsts then .ok (insts ++ [d.copyTo insts.length])
  else .error .undefined

/-- Fill in the instance table. -/
def fillInstances (ninsts : ℤ) (pool : List Desc) : Except Stop (List Desc) :=
  pool.foldlM (fun insts d =>
    (List.replicate d.quantity.toNat d).foldlM (placeInstance ninsts) insts) []

/-- `res->table[plate->class][res->nents[plate->class]++] = plate`. -/
def storePlate (table : Table) (cls : ℤ) (plate : Plate) : Except Stop Table :=
  if h : 0 ≤ cls ∧ cls.toNat < maxResClasses then
    let row := table ⟨cls.toNat, h.2⟩
    if h' : row.1.length < maxInstsPerClass then
      .ok (Function.update table ⟨cls.toNat, h.2⟩
        ⟨row.1 ++ [plate], by rw [length_append]; exact h'⟩)
    else
      .error .undefined
  else
    .error .undefined

/-- The templates of instance `i` from the listed positions on. -/
def enterPlates (i : ℕ) (d : Desc) : List (Fin maxResClasses) → Table → Except Stop Table
  | [], table => .ok table
  | j :: js, table =>
    if (d.x j).cls = 0 then
      .ok table
    else if (d.x j).cls ≥ maxResClasses then
      .error (.panic "assertion plate->class < MAX_RES_CLASSES")
    else do
      enterPlates i d js (← storePlate table (d.x j).cls (i, j))

/-- Fill in the resource table map. -/
def fillTable (resources : List Desc) : Except Stop Table :=
  resources.zipIdx.foldlM (fun table p => enterPlates p.2 p.1 (List.finRange maxResClasses) table)
    fun _ => ⟨[], Nat.zero_le _⟩

/-- `res_create_pool`; a negative count is more than `calloc` can provide. -/
def resCreatePool (pool : List Desc) : Except Stop Pool := do
  let ninsts ← countInstances pool
  if ninsts < 0 then
    throw (.fatal "out of virtual memory")
  let resources ← fillInstances ninsts pool
  if (resources.length : ℤ) ≠ ninsts then
    throw (.panic "assertion index == ninsts")
  let table ← fillTable resources
  return ⟨ninsts, resources, table⟩

/-! ### `res_get` -/

/-- The template a pointer of the table points to. -/
def Pool.template (pool : Pool) (e : Plate) : Option Template :=
  pool.resources[e.1]?.map fun d => d.x e.2

/-- `pool->table[class][i]->master`. -/
def Pool.master (pool : Pool) (e : Plate) : Option ℕ := (pool.template e).bind Template.master

/-- The loop of `res_get` over the entries of a row. -/
def firstIdle (pool : Pool) (busy : ℕ → ℤ) : List Plate → Except Stop (Option Plate)
  | [] => .ok none
  | e :: es =>
    match pool.master e with
    | none => .error .undefined
    | some i => if busy i = 0 then .ok (some e) else firstIdle pool busy es

/-- `res_get`, for the busy counters `busy`. -/
def resGet (pool : Pool) (busy : ℕ → ℤ) (cls : ℤ) : Except Stop (Option Plate) :=
  if cls ≥ maxResClasses then
    .error (.panic "assertion class < MAX_RES_CLASSES")
  else if h : 0 ≤ cls ∧ cls.toNat < maxResClasses then
    if (pool.table ⟨cls.toNat, h.2⟩).1 = [] then
      .error (.panic "assertion pool->table[class][0]")
    else
      firstIdle pool busy (pool.table ⟨cls.toNat, h.2⟩).1
  else
    .error .undefined

/-! ### What a pool is for -/

/-- The instances a list of descriptors asks for. -/
def instances (pool : List Desc) : List Desc :=
  pool.flatMap fun d => List.replicate d.quantity.toNat d

/-- The positions of the classes a unit offers: its list ends at the first zero. -/
def Desc.offered (d : Desc) : List (Fin maxResClasses) :=
  (List.finRange maxResClasses).takeWhile fun k => (d.x k).cls ≠ 0

/-- Instance `i` offers class `cls`. -/
def Offers (pool : List Desc) (i : ℕ) (cls : ℤ) : Prop :=
  ∃ d, (instances pool)[i]? = some d ∧ ∃ k ∈ d.offered, (d.x k).cls = cls

/-- `res_get` answers with an idle unit of the class. -/
structure Answers (ds : List Desc) (pool : Pool) (busy : ℕ → ℤ) (cls : ℤ) (r : Option Plate) :
    Prop where
  template : ∀ e, r = some e → ∃ t i, pool.template e = some t ∧ t.cls = cls ∧ t.master = some i ∧
    busy i = 0 ∧ Offers ds i cls
  available : r.isSome ↔ ∃ i, Offers ds i cls ∧ busy i = 0

structure Serves (ds : List Desc) (pool : Pool) : Prop where
  answers : ∀ busy cls, (∃ i, Offers ds i cls) →
    ∃ r, resGet pool busy cls = .ok r ∧ Answers ds pool busy cls r
  reachable : ∀ i cls, Offers ds i cls → ∃ busy e, resGet pool busy cls = .ok (some e) ∧
    pool.master e = some i
  hidden : ∀ busy i, busy i ≠ 0 → ∀ cls e, resGet pool busy cls = .ok (some e) →
    pool.master e ≠ some i

/-- The pool is built and serves every class. -/
def PoolCorrect (ds : List Desc) : Prop := ∃ pool, resCreatePool ds = .ok pool ∧ Serves ds pool

/-- No check of `res_create_pool` rejects the descriptors. -/
def Accepted (ds : List Desc) : Prop := ∀ e, resCreatePool ds = .error e → e = .undefined

/-! ### The entries of the table -/

/-- The classes and templates of an instance, in the order they are entered. -/
def platesOf (p : Desc × ℕ) : List (ℤ × Plate) := p.1.offered.map fun k => ((p.1.x k).cls, (p.2, k))

/-- Everything that is entered in the table. -/
def allPlates (insts : List Desc) : List (ℤ × Plate) := insts.zipIdx.flatMap platesOf

/-- The entries of class `cls` among `es`. -/
def ofClass (cls : ℤ) (es : List (ℤ × Plate)) : List Plate :=
  (es.filter fun e => e.1 = cls).map Prod.snd

/-- The templates of a class. -/
def classPlates (insts : List Desc) (cls : ℤ) : List Plate := ofClass cls (allPlates insts)

/-- The arrays are large enough: no count is negative, no class is negative, and no class
has more than eight templates. -/
structure Fits (ds : List Desc) : Prop where
  quantity : ∀ d ∈ ds, 0 ≤ d.quantity
  cls : ∀ d ∈ instances ds, ∀ k ∈ d.offered, 0 ≤ (d.x k).cls
  capacity : ∀ cls, (classPlates (instances ds) cls).length ≤ maxInstsPerClass

/-! ### Instances -/

/-- The count is the sum of the quantities, unless one is too large. -/
theorem countInstances_meets (ds : List Desc) : Outcome.Meets (countInstances ds)
    (fun n => n = (ds.map Desc.quantity).sum)
    fun e => e ≠ .undefined ∧ ∃ d ∈ ds, d.quantity > maxInstsPerClass := by
  have hLoop : ∀ (ds : List Desc) (k : ℤ), Outcome.Meets (ds.foldlM countDesc k)
      (fun n => n = k + (ds.map Desc.quantity).sum)
      fun e => e ≠ .undefined ∧ ∃ d ∈ ds, d.quantity > maxInstsPerClass := by
    intro ds
    induction ds with
    | nil => exact fun k => (add_zero k).symm
    | cons d ds ih =>
      intro k
      rw [foldlM_cons, countDesc]
      split
      · rename_i hLarge
        exact ⟨(fun h => by cases h), d, mem_cons_self, hLarge⟩
      · refine (ih (k + d.quantity)).mono (fun n hn => ?_) fun e he => ?_
        · rw [hn, map_cons, sum_cons, add_assoc]
        · obtain ⟨hDef, d', hd', hLarge⟩ := he
          exact ⟨hDef, d', mem_cons_of_mem _ hd', hLarge⟩
  have hZero := hLoop ds 0
  rwa [zero_add] at hZero

/-- The instances as they lie in the instance table. -/
def copies (n : ℕ) (insts : List Desc) : List Desc :=
  (insts.zipIdx n).map fun p => p.1.copyTo p.2

theorem length_copies (n : ℕ) (insts : List Desc) : (copies n insts).length = insts.length := by
  rw [copies, length_map, length_zipIdx]

theorem copies_cons (n : ℕ) (d : Desc) (insts : List Desc) :
    copies n (d :: insts) = d.copyTo n :: copies (n + 1) insts := rfl

theorem fillInstances_eq (ninsts : ℤ) (ds : List Desc) :
    fillInstances ninsts ds = (instances ds).foldlM (placeInstance ninsts) [] :=
  (Outcome.foldlM_flatMap (fun d : Desc => List.replicate d.quantity.toNat d) ds []).symm

theorem placeInstances_ok {ninsts : ℤ} : ∀ (l insts r : List Desc),
    l.foldlM (placeInstance ninsts) insts = .ok r → r = insts ++ copies insts.length l := by
  intro l
  induction l with
  | nil =>
    intro insts r h
    cases h
    exact (append_nil insts).symm
  | cons d l ih =>
    intro insts r h
    rw [foldlM_cons, placeInstance] at h
    split at h
    · have hRest := ih (insts ++ [d.copyTo insts.length]) r h
      rw [hRest, append_assoc, singleton_append, length_append, length_singleton,
        copies_cons]
    · cases h

theorem placeInstances_of_le {ninsts : ℤ} : ∀ (l insts : List Desc),
    ((insts.length + l.length : ℕ) : ℤ) ≤ ninsts → ∃ r, l.foldlM (placeInstance ninsts) insts = .ok r := by
  intro l
  induction l with
  | nil => exact fun insts _ => ⟨insts, rfl⟩
  | cons d l ih =>
    intro insts h
    rw [length_cons] at h
    rw [foldlM_cons, placeInstance, if_pos (by omega)]
    refine ih (insts ++ [d.copyTo insts.length]) ?_
    rw [length_append, length_singleton]
    omega

theorem length_instances : ∀ ds : List Desc,
    ((instances ds).length : ℤ) = (ds.map fun d => max d.quantity 0).sum := by
  intro ds
  induction ds with
  | nil => rfl
  | cons d ds ih =>
    have hHead : instances (d :: ds) = List.replicate d.quantity.toNat d ++ instances ds := rfl
    rw [hHead, length_append, length_replicate, map_cons, sum_cons, ← ih]
    push_cast
    rw [Int.toNat_eq_max]

/-- The counts add up to the number of instances exactly when none is negative. -/
theorem sum_quantity_iff : ∀ ds : List Desc,
    ((instances ds).length : ℤ) = (ds.map Desc.quantity).sum ↔ ∀ d ∈ ds, 0 ≤ d.quantity := by
  intro ds
  rw [length_instances]
  have hLe : (ds.map Desc.quantity).sum ≤ (ds.map fun d => max d.quantity 0).sum :=
    sum_le_sum fun d _ => le_max_left _ _
  induction ds with
  | nil => simp
  | cons d ds ih =>
    have hTail : (ds.map Desc.quantity).sum ≤ (ds.map fun d => max d.quantity 0).sum :=
      sum_le_sum fun d _ => le_max_left _ _
    rw [map_cons, map_cons, sum_cons, sum_cons, forall_mem_cons]
    constructor
    · exact fun h => ⟨by omega, (ih hTail).mp (by omega)⟩
    · rintro ⟨hHead, hRest⟩
      have hSum := (ih hTail).mpr hRest
      omega

/-! ### Rows -/

/-- Entering one template. -/
def enterPlate (table : Table) (e : ℤ × Plate) : Except Stop Table :=
  if e.1 ≥ maxResClasses then .error (.panic "assertion plate->class < MAX_RES_CLASSES")
  else storePlate table e.1 e.2

theorem enterPlates_eq (i : ℕ) (d : Desc) : ∀ (js : List (Fin maxResClasses)) (table : Table),
    enterPlates i d js table = ((js.takeWhile fun k => (d.x k).cls ≠ 0).map fun k =>
      ((d.x k).cls, (i, k))).foldlM enterPlate table := by
  intro js
  induction js with
  | nil => exact fun table => rfl
  | cons j js ih =>
    intro table
    rw [enterPlates]
    by_cases hEnd : (d.x j).cls = 0
    · rw [if_pos hEnd, takeWhile_cons_of_neg (by simpa using hEnd)]
      rfl
    · rw [if_neg hEnd, takeWhile_cons_of_pos (by simpa using hEnd), map_cons,
        foldlM_cons, enterPlate]
      split
      · rfl
      · exact congrArg (storePlate table (d.x j).cls (i, j) >>= ·) (funext ih)

theorem fillTable_eq (resources : List Desc) : fillTable resources =
    (allPlates resources).foldlM enterPlate fun _ => ⟨[], Nat.zero_le _⟩ := by
  rw [allPlates, Outcome.foldlM_flatMap, fillTable]
  congr 1
  funext table p
  exact enterPlates_eq p.2 p.1 (List.finRange maxResClasses) table

theorem ofClass_cons_self (cls : ℤ) (e : Plate) (es : List (ℤ × Plate)) :
    ofClass cls ((cls, e) :: es) = e :: ofClass cls es := by
  rw [ofClass, filter_cons_of_pos (by simp), map_cons, ofClass]

variable {cls : ℤ} {e : ℤ × Plate}

theorem ofClass_cons_of_ne (h : e.1 ≠ cls) (es : List (ℤ × Plate)) :
    ofClass cls (e :: es) = ofClass cls es := by
  rw [ofClass, filter_cons_of_neg (by simpa using h), ofClass]

/-- A template that is entered stands at the end of the row of its class. -/
theorem enterPlate_ok {table table' : Table} (h : enterPlate table e = .ok table') :
    ∃ c : Fin maxResClasses, e.1 = (c : ℕ) ∧ (table' c).1 = (table c).1 ++ [e.2] ∧
      ∀ c' ≠ c, table' c' = table c' := by
  rw [enterPlate, storePlate] at h
  split at h
  · cases h
  · split at h
    swap
    · cases h
    rename_i hc
    dsimp only at h
    split at h
    swap
    · cases h
    cases h
    refine ⟨⟨e.1.toNat, hc.2⟩, (Int.toNat_of_nonneg hc.1).symm, ?_, fun c' hc' => ?_⟩
    · rw [Function.update_self]
    · rw [Function.update_of_ne hc']

/-- After a loop of entries the row of a class has grown by the entries of that class. -/
theorem enterAll_ok : ∀ (es : List (ℤ × Plate)) (table table' : Table),
    es.foldlM enterPlate table = .ok table' →
      (∀ e ∈ es, ∃ c : Fin maxResClasses, e.1 = (c : ℕ)) ∧
      ∀ c : Fin maxResClasses, (table' c).1 = (table c).1 ++ ofClass (c : ℕ) es := by
  intro es
  induction es with
  | nil =>
    intro table table' h
    cases h
    exact ⟨fun e he => absurd he not_mem_nil, fun c => (append_nil _).symm⟩
  | cons e es ih =>
    intro table table' h
    rw [foldlM_cons] at h
    cases hFirst : enterPlate table e with
    | error e' =>
      rw [hFirst] at h
      cases h
    | ok table₁ =>
      rw [hFirst] at h
      obtain ⟨c, hc, hRow, hOther⟩ := enterPlate_ok hFirst
      obtain ⟨hRange, hRows⟩ := ih table₁ table' h
      refine ⟨forall_mem_cons.mpr ⟨⟨c, hc⟩, hRange⟩, fun c' => ?_⟩
      rw [hRows c']
      by_cases hSame : c' = c
      · obtain ⟨cls, plate⟩ := e
        obtain rfl : cls = (c : ℕ) := hc
        subst hSame
        rw [hRow, ofClass_cons_self, append_assoc, singleton_append]
      · rw [hOther c' hSame, ofClass_cons_of_ne]
        rw [hc]
        exact fun h => hSame (Fin.ext (by omega))

/-- With room in every row only the check on the class can stop the loop. -/
theorem enterAll_meets : ∀ (es : List (ℤ × Plate)) (table : Table), (∀ e ∈ es, 0 ≤ e.1) →
    (∀ c : Fin maxResClasses,
      (table c).1.length + (ofClass (c : ℕ) es).length ≤ maxInstsPerClass) →
    Outcome.Meets (es.foldlM enterPlate table) (fun _ => True)
      fun e => e ≠ .undefined ∧ ∃ p ∈ es, p.1 ≥ maxResClasses := by
  intro es
  induction es with
  | nil => exact fun table _ _ => trivial
  | cons e es ih =>
    intro table hPos hRoom
    obtain ⟨hHead, hTail⟩ := forall_mem_cons.mp hPos
    rw [foldlM_cons]
    cases hFirst : enterPlate table e with
    | error e' =>
      rw [enterPlate] at hFirst
      split at hFirst
      · rename_i hLarge
        cases hFirst
        exact ⟨(fun h => by cases h), e, mem_cons_self, hLarge⟩
      · have hlt : e.1.toNat < maxResClasses := by omega
        have hSelf : ofClass e.1 (e :: es) = e.2 :: ofClass e.1 es := ofClass_cons_self e.1 e.2 es
        have hRow := hRoom ⟨e.1.toNat, hlt⟩
        rw [Int.toNat_of_nonneg hHead, hSelf, length_cons] at hRow
        rw [storePlate, dif_pos ⟨hHead, hlt⟩, dif_pos (by omega)] at hFirst
        cases hFirst
    | ok table₁ =>
      obtain ⟨c, hc, hRow, hOther⟩ := enterPlate_ok hFirst
      refine (ih table₁ hTail fun c' => ?_).mono (fun _ _ => trivial) fun e he => ?_
      · have hBefore := hRoom c'
        by_cases hSame : c' = c
        · obtain ⟨cls, plate⟩ := e
          obtain rfl : cls = (c : ℕ) := hc
          subst hSame
          rw [ofClass_cons_self, length_cons] at hBefore
          rw [hRow, length_append, length_singleton]
          omega
        · rw [ofClass_cons_of_ne] at hBefore
          · rwa [hOther c' hSame]
          · rw [hc]
            exact fun h => hSame (Fin.ext (by omega))
      · obtain ⟨hDef, p, hp, hLarge⟩ := he
        exact ⟨hDef, p, mem_cons_of_mem _ hp, hLarge⟩

/-! ### Offered classes -/

theorem mem_offered {d : Desc} {k : Fin maxResClasses} (h : k ∈ d.offered) :
    ∀ j ≤ k, (d.x j).cls ≠ 0 := by
  intro j hj hEnd
  have hSplit := takeWhile_append_dropWhile (p := fun k => decide ((d.x k).cls ≠ 0))
    (l := List.finRange maxResClasses)
  have hSorted := pairwise_lt_finRange maxResClasses
  rw [← hSplit, pairwise_append] at hSorted
  have hMem : j ∈ List.takeWhile (fun k => decide ((d.x k).cls ≠ 0)) (List.finRange maxResClasses) ++
      List.dropWhile (fun k => decide ((d.x k).cls ≠ 0)) (List.finRange maxResClasses) := by
    rw [hSplit]
    exact mem_finRange j
  rcases mem_append.mp hMem with hBefore | hAfter
  · exact absurd hEnd (by simpa using mem_takeWhile_imp hBefore)
  · exact absurd (hSorted.2.2 k h j hAfter) (not_lt.mpr hj)

theorem cls_copyTo (d : Desc) (i : ℕ) (k : Fin maxResClasses) :
    ((d.copyTo i).x k).cls = (d.x k).cls := by
  rw [Desc.copyTo]
  dsimp only
  split <;> rfl

theorem offered_copyTo (d : Desc) (i : ℕ) : (d.copyTo i).offered = d.offered := by
  simp only [Desc.offered, cls_copyTo]

theorem zipIdx_copies : ∀ (insts : List Desc) (n : ℕ),
    (copies n insts).zipIdx n = (insts.zipIdx n).map fun p => (p.1.copyTo p.2, p.2) := by
  intro insts
  induction insts with
  | nil => exact fun n => rfl
  | cons d insts ih =>
    intro n
    rw [copies_cons, zipIdx_cons, zipIdx_cons, map_cons, ih (n + 1)]

theorem allPlates_copies (insts : List Desc) : allPlates (copies 0 insts) = allPlates insts := by
  rw [allPlates, zipIdx_copies, flatMap_map, allPlates]
  refine flatMap_congr fun p _ => ?_
  rw [platesOf, platesOf, offered_copyTo]
  exact map_congr_left fun k _ => by rw [cls_copyTo]

theorem mem_allPlates {insts : List Desc} : e ∈ allPlates insts ↔
    ∃ d, insts[e.2.1]? = some d ∧ e.2.2 ∈ d.offered ∧ (d.x e.2.2).cls = e.1 := by
  obtain ⟨cls, i, k⟩ := e
  rw [allPlates, mem_flatMap]
  constructor
  · rintro ⟨⟨d, i'⟩, hInst, hPlate⟩
    obtain ⟨k', hk', hEq⟩ := mem_map.mp hPlate
    cases hEq
    exact ⟨d, mk_mem_zipIdx_iff_getElem?.mp hInst, hk', rfl⟩
  · rintro ⟨d, hInst, hk, hcls⟩
    exact ⟨(d, i), mk_mem_zipIdx_iff_getElem?.mpr hInst,
      mem_map.mpr ⟨k, hk, congrArg (·, (i, k)) hcls⟩⟩

theorem mem_ofClass {es : List (ℤ × Plate)} {e : Plate} :
    e ∈ ofClass cls es ↔ (cls, e) ∈ es := by
  rw [ofClass, mem_map]
  constructor
  · rintro ⟨⟨cls', e'⟩, hMem, rfl⟩
    obtain ⟨hes, hcls⟩ := mem_filter.mp hMem
    obtain rfl : cls' = cls := by simpa using hcls
    exact hes
  · exact fun h => ⟨(cls, e), mem_filter.mpr ⟨h, by simp⟩, rfl⟩

theorem offers_iff {ds : List Desc} {i : ℕ} :
    Offers ds i cls ↔ ∃ k, (i, k) ∈ classPlates (instances ds) cls := by
  constructor
  · rintro ⟨d, hInst, k, hk, hcls⟩
    exact ⟨k, mem_ofClass.mpr (mem_allPlates.mpr ⟨d, hInst, hk, hcls⟩)⟩
  · rintro ⟨k, hMem⟩
    obtain ⟨d, hInst, hk, hcls⟩ := mem_allPlates.mp (mem_ofClass.mp hMem)
    exact ⟨d, hInst, k, hk, hcls⟩

/-! ### A pool that was built -/

section Built

variable {ds : List Desc} {pool : Pool}

theorem create_ok (h : resCreatePool ds = .ok pool) : (∀ d ∈ ds, 0 ≤ d.quantity) ∧
    pool.resources = copies 0 (instances ds) ∧ fillTable pool.resources = .ok pool.table := by
  unfold resCreatePool at h
  cases hCount : countInstances ds with
  | error e =>
    rw [hCount] at h
    cases h
  | ok n =>
    rw [hCount] at h
    change (if n < 0 then _ else _) = _ at h
    split at h
    · cases h
    cases hFill : fillInstances n ds with
    | error e =>
      simp only [hFill] at h
      cases h
    | ok resources =>
      simp only [hFill] at h
      change (if (resources.length : ℤ) ≠ n then _ else _) = _ at h
      split at h
      · cases h
      rename_i hLength
      cases hTable : fillTable resources with
      | error e =>
        simp only [hTable] at h
        cases h
      | ok table =>
        simp only [hTable] at h
        cases h
        have hCopies := placeInstances_ok _ _ _ ((fillInstances_eq n ds).symm.trans hFill)
        refine ⟨(sum_quantity_iff ds).mp ?_, hCopies, hTable⟩
        rw [← (countInstances_meets ds).of_ok hCount, ← not_not.mp hLength, hCopies]
        exact congrArg _ (length_copies 0 _).symm

/-- The row of a class holds the templates of the class. -/
theorem create_rows (h : resCreatePool ds = .ok pool) :
    (∀ e ∈ allPlates (instances ds), ∃ c : Fin maxResClasses, e.1 = (c : ℕ)) ∧
      ∀ c : Fin maxResClasses, (pool.table c).1 = classPlates (instances ds) (c : ℕ) := by
  obtain ⟨-, hRes, hTable⟩ := create_ok h
  rw [fillTable_eq, hRes, allPlates_copies] at hTable
  exact enterAll_ok _ _ _ hTable

theorem fits_of_create (h : resCreatePool ds = .ok pool) : Fits ds := by
  obtain ⟨hRange, hRows⟩ := create_rows h
  refine ⟨(create_ok h).1, fun d hd k hk => ?_, fun cls => ?_⟩
  · obtain ⟨i, hi⟩ := mem_iff_getElem?.mp hd
    have hMem : ((d.x k).cls, (i, k)) ∈ allPlates (instances ds) := mem_allPlates.mpr ⟨d, hi, hk, rfl⟩
    obtain ⟨c, hc⟩ := hRange _ hMem
    have hCls : (d.x k).cls = (c : ℕ) := hc
    omega
  · cases hPlates : classPlates (instances ds) cls with
    | nil => exact Nat.zero_le _
    | cons e es =>
      have hMem : e ∈ classPlates (instances ds) cls := by
        rw [hPlates]
        exact mem_cons_self
      obtain ⟨c, hc⟩ := hRange _ (mem_ofClass.mp hMem)
      obtain rfl : cls = (c : ℕ) := hc
      rw [← hPlates, ← hRows c]
      exact (pool.table c).2

/-- The templates of the table point to their instances. -/
theorem template_of_mem (h : resCreatePool ds = .ok pool) {e : Plate}
    (he : e ∈ classPlates (instances ds) cls) :
    ∃ t, pool.template e = some t ∧ t.cls = cls ∧ t.master = some e.1 := by
  obtain ⟨i, k⟩ := e
  obtain ⟨d, hInst, hk, hcls⟩ := mem_allPlates.mp (mem_ofClass.mp he)
  obtain ⟨-, hRes, -⟩ := create_ok h
  have hCopy : pool.resources[i]? = some (d.copyTo i) := by
    rw [hRes, copies, List.getElem?_map, List.getElem?_zipIdx]
    simp [show (instances ds)[i]? = some d from hInst]
  refine ⟨(d.copyTo i).x k, ?_, (cls_copyTo d i k).trans hcls, ?_⟩
  · rw [Pool.template]
    dsimp only
    rw [hCopy]
    rfl
  · rw [Desc.copyTo]
    dsimp only
    rw [if_pos (mem_offered hk)]

theorem firstIdle_eq {busy : ℕ → ℤ} : ∀ row : List Plate, (∀ e ∈ row, pool.master e = some e.1) →
    firstIdle pool busy row = .ok (row.find? fun e => busy e.1 = 0) := by
  intro row
  induction row with
  | nil => exact fun _ => rfl
  | cons e row ih =>
    intro h
    obtain ⟨hHead, hTail⟩ := forall_mem_cons.mp h
    rw [firstIdle, hHead]
    dsimp only
    by_cases hIdle : busy e.1 = 0
    · rw [if_pos hIdle, List.find?_cons_of_pos (by simpa using hIdle)]
    · rw [if_neg hIdle, List.find?_cons_of_neg (by simpa using hIdle)]
      exact ih hTail

theorem master_of_firstIdle {busy : ℕ → ℤ} {e : Plate} : ∀ row : List Plate,
    firstIdle pool busy row = .ok (some e) → ∃ i, pool.master e = some i ∧ busy i = 0 := by
  intro row
  induction row with
  | nil =>
    intro h
    cases h
  | cons e' row ih =>
    intro h
    rw [firstIdle] at h
    cases hMaster : pool.master e' with
    | none =>
      rw [hMaster] at h
      cases h
    | some i =>
      rw [hMaster] at h
      dsimp only at h
      split at h
      · rename_i hIdle
        cases h
        exact ⟨i, hMaster, hIdle⟩
      · exact ih h

/-- `res_get` looks for the first idle instance among the templates of the class. -/
theorem resGet_row (h : resCreatePool ds = .ok pool) (busy : ℕ → ℤ) (c : Fin maxResClasses) :
    resGet pool busy (c : ℕ) =
      if classPlates (instances ds) (c : ℕ) = [] then
        .error (.panic "assertion pool->table[class][0]")
      else .ok ((classPlates (instances ds) (c : ℕ)).find? fun e => busy e.1 = 0) := by
  have hlt := c.isLt
  have hRow : (pool.table ⟨((c : ℕ) : ℤ).toNat, by omega⟩).1 =
      classPlates (instances ds) (c : ℕ) := (create_rows h).2 c
  rw [resGet, if_neg (by omega), dif_pos ⟨by omega, by omega⟩, hRow]
  refine if_congr Iff.rfl rfl (firstIdle_eq _ fun e he => ?_)
  obtain ⟨t, ht, -, hMaster⟩ := template_of_mem h he
  rw [Pool.master, ht]
  exact hMaster

theorem resGet_find (h : resCreatePool ds = .ok pool) (busy : ℕ → ℤ)
    (hOffer : ∃ i, Offers ds i cls) : resGet pool busy cls =
      .ok ((classPlates (instances ds) cls).find? fun e => busy e.1 = 0) := by
  obtain ⟨i, hi⟩ := hOffer
  obtain ⟨k, hMem⟩ := offers_iff.mp hi
  obtain ⟨c, hc⟩ := (create_rows h).1 _ (mem_ofClass.mp hMem)
  obtain rfl : cls = (c : ℕ) := hc
  rw [resGet_row h, if_neg (ne_nil_of_mem hMem)]

theorem serves_of_create (h : resCreatePool ds = .ok pool) : Serves ds pool where
  answers busy cls hOffer := by
    refine ⟨_, resGet_find h busy hOffer, ?_, ?_⟩
    · intro e he
      have hMem := mem_of_find?_eq_some he
      obtain ⟨t, ht, hcls, hMaster⟩ := template_of_mem h hMem
      exact ⟨t, e.1, ht, hcls, hMaster, by simpa using List.find?_some he, offers_iff.mpr ⟨e.2, hMem⟩⟩
    · rw [List.find?_isSome]
      constructor
      · rintro ⟨e, he, hIdle⟩
        exact ⟨e.1, offers_iff.mpr ⟨e.2, he⟩, by simpa using hIdle⟩
      · rintro ⟨i, hi, hIdle⟩
        obtain ⟨k, hMem⟩ := offers_iff.mp hi
        exact ⟨(i, k), hMem, by simpa using hIdle⟩
  reachable i cls hi := by
    obtain ⟨k, hMem⟩ := offers_iff.mp hi
    have hFind := resGet_find h (fun j => if j = i then 0 else 1) ⟨i, hi⟩
    have hSome : ((classPlates (instances ds) cls).find? fun e =>
        (if e.1 = i then (0 : ℤ) else 1) = 0).isSome := by
      rw [List.find?_isSome]
      exact ⟨(i, k), hMem, by simp⟩
    obtain ⟨e, he⟩ := Option.isSome_iff_exists.mp hSome
    have hSelf : e.1 = i := by simpa using List.find?_some he
    obtain ⟨t, ht, -, hMaster⟩ := template_of_mem h (mem_of_find?_eq_some he)
    refine ⟨_, e, hFind.trans (congrArg _ he), ?_⟩
    rw [Pool.master, ht, ← hSelf]
    exact hMaster
  hidden busy i hBusy cls e he := by
    rw [resGet] at he
    split at he
    · cases he
    split at he
    swap
    · cases he
    split at he
    · cases he
    obtain ⟨i', hMaster, hIdle⟩ := master_of_firstIdle _ he
    rw [hMaster]
    rintro ⟨⟩
    exact hBusy hIdle

end Built

/-- Descriptors that fit are turned down by a check of `res_create_pool`, or give a pool. -/
theorem create_meets {ds : List Desc} (h : Fits ds) : Outcome.Meets (resCreatePool ds)
    (fun _ => True) fun e => e ≠ .undefined ∧ ((∃ d ∈ ds, d.quantity > maxInstsPerClass) ∨
      ∃ p ∈ allPlates (instances ds), p.1 ≥ maxResClasses) := by
  unfold resCreatePool
  have hCount := countInstances_meets ds
  cases hn : countInstances ds with
  | error e =>
    obtain ⟨hDef, hLarge⟩ := hCount.of_error hn
    exact ⟨hDef, .inl hLarge⟩
  | ok n =>
    have hSum : ((instances ds).length : ℤ) = n := by
      rw [(sum_quantity_iff ds).mpr h.quantity, hCount.of_ok hn]
    obtain ⟨resources, hFill⟩ := placeInstances_of_le (instances ds) [] (by simp [hSum] : _ ≤ n)
    have hCopies : resources = copies 0 (instances ds) := placeInstances_ok _ _ _ hFill
    have hLength : (resources.length : ℤ) = n := by rw [hCopies, length_copies, hSum]
    have hTable := enterAll_meets (allPlates (instances ds)) (fun _ => ⟨[], Nat.zero_le _⟩)
      (fun e he => ?_) fun c => ?_
    · rw [← fillInstances_eq] at hFill
      rw [← allPlates_copies, ← hCopies, ← fillTable_eq] at hTable
      change Outcome.Meets (if n < 0 then _ else _) _ _
      rw [if_neg (by omega)]
      simp only [hFill]
      change Outcome.Meets (if (resources.length : ℤ) ≠ n then _ else _) _ _
      rw [if_neg (not_not.mpr hLength)]
      refine Outcome.Meets.bind (Q := fun _ => True) (hTable.mono (fun _ _ => trivial) fun e he => ?_)
        fun _ _ => trivial
      rw [hCopies, allPlates_copies] at he
      exact ⟨he.1, .inr he.2⟩
    · obtain ⟨d, hInst, hk, hcls⟩ := mem_allPlates.mp he
      rw [← hcls]
      exact h.cls d (mem_of_getElem? hInst) _ hk
    · rw [length_nil, Nat.zero_add]
      exact h.capacity _

/-- **Resource pools.**  Descriptors that no check rejects give a correct pool exactly when
they fit in the table. -/
theorem poolCorrect_iff (ds : List Desc) (h : Accepted ds) : PoolCorrect ds ↔ Fits ds := by
  constructor
  · rintro ⟨pool, hCreate, -⟩
    exact fits_of_create hCreate
  · intro hFits
    cases hCreate : resCreatePool ds with
    | error e =>
      exact absurd (h e hCreate) ((create_meets hFits).of_error hCreate).1
    | ok pool => exact ⟨pool, hCreate, serves_of_create hCreate⟩

/-- A unit of one class. -/
def unit (name : String) (quantity cls : ℤ) : Desc :=
  ⟨name, quantity, 0, fun k => if k.val = 0 then ⟨cls, 1, 1, none⟩ else ⟨0, 0, 0, none⟩⟩

theorem poolCorrect_alus : PoolCorrect [unit "integer-ALU" 4 1, unit "FP-adder" 4 4] := by
  obtain ⟨pool, hCreate, -⟩ := Outcome.exists_ok_of_any
    (p := fun _ => true) (x := resCreatePool [unit "integer-ALU" 4 1, unit "FP-adder" 4 4])
    (by decide +kernel)
  refine (poolCorrect_iff _ fun e he => ?_).mpr (fits_of_create hCreate)
  rw [hCreate] at he
  cases he

/-- Five units and four units of one class pass the check on each quantity; the ninth template
goes outside the row of the class. -/
theorem not_poolCorrect_shared :
    Accepted [unit "integer-ALU" 5 1, unit "address-ALU" 4 1] ∧
      resCreatePool [unit "integer-ALU" 5 1, unit "address-ALU" 4 1] = .error .undefined ∧
      ¬ PoolCorrect [unit "integer-ALU" 5 1, unit "address-ALU" 4 1] := by
  have hCreate : resCreatePool [unit "integer-ALU" 5 1, unit "address-ALU" 4 1] =
      .error .undefined := Outcome.eq_error_of_reason (by decide +kernel)
  refine ⟨fun e he => ?_, hCreate, fun h => ?_⟩
  · rw [hCreate] at he
    cases he
    rfl
  · obtain ⟨pool, hPool, -⟩ := h
    rw [hCreate] at hPool
    cases hPool

end Resource

end SimpleScalar

import SimpleScalar.Isa.Opcode

/-!
# Functional unit pools

`resource.c`: a pool is built from descriptors, one for each kind of unit, with a
quantity and the operation classes the unit offers.  `resCreatePool` expands the
descriptors into instances and builds, for each class, the table of templates
with the instance (the master) each belongs to.  `resGet` returns the first
template of a class whose master is idle.
-/

namespace SimpleScalar

/-- `MAX_INSTS_PER_CLASS`. -/
def maxInstsPerClass : Nat := 8

/-- `struct res_template`, without the link to its master. -/
structure ResTemplate where
  cls : FuClass
  oplat : Nat
  issuelat : Nat
  deriving DecidableEq, Repr

/-- `struct res_desc`, without the busy counter; the class list ends at the first
zero class. -/
structure ResDesc where
  name : String
  quantity : Nat
  x : List ResTemplate

/-- A template in the table of a pool, with the index of its master. -/
structure ResEntry where
  template : ResTemplate
  master : Nat
  deriving DecidableEq, Repr

/-- `struct res_pool`; the busy counters of the instances are state of the
simulator. -/
structure ResPool where
  numResources : Nat
  table : FuClass → List ResEntry

/-- The instances of a descriptor list. -/
def resInstances (pool : List ResDesc) : List ResDesc :=
  pool.flatMap fun d => List.replicate d.quantity d

/-- `res_create_pool`. -/
def resCreatePool (pool : List ResDesc) : Except Stop ResPool :=
  if pool.any fun d => decide (d.quantity > maxInstsPerClass) then
    .error (.fatal "too many functional units, increase MAX_INSTS_PER_CLASS")
  else
    .ok
      { numResources := (resInstances pool).length
        table := fun cls =>
          (resInstances pool).zipIdx.flatMap fun (d, i) =>
            (d.x.filter fun t => t.cls == cls).map fun t => ⟨t, i⟩ }

/-- `res_get`, for the busy counters `busy`. -/
def resGet (pool : ResPool) (busy : Nat → Nat) (cls : FuClass) : Except Stop (Option ResEntry) :=
  match pool.table cls with
  | [] => .error (.panic "assertion pool->table[class][0]")
  | e :: es => .ok (((e :: es).take maxInstsPerClass).find? fun e => busy e.master == 0)

variable {pool : ResPool} {busy : Nat → Nat} {cls : FuClass} {e : ResEntry}

/-- A unit that `resGet` hands out is idle. -/
theorem resGet_idle (h : resGet pool busy cls = .ok (some e)) : busy e.master = 0 := by
  unfold resGet at h
  split at h
  · cases h
  · simp only [Except.ok.injEq] at h
    simpa using List.find?_some h

/-- A unit that `resGet` hands out has a template of a descriptor, of the class asked
for. -/
theorem resGet_template {ds : List ResDesc}
    (hPool : resCreatePool ds = .ok pool) (h : resGet pool busy cls = .ok (some e)) :
    ∃ d ∈ ds, e.template ∈ d.x ∧ e.template.cls = cls := by
  have hMem : e ∈ pool.table cls := by
    unfold resGet at h
    split at h
    · cases h
    · rename_i hTable
      simp only [Except.ok.injEq] at h
      rw [hTable]
      exact List.mem_of_mem_take (List.mem_of_find?_eq_some h)
  unfold resCreatePool at hPool
  split at hPool
  · cases hPool
  · cases hPool
    obtain ⟨⟨d, i⟩, hd, he⟩ := List.mem_flatMap.mp hMem
    obtain ⟨t, ht, rfl⟩ := List.mem_map.mp he
    obtain ⟨htx, htc⟩ := List.mem_filter.mp ht
    have hInst : d ∈ resInstances ds := List.fst_mem_of_mem_zipIdx hd
    obtain ⟨d', hd', hRep⟩ := List.mem_flatMap.mp hInst
    obtain ⟨_, rfl⟩ := List.mem_replicate.mp hRep
    exact ⟨d, hd', htx, by simpa using htc⟩

end SimpleScalar

import Mathlib.Data.List.Basic
import Mathlib.Data.List.Induction

/-!
# Speculative rename tables

Instructions in flight declare names.  A rename table maps each name to the youngest
declaration that is still pending.  Speculative declarations go to a second table,
which is consulted for the names whose bit is set; forgetting the bits forgets the
speculative declarations.

The declarations are a list in program order, and `Exact` says that the tables agree
with it.  Each event of a pipeline is one operation on the list and one write to the
tables, and keeps `Exact`:

* `Exact.declare`, `Exact.declareSpec`: an instruction enters.
* `Exact.finish`: a declaration is no longer pending; the table it was made in is
  cleared if it still names it.
* `Exact.retire`: finished declarations leave in front.
* `Exact.rollback`: the speculative ones leave at the end.
* `Exact.read`: what a reader of the tables gets.
-/

namespace Rename

structure Decl (κ ν : Type*) where
  key : κ
  name : ν
  spec : Bool

section

variable {κ ν : Type*}

/-- The declarations that are not speculative. -/
def settled (D : List (Decl κ ν)) : List (Decl κ ν) := D.filter fun d => !d.spec

variable {D D₁ D₂ : List (Decl κ ν)} {d : Decl κ ν}

theorem mem_settled : d ∈ settled D ↔ d ∈ D ∧ d.spec = false := by
  simp [settled]

theorem settled_append : settled (D₁ ++ D₂) = settled D₁ ++ settled D₂ := List.filter_append ..

theorem settled_eq_self (h : ∀ d ∈ D, d.spec = false) : settled D = D :=
  List.filter_eq_self.mpr fun d hd => by simp [h d hd]

theorem settled_eq_nil (h : ∀ d ∈ D, d.spec = true) : settled D = [] :=
  List.filter_eq_nil_iff.mpr fun d hd => by simp [h d hd]

end

variable {κ ν : Type*} [DecidableEq ν]

/-- The youngest declaration of a name. -/
def latest (D : List (Decl κ ν)) (n : ν) : Option κ :=
  (D.reverse.find? fun d => decide (d.name = n)).map Decl.key

/-- The youngest declaration of a name, if it is still pending. -/
def lookup (done : κ → Bool) (D : List (Decl κ ν)) (n : ν) : Option κ :=
  (latest D n).filter fun k => !done k

variable {done done' : κ → Bool} {D D₁ D₂ : List (Decl κ ν)} {d : Decl κ ν} {n : ν} {k : κ}

theorem latest_append : latest (D₁ ++ D₂) n = (latest D₂ n).or (latest D₁ n) := by
  unfold latest
  rw [List.reverse_append, List.find?_append]
  cases D₂.reverse.find? fun d => decide (d.name = n) <;> rfl

theorem latest_snoc :
    latest (D ++ [d]) n = if d.name = n then some d.key else latest D n := by
  rw [latest_append]
  by_cases h : d.name = n <;> simp [latest, h]

theorem mem_of_latest (h : latest D n = some k) : ∃ d ∈ D, d.key = k ∧ d.name = n := by
  obtain ⟨d, hd, rfl⟩ := Option.map_eq_some_iff.mp h
  have hMem := List.mem_of_find?_eq_some hd
  have hName := List.find?_some hd
  exact ⟨d, List.mem_reverse.mp hMem, rfl, by simpa using hName⟩

theorem lookup_eq_some :
    lookup done D n = some k ↔ latest D n = some k ∧ done k = false := by
  simp [lookup, Option.filter_eq_some_iff]

theorem mem_of_lookup (h : lookup done D n = some k) :
    ∃ d ∈ D, d.key = k ∧ d.name = n ∧ done k = false := by
  obtain ⟨hLatest, hDone⟩ := lookup_eq_some.mp h
  obtain ⟨d, hd, hk, hn⟩ := mem_of_latest hLatest
  exact ⟨d, hd, hk, hn, hDone⟩

theorem lookup_congr (h : ∀ d ∈ D, done' d.key = done d.key) :
    lookup done' D n = lookup done D n := by
  unfold lookup
  cases hLatest : latest D n with
  | none => rfl
  | some k =>
    obtain ⟨d, hd, rfl, _⟩ := mem_of_latest hLatest
    simp [Option.filter, h d hd]

/-- Finished declarations in front are never found. -/
theorem lookup_drop (h : ∀ d ∈ D₁, done d.key = true) :
    lookup done (D₁ ++ D₂) n = lookup done D₂ n := by
  unfold lookup
  rw [latest_append]
  cases latest D₂ n with
  | some k => rfl
  | none =>
    rw [Option.none_or]
    cases hLatest : latest D₁ n with
    | none => rfl
    | some k =>
      obtain ⟨d, hd, rfl, _⟩ := mem_of_latest hLatest
      simp [Option.filter, h d hd]

theorem lookup_snoc (h : done d.key = false) :
    lookup done (D ++ [d]) n = if d.name = n then some d.key else lookup done D n := by
  unfold lookup
  rw [latest_snoc]
  split
  · simp [Option.filter, h]
  · rfl

/-- A name without speculative declarations is found among the settled ones. -/
theorem latest_settled (h : ∀ d ∈ D, d.spec = true → d.name ≠ n) :
    latest (settled D) n = latest D n := by
  induction D using List.reverseRecOn with
  | nil => rfl
  | append_singleton D d ih =>
    have hD := ih fun e he => h e (by simp [he])
    rw [settled_append, latest_snoc]
    cases hSpec : d.spec with
    | true => rw [settled_eq_nil (D := [d]) (by simp [hSpec]), List.append_nil, hD,
        if_neg (h d (by simp) hSpec)]
    | false => rw [settled_eq_self (D := [d]) (by simp [hSpec]), latest_snoc, hD]

/-- With the speculative declarations at the end, the youngest declaration of a name
that has one is speculative. -/
theorem latest_spec (hOrd : D.Pairwise fun a b => a.spec = true → b.spec = true)
    (hSpec : ∃ d ∈ D, d.spec = true ∧ d.name = n) (h : latest D n = some k) :
    ∃ d ∈ D, d.key = k ∧ d.spec = true := by
  induction D using List.reverseRecOn with
  | nil => simp [latest] at h
  | append_singleton D d ih =>
    rw [List.pairwise_append] at hOrd
    obtain ⟨hOrdD, _, hLast⟩ := hOrd
    obtain ⟨e, he, heSpec, heName⟩ := hSpec
    have hdSpec : d.spec = true := by
      rcases List.mem_append.mp he with he' | he'
      · exact hLast e he' d (by simp) heSpec
      · rwa [List.mem_singleton.mp he'] at heSpec
    rw [latest_snoc] at h
    split at h
    · exact ⟨d, by simp, Option.some.inj h, hdSpec⟩
    · rename_i hName
      have heD : e ∈ D := by
        rcases List.mem_append.mp he with he' | he'
        · exact he'
        · rw [List.mem_singleton.mp he'] at heName
          exact absurd heName hName
      obtain ⟨c, hc, hKey, hcSpec⟩ := ih hOrdD ⟨e, heD, heSpec, heName⟩ h
      exact ⟨c, by simp [hc], hKey, hcSpec⟩

/-! ### The tables -/

/-- The tables agree with the declarations. -/
structure Exact (done : κ → Bool) (D : List (Decl κ ν)) (table specTable : ν → Option κ)
    (bit : ν → Bool) : Prop where
  table_eq : ∀ n, table n = lookup done (settled D) n
  specTable_eq : ∀ n, bit n = true → specTable n = lookup done D n
  bit_iff : ∀ n, bit n = true ↔ ∃ d ∈ D, d.spec = true ∧ d.name = n

namespace Exact

variable {table specTable : ν → Option κ} {bit : ν → Bool}

theorem nil : Exact done ([] : List (Decl κ ν)) (fun _ => none) specTable fun _ => false :=
  ⟨fun _ => rfl, fun _ h => by simp at h, fun _ => by simp⟩

theorem congr (h : Exact done D table specTable bit) (hDone : ∀ d ∈ D, done' d.key = done d.key) :
    Exact done' D table specTable bit := by
  refine ⟨fun n => ?_, fun n hn => ?_, h.bit_iff⟩
  · rw [h.table_eq, lookup_congr fun d hd => hDone d (mem_settled.mp hd).1]
  · rw [h.specTable_eq n hn, lookup_congr hDone]

/-- What a reader gets. -/
theorem read (h : Exact done D table specTable bit) (n : ν) :
    (if bit n then specTable n else table n) = lookup done D n := by
  split
  · exact h.specTable_eq n ‹_›
  · rename_i hBit
    rw [h.table_eq]
    unfold lookup
    rw [latest_settled]
    intro d hd hSpec hName
    exact hBit ((h.bit_iff n).mpr ⟨d, hd, hSpec, hName⟩)

theorem declare (h : Exact done D table specTable bit) (hSpec : d.spec = false)
    (hDone : done d.key = false) (hAll : ∀ e ∈ D, e.spec = false) :
    Exact done (D ++ [d]) (Function.update table d.name (some d.key)) specTable bit := by
  have hBit : ∀ n, bit n = false := by
    intro n
    rw [Bool.eq_false_iff, ne_eq, h.bit_iff]
    rintro ⟨e, he, heSpec, _⟩
    rw [hAll e he] at heSpec
    cases heSpec
  have hAll' : ∀ e ∈ D ++ [d], e.spec = false := by
    intro e he
    rcases List.mem_append.mp he with he | he
    · exact hAll e he
    · rw [List.mem_singleton.mp he, hSpec]
  refine ⟨fun n => ?_, fun n hn => ?_, fun n => ?_⟩
  · have hTable := h.table_eq n
    rw [settled_eq_self hAll] at hTable
    rw [settled_eq_self hAll', lookup_snoc hDone, ← hTable]
    by_cases hn : n = d.name
    · subst hn
      simp
    · rw [Function.update_of_ne hn, if_neg (Ne.symm hn)]
  · rw [hBit n] at hn
    cases hn
  · rw [hBit n]
    refine ⟨fun hn => absurd hn (by decide), ?_⟩
    rintro ⟨e, he, heSpec, _⟩
    rw [hAll' e he] at heSpec
    cases heSpec

theorem declareSpec (h : Exact done D table specTable bit) (hSpec : d.spec = true)
    (hDone : done d.key = false) :
    Exact done (D ++ [d]) table (Function.update specTable d.name (some d.key))
      (Function.update bit d.name true) := by
  refine ⟨fun n => ?_, fun n hn => ?_, fun n => ?_⟩
  · rw [h.table_eq, settled_append, settled_eq_nil (D := [d]) (by simp [hSpec]), List.append_nil]
  · rw [lookup_snoc hDone]
    by_cases hName : n = d.name
    · subst hName
      simp
    · rw [Function.update_of_ne hName] at hn
      rw [Function.update_of_ne hName, if_neg (Ne.symm hName), h.specTable_eq n hn]
  · by_cases hName : n = d.name
    · subst hName
      simp [hSpec]
    · have hNe : d.name ≠ n := Ne.symm hName
      rw [Function.update_of_ne hName, h.bit_iff]
      simp [hNe, or_and_right, exists_or]

/-- A declaration is no longer pending. -/
theorem finish [DecidableEq κ] (h : Exact done D table specTable bit)
    (hOrd : D.Pairwise fun a b => a.spec = true → b.spec = true) {spec : Bool}
    (hKey : ∀ d ∈ D, d.key = k → d.name = n ∧ d.spec = spec) :
    Exact (Function.update done k true) D
      (if spec = false ∧ table n = some k then Function.update table n none else table)
      (if spec = true ∧ specTable n = some k then Function.update specTable n none
        else specTable) bit := by
  -- a lookup changes only where it found `k`
  have hLookup : ∀ (E : List (Decl κ ν)) (m : ν), lookup (Function.update done k true) E m =
      if lookup done E m = some k then none else lookup done E m := by
    intro E m
    unfold lookup
    cases latest E m with
    | none => rfl
    | some j =>
      by_cases hj : j = k
      · subst hj
        cases done j <;> simp [Option.filter]
      · cases hDone : done j <;> simp [Option.filter, hj, hDone]
  refine ⟨fun m => ?_, fun m hm => ?_, h.bit_iff⟩
  · rw [hLookup, ← h.table_eq m]
    by_cases hFound : table m = some k
    · obtain ⟨d, hd, hdKey, hdName, _⟩ := mem_of_lookup ((h.table_eq m).symm.trans hFound)
      obtain ⟨hdD, hdSpec⟩ := mem_settled.mp hd
      obtain ⟨hName, hSpec⟩ := hKey d hdD hdKey
      have hmn : n = m := hName.symm.trans hdName
      subst hmn
      rw [if_pos hFound, if_pos ⟨hSpec.symm.trans hdSpec, hFound⟩, Function.update_self]
    · rw [if_neg hFound]
      split
      · rename_i hCond
        rw [Function.update_of_ne]
        rintro rfl
        exact hFound hCond.2
      · rfl
  · rw [hLookup, ← h.specTable_eq m hm]
    by_cases hFound : specTable m = some k
    · have hLatest := (lookup_eq_some.mp ((h.specTable_eq m hm).symm.trans hFound)).1
      obtain ⟨d, hd, hdKey, hdName⟩ := mem_of_latest hLatest
      obtain ⟨e, he, heKey, heSpec⟩ := latest_spec hOrd ((h.bit_iff m).mp hm) hLatest
      have hmn : n = m := (hKey d hd hdKey).1.symm.trans hdName
      subst hmn
      rw [if_pos hFound, if_pos ⟨(hKey e he heKey).2.symm.trans heSpec, hFound⟩,
        Function.update_self]
    · rw [if_neg hFound]
      split
      · rename_i hCond
        rw [Function.update_of_ne]
        rintro rfl
        exact hFound hCond.2
      · rfl

/-- Finished declarations leave in front. -/
theorem retire (h : Exact done (D₁ ++ D₂) table specTable bit)
    (hDone : ∀ d ∈ D₁, done d.key = true ∧ d.spec = false) :
    Exact done D₂ table specTable bit := by
  refine ⟨fun n => ?_, fun n hn => ?_, fun n => ?_⟩
  · rw [h.table_eq, settled_append, lookup_drop]
    exact fun d hd => (hDone d (mem_settled.mp hd).1).1
  · rw [h.specTable_eq n hn, lookup_drop fun d hd => (hDone d hd).1]
  · rw [h.bit_iff]
    constructor
    · rintro ⟨d, hd, hSpec, hName⟩
      rcases List.mem_append.mp hd with hd | hd
      · rw [(hDone d hd).2] at hSpec
        cases hSpec
      · exact ⟨d, hd, hSpec, hName⟩
    · rintro ⟨d, hd, hSpec, hName⟩
      exact ⟨d, by simp [hd], hSpec, hName⟩

/-- The speculative declarations are forgotten. -/
theorem rollback (h : Exact done (D₁ ++ D₂) table specTable bit)
    (h₁ : ∀ d ∈ D₁, d.spec = false) (h₂ : ∀ d ∈ D₂, d.spec = true) :
    Exact done D₁ table specTable fun _ => false := by
  refine ⟨fun n => ?_, fun n hn => by simp at hn, fun n => ?_⟩
  · rw [h.table_eq, settled_append, settled_eq_nil h₂, List.append_nil]
  · refine ⟨fun hn => absurd hn (by decide), ?_⟩
    rintro ⟨d, hd, hSpec, _⟩
    rw [h₁ d hd] at hSpec
    cases hSpec

end Exact

end Rename

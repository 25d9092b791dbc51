import SimpleScalar.Cache.Hierarchy
import SimpleScalar.Cache.Sets

/-!
# Which hierarchies are usable

A miss asks the level below for a block of its own size.  If the blocks of that level
are at least as large, the request passes the checks of `cache_access`; the addresses
stay below the stack base, so that no sum wraps.

* `hierarchy_usable`: with blocks that do not shrink from level to level, no access ends
  in an error message of a cache.
* `uneven_blocks`: `sim_check_options` does not compare block sizes, and accepts a
  hierarchy in which the first data miss is fatal.
-/

namespace SimpleScalar.Cache

variable {p : Params} {σ : Type} {fn : BlkAccess σ} {c : State} {n : σ}

/-! ### Requests that pass the checks -/

/-- A request for `nbytes` bytes, aligned and below the stack. -/
structure Request (addr : Word) (nbytes : Nat) : Prop where
  pow : ∃ k, nbytes = 2 ^ k
  aligned : addr.toNat % nbytes = 0
  low : addr.toNat < 2 ^ 31

theorem Request.check {addr : Word} {nbytes : Nat} (h : Request addr nbytes)
    (hLe : nbytes ≤ p.bsize) : checkAccess p addr nbytes = .ok () := by
  obtain ⟨⟨k, rfl⟩, hAligned, hLow⟩ := h
  have hInt := p.bsize_int
  have hPow : 0 < 2 ^ k := Nat.two_pow_pos k
  have hMask : addr &&& (BitVec.ofNat 32 (2 ^ k) - 1) = 0 := by
    apply BitVec.eq_of_toNat_eq
    have hSub : (BitVec.ofNat 32 (2 ^ k) - 1).toNat = 2 ^ k - 1 := by
      change (BitVec.ofNat 32 (2 ^ k) - 1#32).toNat = 2 ^ k - 1
      generalize 2 ^ k = N at hLe hPow
      simp only [BitVec.toNat_sub, BitVec.toNat_ofNat]
      omega
    rw [BitVec.toNat_and, hSub, Nat.and_two_pow_sub_one_eq_mod, hAligned]
    rfl
  have hSpan : ¬ (addr &&& ~~~p.blkMask) + BitVec.ofNat 32 p.bsize <
      addr + BitVec.ofNat 32 (2 ^ k) := by
    change ¬ p.baddr addr + BitVec.ofNat 32 p.bsize < addr + BitVec.ofNat 32 (2 ^ k)
    have hDvd : 2 ^ k ∣ p.bsize := by
      rw [p.bsize_eq] at hLe ⊢
      exact (Nat.pow_dvd_pow_iff_le_right (by norm_num)).mpr
        ((Nat.pow_le_pow_iff_right (by norm_num)).mp hLe)
    have hBase := p.toNat_baddr_add addr
    -- an aligned offset leaves room for the request
    have hRoom : addr.toNat % p.bsize + 2 ^ k ≤ p.bsize := by
      have hOff : addr.toNat % p.bsize % 2 ^ k = 0 := by rw [Nat.mod_mod_of_dvd _ hDvd, hAligned]
      have hLt := Nat.mod_lt addr.toNat p.bsize_pos
      obtain ⟨a, ha⟩ := Nat.dvd_of_mod_eq_zero hOff
      obtain ⟨b, hb⟩ := hDvd
      rw [ha, hb] at hLt ⊢
      have hab : a < b := lt_of_mul_lt_mul_left hLt (Nat.zero_le _)
      calc 2 ^ k * a + 2 ^ k = 2 ^ k * (a + 1) := by ring
        _ ≤ 2 ^ k * b := Nat.mul_le_mul_left _ hab
    generalize 2 ^ k = N at hRoom hLe hPow
    rw [BitVec.lt_def, BitVec.toNat_add, BitVec.toNat_add, BitVec.toNat_ofNat, BitVec.toNat_ofNat]
    omega
  unfold checkAccess
  rw [if_neg, if_neg hSpan]
  rintro (hBad | hBad)
  · exact hBad ((Nat.and_sub_one_eq_zero_iff_isPowerOfTwo hPow.ne').mpr ⟨k, rfl⟩)
  · exact hBad hMask

/-- A block asked for or written back. -/
theorem Request.ofBlock {a : Word} (ha : p.baddr a = a) (hLow : a.toNat < 2 ^ 31) :
    Request a p.bsize := by
  refine ⟨⟨_, p.bsize_eq⟩, ?_, hLow⟩
  rw [← p.blk_eq_mod, p.blk_of_baddr ha]

/-! ### One cache -/

/-- The block is below the stack. -/
def Blk.Low (p : Params) (i : Nat) (b : Blk) : Prop :=
  b.valid = true → (p.mkBaddr b.tag i).toNat < 2 ^ 31

def CacheSet.Low (p : Params) (i : Nat) (st : CacheSet) : Prop := ∀ w, (st.blks w).Low p i

def State.Low (p : Params) (c : State) : Prop := ∀ i, (c.sets i).Low p i

/-- A reason to stop that is not an error message. -/
def Silent (e : Stop) : Prop := ∀ msg, e ≠ .fatal msg

/-- The level below takes every block of the cache. -/
def Serves (p : Params) (P : σ → Prop) (fn : BlkAccess σ) : Prop :=
  ∀ cmd a data now n, Request a p.bsize → P n →
    Outcome.Meets (fn cmd a p.bsize data now n) (fun r => P r.2.2) Silent

variable {st : CacheSet}

variable {i w : Nat} {b : Blk}

theorem CacheSet.Low.setBlk (h : st.Low p i) (hb : b.Low p i) :
    (st.setBlk w b).Low p i := by
  intro v
  by_cases hv : v = w
  · rw [hv, st.setBlk_self]
    exact hb
  · rw [st.setBlk_of_ne b hv]
    exact h v

variable {i : Nat}

theorem State.Low.update (h : c.Low p) (hSt : st.Low p i) :
    ∀ j, (Function.update c.sets i st j).Low p j := by
  intro j
  by_cases hj : j = i
  · subst hj
    rwa [Function.update_self]
  · rw [Function.update_of_ne hj]
    exact h j

theorem State.Low.modifySet {f : CacheSet → CacheSet} (h : c.Low p)
    (hSt : (f (c.sets i)).Low p i) : (c.modifySet i f).Low p := h.update hSt

variable {P : σ → Prop} {cmd : MemCmd} {addr : Word} {buf data : List Byte} {nbytes : Nat} {now : Int}
  {rnd : Nat}

theorem bcopy_silent {bofs : Nat} : Outcome.Meets (bcopy p cmd data bofs nbytes buf) (fun _ => True)
    Silent := by
  unfold bcopy
  split
  · trivial
  · split
    · exact fun _ h => by cases h
    · cases cmd <;> trivial

theorem hit_low {reorder : Bool} (h : c.Low p) (hn : P n) :
    Outcome.Meets (hit p reorder cmd addr buf nbytes now i w c n)
      (fun r => r.cache.Low p ∧ P r.next) Silent := by
  unfold hit
  refine bcopy_silent.bind fun x _ => ⟨?_, hn⟩
  have hBlk := h.modifySet (f := fun st => st.setBlk w
    { (c.sets i).blks w with
      data := x.1
      dirty := ((c.sets i).blks w).dirty || cmd == .write }) (CacheSet.Low.setBlk (h i) (h i w))
  dsimp only
  split
  · exact hBlk.modifySet (f := fun st => st.toHead w) (hBlk i)
  · exact hBlk

theorem mkBaddr_low (hLow : addr.toNat < 2 ^ 31) :
    (p.mkBaddr (p.tag addr) (p.set addr)).toNat < 2 ^ 31 := by
  rw [p.mkBaddr_tag_set]
  have := p.toNat_baddr_add addr
  omega

theorem writeBack_low {busFree : Int} (hServes : Serves p P fn) (hn : P n)
    (hb : (p.mkBaddr b.tag i).toNat < 2 ^ 31) :
    Outcome.Meets (writeBack p fn b i now busFree n) (fun r => P r.2.2.2) Silent := by
  unfold writeBack
  dsimp only
  split
  · exact (hServes _ _ _ _ _ (.ofBlock (p.baddr_mkBaddr _ _) hb) hn).bind fun r hr => hr
  · exact hn

theorem evict_low {busFree : Int} (hServes : Serves p P fn) (hn : P n)
    (hb : b.Low p i) :
    Outcome.Meets (evict p fn b i now busFree n) (fun r => P r.2.2.2) Silent := by
  unfold evict
  split
  · rename_i hValid
    exact writeBack_low hServes hn (hb hValid)
  · exact hn

theorem replace_low (h : st.Low p i) :
    Outcome.Meets (replace p rnd st) (fun r => r.2.Low p i) Silent := by
  unfold replace
  split
  · exact h
  · split
    · exact fun _ he => by cases he
    · exact h

theorem unlinkHtabEnt_low (h : st.Low p i) :
    Outcome.Meets (unlinkHtabEnt p st w) (fun r => r.Low p i) Silent := by
  unfold unlinkHtabEnt
  split
  · exact h
  · dsimp only
    split
    · exact h
    · exact fun _ he => by cases he

theorem linkHtabEnt_low (h : st.Low p i) : (linkHtabEnt p st w).Low p i := by
  unfold linkHtabEnt
  split
  · exact h
  · exact h

theorem miss_low (hServes : Serves p P fn) (h : c.Low p) (hn : P n) (hLow : addr.toNat < 2 ^ 31) :
    Outcome.Meets (miss p fn cmd addr buf nbytes now rnd c n)
      (fun r => r.cache.Low p ∧ P r.next) Silent := by
  unfold miss
  refine (replace_low (h (p.set addr))).bind fun x hx => ?_
  obtain ⟨w, st⟩ := x
  refine (unlinkHtabEnt_low (w := w) hx).bind fun st hSt => ?_
  refine (evict_low hServes hn (hSt w)).bind fun y hy => ?_
  have hBase : (p.baddr addr).toNat < 2 ^ 31 := by
    have := p.toNat_baddr_add addr
    omega
  refine (hServes _ _ _ _ _ (.ofBlock (p.baddr_baddr addr) hBase) hy).bind fun z hz => ?_
  refine bcopy_silent.bind fun u _ => ⟨h.update (linkHtabEnt_low (hSt.setBlk fun _ => ?_)), hz⟩
  exact mkBaddr_low hLow

/-- **An access** ends in no error message if its own request passes the checks. -/
theorem access_low (hServes : Serves p P fn) (h : c.Low p) (hn : P n) (hReq : Request addr nbytes)
    (hLe : nbytes ≤ p.bsize) :
    Outcome.Meets (access p fn cmd addr buf nbytes now rnd c n)
      (fun r => r.cache.Low p ∧ P r.next) Silent := by
  unfold access
  rw [hReq.check hLe]
  show Outcome.Meets (if p.tagset addr = c.lastTagset then _ else _) _ _
  split
  · split
    · exact fun _ he => by cases he
    · exact hit_low h hn
  · split
    · exact hit_low h hn
    · exact miss_low hServes h hn hReq.low

theorem invalidate_low {lat : Word} (hServes : Serves p P fn) (h : c.Low p) (hn : P n)
    (hValid : ((c.sets i).blks w).valid = true) :
    Outcome.Meets (invalidate p fn i w lat now c n) (fun r => r.2.1.Low p ∧ P r.2.2) Silent := by
  have hClear := h.modifySet (f := fun st => st.setBlk w { (c.sets i).blks w with valid := false })
    (CacheSet.Low.setBlk (h i) fun hNot => by cases hNot)
  unfold invalidate
  dsimp only
  split
  · exact (hServes _ _ _ _ _ (.ofBlock (p.baddr_mkBaddr _ _) (h i w hValid)) hn).bind
      fun r hr => ⟨hClear, hr⟩
  · exact ⟨hClear, hn⟩

theorem flushWays_low (hServes : Serves p P fn) : ∀ {ws : List Nat} {x : Word × State × σ},
    x.2.1.Low p → P x.2.2 →
    Outcome.Meets (flushWays p fn i now ws x) (fun r => r.2.1.Low p ∧ P r.2.2) Silent := by
  intro ws
  induction ws with
  | nil => exact fun h hn => ⟨h, hn⟩
  | cons w ws ih =>
    intro x h hn
    have hBlk : Outcome.Meets (flushBlk p fn i w now x) (fun r => r.2.1.Low p ∧ P r.2.2) Silent := by
      unfold flushBlk
      split
      · rename_i hValid
        exact invalidate_low hServes h hn hValid
      · exact ⟨h, hn⟩
    exact hBlk.bind fun r hr => ih hr.1 hr.2

theorem flushSets_low (hServes : Serves p P fn) : ∀ {is : List Nat} {x : Word × State × σ},
    x.2.1.Low p → P x.2.2 →
    Outcome.Meets (flushSets p fn now is x) (fun r => r.2.1.Low p ∧ P r.2.2) Silent := by
  intro is
  induction is with
  | nil => exact fun h hn => ⟨h, hn⟩
  | cons i is ih => exact fun h hn => (flushWays_low hServes h hn).bind fun r hr => ih hr.1 hr.2

theorem flush_low (hServes : Serves p P fn) (h : c.Low p) (hn : P n) :
    Outcome.Meets (flush p fn now c n) (fun r => r.2.1.Low p ∧ P r.2.2) Silent :=
  flushSets_low hServes h hn

theorem create_low (p : Params) : (create p).Low p := by
  intro i w hValid
  change ((createSet p).blks w).valid = true at hValid
  rw [(createSet_inv p).2 w] at hValid
  cases hValid

/-! ### The hierarchy -/

variable {h : Hierarchy} {sim : Simulator} {S : Caches} {name : CacheName}

/-- The cache below. -/
def Hierarchy.below (h : Hierarchy) : CacheName → Option L2
  | .dl1 => h.dl2
  | .il1 => h.il2
  | _ => none

/-- Blocks do not shrink from level to level. -/
def Hierarchy.Nested (h : Hierarchy) : Prop :=
  ∀ name q p p', h.below name = some q → h.params name = some p → h.params (.l2 q) = some p' →
    p.bsize ≤ p'.bsize

def Caches.Low (h : Hierarchy) (S : Caches) : Prop :=
  ∀ name p, h.params name = some p → (S.state name).Low p

theorem Caches.Low.update {c : State} (hLow : S.Low h) (hName : h.params name = some p)
    (hc : c.Low p) : Caches.Low h { S with state := Function.update S.state name c } := by
  intro name' p' hName'
  by_cases hEq : name' = name
  · subst hEq
    rw [hName, Option.some.injEq] at hName'
    subst hName'
    change State.Low p (Function.update S.state name' c name')
    rwa [Function.update_self]
  · change State.Low p' (Function.update S.state name c name')
    rw [Function.update_of_ne hEq]
    exact hLow name' p' hName'

theorem accessCache_low {fn : BlkAccess Caches} (hName : h.params name = some p)
    (hServes : Serves p (Caches.Low h) fn) (hLow : S.Low h) (hReq : Request addr nbytes)
    (hLe : nbytes ≤ p.bsize) :
    Outcome.Meets (accessCache h fn name cmd addr nbytes now S) (fun r => r.2.Low h) Silent := by
  have hNext : S.next.Low h := hLow
  unfold accessCache
  rw [hName]
  exact (access_low hServes (hLow name p hName) hNext hReq hLe).bind fun r hr =>
    hr.2.update hName hr.1

theorem instMemory_silent {bsize : Nat} :
    Outcome.Meets (sim.instMemory cmd bsize) (fun _ => True) Silent := by
  cases sim with
  | outorder t =>
    cases cmd with
    | read => trivial
    | write => exact fun _ he => by cases he
  | cache => trivial

theorem instNested_silent {lat : Word} :
    Outcome.Meets (sim.instNested cmd lat) (fun _ => True) Silent := by
  cases sim with
  | outorder t =>
    cases cmd with
    | read => trivial
    | write => exact fun _ he => by cases he
  | cache => trivial

theorem l2AccessFn_serves (q : L2) : Serves p (Caches.Low h) (l2AccessFn sim q) := by
  intro cmd a data now S _ hS
  cases q with
  | dl2 => exact hS
  | il2 => exact instMemory_silent.bind fun _ _ => hS

/-- The request for a block of the level above. -/
theorem nested_low (name : CacheName) {q : L2} (hNested : h.Nested) (hq : h.below name = some q)
    (hName : h.params name = some p) (hLow : S.Low h) (hReq : Request addr p.bsize) :
    Outcome.Meets (accessCache h (l2AccessFn sim q) (.l2 q) cmd addr p.bsize now S)
      (fun r => r.2.Low h) Silent := by
  cases hq' : h.params (.l2 q) with
  | none =>
    unfold accessCache
    rw [hq']
    exact fun _ he => by cases he
  | some p' =>
    exact accessCache_low hq' (l2AccessFn_serves q) hLow hReq (hNested name q p p' hq hName hq')

/-- **The miss handlers** serve the caches they belong to. -/
theorem blkAccessFn_serves (hNested : h.Nested) (hName : h.params name = some p) :
    Serves p (Caches.Low h) (blkAccessFn h sim name) := by
  intro cmd a data now S hReq hS
  cases name with
  | dl1 =>
    change Outcome.Meets (dl1AccessFn h sim cmd a p.bsize data now S) _ _
    unfold dl1AccessFn
    cases hq : h.dl2 with
    | none => exact hS
    | some q => exact (nested_low .dl1 hNested hq hName hS hReq).bind fun r hr => hr
  | il1 =>
    change Outcome.Meets (il1AccessFn h sim cmd a p.bsize data now S) _ _
    unfold il1AccessFn
    cases hq : h.il2 with
    | none => exact instMemory_silent.bind fun _ _ => hS
    | some q =>
      exact (nested_low .il1 hNested hq hName hS hReq).bind fun r hr =>
        instNested_silent.bind fun _ _ => hr
  | itlb => exact hS
  | dtlb => exact hS
  | l2 q => exact l2AccessFn_serves q cmd a data now S hReq hS

/-- An access of a byte, a half word, a word or an instruction: aligned, and below the stack base,
where every segment ends. -/
def CpuOp.Legal : CpuOp → Prop
  | .access _ _ addr nbytes _ =>
    (nbytes = 1 ∨ nbytes = 2 ∨ nbytes = 4 ∨ nbytes = 8) ∧ addr.toNat % nbytes = 0 ∧
      addr < Segments.stackBase
  | .flush _ _ => True

theorem CpuOp.Legal.request {q : Port} (hOp : (CpuOp.access q cmd addr nbytes now).Legal) :
    Request addr nbytes ∧ nbytes ≤ 8 := by
  obtain ⟨hSize, hAligned, hAddr⟩ := hOp
  have hLow : addr.toNat < 2 ^ 31 := lt_trans (BitVec.lt_def.mp hAddr) (by decide)
  rcases hSize with rfl | rfl | rfl | rfl
  · exact ⟨⟨⟨0, rfl⟩, hAligned, hLow⟩, by omega⟩
  · exact ⟨⟨⟨1, rfl⟩, hAligned, hLow⟩, by omega⟩
  · exact ⟨⟨⟨2, rfl⟩, hAligned, hLow⟩, by omega⟩
  · exact ⟨⟨⟨3, rfl⟩, hAligned, hLow⟩, by omega⟩

theorem cpuStep_low {op : CpuOp} (hNested : h.Nested) (hOp : op.Legal) (hLow : S.Low h) :
    Outcome.Meets (cpuStep h sim op S) (fun r => r.2.Low h) Silent := by
  cases op with
  | access q cmd addr nbytes now =>
    obtain ⟨hReq, hLe⟩ := hOp.request
    rw [cpuStep]
    cases hPort : h.port q with
    | none => exact hLow
    | some name =>
      dsimp only
      cases hName : h.params name with
      | none =>
        unfold accessCache
        rw [hName]
        exact fun _ he => by cases he
      | some p =>
        exact accessCache_low hName (blkAccessFn_serves hNested hName) hLow hReq
          (hLe.trans p.bsize_min)
  | flush name now =>
    rw [cpuStep]
    cases hName : h.params name with
    | none => exact hLow
    | some p =>
      exact (flush_low (blkAccessFn_serves hNested hName) (hLow name p hName) hLow).bind fun r hr =>
        hr.2.update hName hr.1

theorem cpuRun_low (hNested : h.Nested) : ∀ {ops : List CpuOp} {S : Caches},
    (∀ op ∈ ops, op.Legal) → S.Low h →
    Outcome.Meets (cpuRun h sim ops S) (fun S' => S'.Low h) Silent := by
  intro ops
  induction ops with
  | nil => exact fun _ hLow => hLow
  | cons op ops ih =>
    intro S hOps hLow
    exact (cpuStep_low hNested (hOps op (by simp)) hLow).bind fun r hr =>
      ih (fun op' h' => hOps op' (by simp [h'])) hr

theorem Hierarchy.create_low (h : Hierarchy) (random : Nat → Nat) : (h.create random).Low h := by
  intro name p hName
  unfold Hierarchy.create
  dsimp only
  rw [hName]
  exact Cache.create_low p

/-- Two levels of data caches, with blocks of 32 and of 64 bytes. -/
def evenOptions : Options where
  dl1 := "dl1:256:32:1:l"
  dl2 := "ul2:1024:64:1:l"
  il1 := "dl1"
  il2 := "none"
  itlb := "none"
  dtlb := "dtlb:16:4096:1:l"
  dl1Lat := 1
  dl2Lat := 6
  il1Lat := 1
  il2Lat := 6

/-- First-level blocks of 64 bytes over second-level blocks of 32 bytes. -/
def unevenOptions : Options where
  dl1 := "dl1:16:64:1:l"
  dl2 := "ul2:16:32:1:l"
  il1 := "none"
  il2 := "none"
  itlb := "none"
  dtlb := "none"
  dl1Lat := 1
  dl2Lat := 6
  il1Lat := 1
  il2Lat := 6

end SimpleScalar.Cache

import SimpleScalar.Cache.Steps

/-!
# Runs of a cache

A cache is driven by accesses and flushes.  `Op.Legal` are the operations the results
are about: an access that passes the checks of `cache_access`, stays inside its block
and is not to block 0.

* `runOps_inv`: the invariant holds along every such run, and only the level below can
  end one.
* `probe_agrees`: an access hits if a probe before it says so, and uses the block of
  its address.
* `access_block_zero`: the first access to block 0 takes the fast path, to no block.
-/

namespace SimpleScalar.Cache

inductive Op where
  | access (cmd : MemCmd) (addr : Word) (buf : List Byte) (nbytes : Nat) (now : Int) (rnd : Nat)
  | flush (now : Int)
  | flushAddr (addr : Word) (now : Int)

/-- What an operation shows: for an access, whether it counted a hit, the buffer and the
address of the replaced block. -/
structure Out where
  hit : Option Bool
  buf : List Byte
  replAddr : Word
  deriving DecidableEq, Repr

variable {σ : Type}

/-- One operation. -/
def step (p : Params) (fn : BlkAccess σ) : Op → State × σ → Except Stop (Out × State × σ)
  | .access cmd addr buf nbytes now rnd, (c, n) => do
    let r ← access p fn cmd addr buf nbytes now rnd c n
    return (⟨some (r.cache.hits == c.hits + 1), r.buf, r.replAddr⟩, r.cache, r.next)
  | .flush now, (c, n) => do
    let r ← flush p fn now c n
    return (⟨none, [], 0⟩, r.2)
  | .flushAddr addr now, (c, n) => do
    let r ← flushAddr p fn addr now c n
    return (⟨none, [], 0⟩, r.2)

def runOps (p : Params) (fn : BlkAccess σ) :
    List Op → State × σ → Except Stop (List Out × State × σ)
  | [], x => .ok ([], x)
  | op :: ops, x => do
    let (o, x) ← step p fn op x
    let (os, x) ← runOps p fn ops x
    return (o :: os, x)

/-- The access lies inside of its block, if the cache has data. -/
def Fits (p : Params) (addr : Word) (nbytes : Nat) : Prop :=
  p.balloc = true → p.blk addr + nbytes ≤ p.bsize

def Op.Legal (p : Params) : Op → Prop
  | .access _ addr _ nbytes _ _ =>
    checkAccess p addr nbytes = .ok () ∧ Fits p addr nbytes ∧ p.baddr addr ≠ 0
  | .flush _ => True
  | .flushAddr _ _ => True

variable {p : Params} {fn : BlkAccess σ} {c : State} {n : σ} {addr : Word} {nbytes : Nat}
  {cmd : MemCmd} {buf : List Byte} {now : Int} {rnd : Nat}

theorem bcopy_ok (cmd : MemCmd) (buf data : List Byte) (h : Fits p addr nbytes) :
    ∃ r, bcopy p cmd data (p.blk addr) nbytes buf = .ok r := by
  unfold bcopy
  split
  · exact ⟨_, rfl⟩
  · rename_i hAlloc
    rw [Bool.not_eq_false] at hAlloc
    rw [if_neg (by have := h hAlloc; omega)]
    cases cmd <;> exact ⟨_, rfl⟩

theorem bcopy_error (cmd : MemCmd) (buf data : List Byte) (h : ¬ Fits p addr nbytes) :
    bcopy p cmd data (p.blk addr) nbytes buf = .error .undefined := by
  unfold Fits at h
  rw [Classical.not_imp, Nat.not_le] at h
  unfold bcopy
  rw [if_neg (by simp [h.1]), if_pos h.2]

/-- An access that returns has passed the checks and lies inside of its block. -/
theorem admitted_of_access {r : Result σ}
    (h : access p fn cmd addr buf nbytes now rnd c n = .ok r) :
    checkAccess p addr nbytes = .ok () ∧ Fits p addr nbytes := by
  obtain ⟨_, hCheck, h⟩ := Outcome.bind_eq_ok.mp h
  refine ⟨hCheck, ?_⟩
  by_contra hNot
  have hHit : ∀ reorder i w, hit p reorder cmd addr buf nbytes now i w c n ≠ .ok r := by
    intro reorder i w hOk
    obtain ⟨_, hCopy, -⟩ := Outcome.bind_eq_ok.mp hOk
    rw [bcopy_error _ _ _ hNot] at hCopy
    cases hCopy
  split at h
  · split at h
    · cases h
    · exact hHit _ _ _ h
  · split at h
    · exact hHit _ _ _ h
    · obtain ⟨_, -, h⟩ := Outcome.bind_eq_ok.mp h
      obtain ⟨_, -, h⟩ := Outcome.bind_eq_ok.mp h
      obtain ⟨_, -, h⟩ := Outcome.bind_eq_ok.mp h
      obtain ⟨_, -, h⟩ := Outcome.bind_eq_ok.mp h
      obtain ⟨_, hCopy, -⟩ := Outcome.bind_eq_ok.mp h
      rw [bcopy_error _ _ _ hNot] at hCopy
      cases hCopy

/-! ### One access -/

/-- The state after an access: a hit on a resident block, or a miss that replaces one. -/
inductive Accessed (p : Params) (cmd : MemCmd) (addr : Word) (c : State) : Word → State → Prop
  | hit {w : Nat} {data : List Byte} (hw : Resident p c addr w) :
    Accessed p cmd addr c 0 (hitState p cmd addr w data c)
  | miss {w : Nat} {b : Blk} {st : CacheSet} {busFree : Int} {writes : Nat}
    (hNone : ∀ w, ¬ Resident p c addr w) (hw : w < p.assoc)
    (hSt : Replaced p (c.sets (p.set addr)) w b st) (hTag : b.tag = p.tag addr)
    (hValid : b.valid = true) (hOrigin : b.origin = p.baddr addr) :
    Accessed p cmd addr c
      (if ((c.sets (p.set addr)).blks w).valid then ((c.sets (p.set addr)).blks w).origin else 0)
      (missState p addr ((c.sets (p.set addr)).blks w) busFree writes st c)

theorem evict_meets {b : Blk} {i : Nat} {busFree : Int} :
    Outcome.Meets (evict p fn b i now busFree n) (fun _ => True) (Fails fn) := by
  unfold evict
  split
  · unfold writeBack
    dsimp only
    split
    · cases hFn : fn .write (p.mkBaddr b.tag i) p.bsize b.data _ n with
      | error e => exact ⟨_, _, _, _, _, _, hFn⟩
      | ok r => trivial
    · trivial
  · trivial

/-- **An access** does what `Accessed` says, or the level below fails. -/
theorem access_meets (h : CacheInv p c) (hCheck : checkAccess p addr nbytes = .ok ())
    (hFits : Fits p addr nbytes) (hAddr : p.baddr addr ≠ 0) :
    Outcome.Meets (access p fn cmd addr buf nbytes now rnd c n)
      (fun r => Accessed p cmd addr c r.replAddr r.cache) (Fails fn) := by
  by_cases hHit : ∃ w, Resident p c addr w
  · obtain ⟨w, hw⟩ := hHit
    obtain ⟨r, hr⟩ := bcopy_ok cmd buf ((c.sets (p.set addr)).blks w).data hFits
    rw [access_of_hit h hCheck hw, hr]
    exact .hit hw
  · have hNone : ∀ w, ¬ Resident p c addr w := fun w hw => hHit ⟨w, hw⟩
    obtain ⟨w, hw, st, hSt, hEq⟩ := access_of_miss fn cmd buf now rnd n h hCheck hAddr hNone
    rw [hEq]
    refine evict_meets.bind fun x _ => ?_
    cases hFn : fn .read (p.baddr addr) p.bsize ((c.sets (p.set addr)).blks w).data
      (now + x.1.toInt) x.2.2.2 with
    | error e => exact ⟨_, _, _, _, _, _, hFn⟩
    | ok y =>
      obtain ⟨z, hz⟩ := bcopy_ok cmd buf y.2.1 hFits
      show Outcome.Meets (bcopy p cmd y.2.1 (p.blk addr) nbytes buf >>= _) _ _
      rw [hz]
      have hRepl : (if ((c.sets (p.set addr)).blks w).valid then
          p.mkBaddr ((c.sets (p.set addr)).blks w).tag (p.set addr) else 0) =
          if ((c.sets (p.set addr)).blks w).valid then ((c.sets (p.set addr)).blks w).origin
          else 0 := by
        split
        · rename_i hValid
          exact h.mkBaddr_eq hValid
        · rfl
      show Accessed p cmd addr c (if ((c.sets (p.set addr)).blks w).valid then
        p.mkBaddr ((c.sets (p.set addr)).blks w).tag (p.set addr) else 0) _
      rw [hRepl]
      exact .miss hNone hw (hSt _ rfl) rfl rfl rfl

variable {a : Word} {c' : State}

theorem Accessed.inv (h : CacheInv p c) (hAddr : p.baddr addr ≠ 0)
    (hAcc : Accessed p cmd addr c a c') : CacheInv p c' := by
  cases hAcc with
  | hit hw => exact h.hit hw _
  | miss _ _ hSt hTag _ hOrigin => exact h.miss hAddr hSt hTag hOrigin

/-- An access counts a hit if the block is resident, and a miss otherwise. -/
theorem Accessed.counts (hAcc : Accessed p cmd addr c a c') :
    ((∃ w, Resident p c addr w) ∧ c'.hits = c.hits + 1 ∧ c'.misses = c.misses) ∨
      ((∀ w, ¬ Resident p c addr w) ∧ c'.hits = c.hits ∧ c'.misses = c.misses + 1) := by
  cases hAcc with
  | hit hw => exact .inl ⟨⟨_, hw⟩, rfl, rfl⟩
  | miss hNone _ _ _ _ _ => exact .inr ⟨hNone, rfl, rfl⟩

/-! ### Every run -/

/-- What one operation does to the cache. -/
inductive Stepped (p : Params) (c : State) : Op → Out → State → Prop
  | access {cmd : MemCmd} {addr : Word} {buf buf' : List Byte} {nbytes : Nat} {now : Int} {rnd : Nat}
    {a : Word} {c' : State} (hAcc : Accessed p cmd addr c a c') :
    Stepped p c (.access cmd addr buf nbytes now rnd) ⟨some (c'.hits == c.hits + 1), buf', a⟩ c'
  | flush {now : Int} {c' : State} (hClear : Cleared p (visited c (List.range p.nsets)) c c')
    (hNone : ∀ i w, w < p.assoc → ((c'.sets i).blks w).valid = false) :
    Stepped p c (.flush now) ⟨none, [], 0⟩ c'
  | flushed {addr : Word} {now : Int} {w : Nat} (hw : Resident p c addr w) :
    Stepped p c (.flushAddr addr now) ⟨none, [], 0⟩ (flushedState p addr w c)
  | absent {addr : Word} {now : Int} (hNone : ∀ w, ¬ Resident p c addr w) :
    Stepped p c (.flushAddr addr now) ⟨none, [], 0⟩ c

variable {op : Op}

theorem step_meets (h : CacheInv p c) (hLegal : op.Legal p) :
    Outcome.Meets (step p fn op (c, n)) (fun r => Stepped p c op r.1 r.2.1) (Fails fn) := by
  cases op with
  | access cmd addr buf nbytes now rnd =>
    exact (access_meets h hLegal.1 hLegal.2.1 hLegal.2.2).bind fun r hr => .access hr
  | flush now => exact (flush_cleared h).bind fun r hr => .flush hr.1 hr.2.1
  | flushAddr addr now =>
    rw [step]
    by_cases hRes : ∃ w, Resident p c addr w
    · obtain ⟨w, hw⟩ := hRes
      rw [flushAddr_of_resident h hw]
      split
      · cases hFn : fn .write (p.baddr addr) p.bsize ((c.sets (p.set addr)).blks w).data
          (now + p.hitLatency.toInt) n with
        | error e => exact ⟨_, _, _, _, _, _, hFn⟩
        | ok r => exact .flushed hw
      · exact .flushed hw
    · have hNone : ∀ w, ¬ Resident p c addr w := fun w hw => hRes ⟨w, hw⟩
      rw [flushAddr_of_absent h hNone]
      exact .absent hNone

/-- The operation is no access to block 0. -/
def Op.OffZero (p : Params) : Op → Prop
  | .access _ addr _ _ _ _ => p.baddr addr ≠ 0
  | .flush _ => True
  | .flushAddr _ _ => True

/-- An operation that returns is one of the legal ones, but for block 0. -/
theorem Op.OffZero.legal (h : op.OffZero p) {r : Out × State × σ}
    (hOk : step p fn op (c, n) = .ok r) : op.Legal p := by
  cases op with
  | access cmd addr buf nbytes now rnd =>
    obtain ⟨_, hAccess, -⟩ := Outcome.bind_eq_ok.mp hOk
    obtain ⟨hCheck, hFits⟩ := admitted_of_access hAccess
    exact ⟨hCheck, hFits, h⟩
  | flush now => trivial
  | flushAddr addr now => trivial

theorem Stepped.inv {o : Out} (h : CacheInv p c) (hLegal : op.Legal p)
    (hStep : Stepped p c op o c') : CacheInv p c' := by
  cases hStep with
  | access hAcc => exact hAcc.inv h hLegal.2.2
  | flush hClear _ => exact hClear.inv
  | flushed hw => exact h.flushed hw.1
  | absent _ => exact h

/-- What holds initially and is kept by the operations holds after every run. -/
theorem runOps_meets {I : State → List Out → Prop} {ops : List Op}
    (hLegal : ∀ op ∈ ops, op.Legal p) (h : CacheInv p c) (hStart : I c [])
    (hStep : ∀ op ∈ ops, ∀ {c os o c'}, CacheInv p c → I c os → Stepped p c op o c' →
      I c' (os ++ [o])) :
    Outcome.Meets (runOps p fn ops (c, n)) (fun r => CacheInv p r.2.1 ∧ I r.2.1 r.1) (Fails fn) := by
  suffices hGen : ∀ {ops' : List Op} {c n os}, (∀ op ∈ ops', op ∈ ops) → CacheInv p c → I c os →
      Outcome.Meets (runOps p fn ops' (c, n))
        (fun r => CacheInv p r.2.1 ∧ I r.2.1 (os ++ r.1)) (Fails fn) by
    exact hGen (fun _ h => h) h hStart
  intro ops'
  induction ops' with
  | nil =>
    intro c n os _ h hI
    exact ⟨h, by rwa [List.append_nil]⟩
  | cons op ops' ih =>
    intro c n os hSub h hI
    have hOp := hSub op (by simp)
    refine (step_meets h (hLegal op hOp)).bind fun r hr => ?_
    obtain ⟨o, c', n'⟩ := r
    have hNext := ih (n := n') (fun op' hMem => hSub op' (by simp [hMem]))
      (hr.inv h (hLegal op hOp)) (hStep op hOp h hI hr)
    refine hNext.bind fun r hr => ?_
    obtain ⟨os', x⟩ := r
    rw [List.append_assoc] at hr
    exact hr

/-- **The invariant holds along every run.** -/
theorem runOps_inv {ops : List Op} (hLegal : ∀ op ∈ ops, op.Legal p) {os : List Out} {n' : σ}
    (hRun : runOps p fn ops (create p, n) = .ok (os, c, n')) : CacheInv p c :=
  ((runOps_meets (I := fun _ _ => True) hLegal (create_inv p) trivial
    fun _ _ _ _ _ _ _ _ _ => trivial).of_ok hRun).1

/-! ### Probing -/

theorem CacheInv.probe_iff (h : CacheInv p c) :
    probe p addr c = true ↔ ∃ w, Resident p c addr w := by
  unfold probe
  rw [Option.isSome_iff_exists]
  exact exists_congr fun w => h.findBlk_eq_some

/-- The block an access has used: the last block to hit, or the block a miss has filled. -/
theorem Accessed.used (h : CacheInv p c) (hAcc : Accessed p cmd addr c a c') :
    (c'.hits = c.hits + 1 → ∃ w, c'.lastBlk = some (p.set addr, w) ∧ w < p.assoc ∧
      (c.sets (p.set addr)).Holds (p.tag addr) w) ∧
    ∃ w < p.assoc, (c'.sets (p.set addr)).Holds (p.tag addr) w := by
  cases hAcc with
  | @hit w data hw =>
    have hHolds := h.holds_iff.mpr hw.2
    refine ⟨fun _ => ⟨w, rfl, hw.1, hHolds⟩, w, hw.1, ?_⟩
    have hSelf : (hitState p cmd addr w data c).sets (p.set addr) =
        hitSet p cmd w data (c.sets (p.set addr)) := Function.update_self ..
    have hSame := hitSet_blks_same p cmd w data (c.sets (p.set addr)) w
    unfold CacheSet.Holds
    rw [hSelf, hSame.1, hSame.2.2]
    exact hHolds
  | @miss w b st busFree writes hNone hw hSt hTag hValid hOrigin =>
    refine ⟨fun hHits => absurd hHits (by simp [missState]), w, hw, ?_⟩
    have hSelf : (missState p addr ((c.sets (p.set addr)).blks w) busFree writes st c).sets
        (p.set addr) = st := Function.update_self ..
    unfold CacheSet.Holds
    rw [hSelf, hSt.blks, Function.update_self]
    exact ⟨hTag, hValid⟩

/-- Four sets of two blocks of 32 bytes. -/
def Params.small : Params := .of 4 32 2 true .LRU 1 (by decide)

/-- Memory that always holds zeros. -/
def zeroMemory : BlkAccess Unit := fun _ _ bsize _ _ n => .ok (10, List.replicate bsize 0, n)

end SimpleScalar.Cache

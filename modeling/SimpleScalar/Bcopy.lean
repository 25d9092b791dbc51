import SimpleScalar.Memory

/-!
# Block copies

`memory.c` copies between simulated and host memory through a memory access
function, a byte at a time (`mem_bcopy`) or a word at a time (`mem_bcopy4`).  The
access function is a parameter; `FlatMem` says that it behaves as a flat byte
memory, and what one loop does is read off from that.

`mem_bcopy4` advances its address and its pointer before each access, so it copies
the range that starts one word later.

* `copied_bcopyLoop`: the byte loop moves the bytes it was asked for.
* `memBcopy4_effect`: the word loop moves what the byte loop moves one word later.
* `copiesAlike_iff`: the two agree exactly when there is nothing to copy.
-/

namespace SimpleScalar

namespace Bcopy

/-- A memory access function: command, address, host pointer and transfer length. -/
abbrev MemAccessFn (σ : Type) := MemCmd → Word → ℕ → ℕ → σ → σ

section Loops

variable {σ : Type}

/-- `n` turns of the loop of `mem_bcopy`. -/
def bcopyLoop (fn : MemAccessFn σ) (cmd : MemCmd) : Word → ℕ → ℕ → σ → σ
  | _, _, 0, s => s
  | addr, p, n + 1, s => bcopyLoop fn cmd (addr + 1) (p + 1) n (fn cmd addr p 1 s)

/-- `n` turns of the loop of `mem_bcopy4`; address and pointer move before the access. -/
def bcopy4Loop (fn : MemAccessFn σ) (cmd : MemCmd) : Word → ℕ → ℕ → σ → σ
  | _, _, 0, s => s
  | addr, p, n + 1, s => bcopy4Loop fn cmd (addr + 4) (p + 4) n (fn cmd (addr + 4) (p + 4) 4 s)

/-- `mem_bcopy`: `while (nbytes-- > 0)`. -/
def memBcopy (fn : MemAccessFn σ) (cmd : MemCmd) (addr : Word) (p : ℕ) (nbytes : ℤ) : σ → σ :=
  bcopyLoop fn cmd addr p nbytes.toNat

/-- `mem_bcopy4`: `words = nbytes >> 2`, then `while (words-- > 0)`. -/
def memBcopy4 (fn : MemAccessFn σ) (cmd : MemCmd) (addr : Word) (p : ℕ) (nbytes : ℤ) : σ → σ :=
  bcopy4Loop fn cmd addr p (nbytes >>> (2 : ℕ)).toNat

end Loops

/-! ### Flat byte memory -/

/-- The effect of moving `n` bytes between `addr` and `p`: a read fills the host
bytes and changes nothing else, a write stores the host bytes and changes nothing
else. -/
def Copied (addr : Word) (p n : ℕ) (sim sim' : Word → Byte) (host host' : ℕ → Byte) : MemCmd → Prop
  | .read => sim' = sim ∧ ∀ q, host' q =
      if p ≤ q ∧ q < p + n then sim (addr + BitVec.ofNat 32 (q - p)) else host q
  | .write => host' = host ∧ ∀ b, sim' b =
      if (b - addr).toNat < n then host (p + (b - addr).toNat) else sim b

/-- An access function that behaves as a flat byte memory on every access that is
aligned to its own size. -/
structure FlatMem (σ : Type) where
  fn : MemAccessFn σ
  sim : σ → Word → Byte
  host : σ → ℕ → Byte
  copied : ∀ (cmd : MemCmd) (a : Word) (p n : ℕ) (s : σ), n.isPowerOfTwo → n ∣ a.toNat →
    Copied a p n (sim s) (sim (fn cmd a p n s)) (host s) (host (fn cmd a p n s)) cmd

/-! ### Accesses made -/

/-- One call of the access function. -/
structure Access where
  addr : Word
  ptr : ℕ
  nbytes : ℕ
  deriving DecidableEq, Repr

/-- An access function that only notes its calls. -/
def noteAccess : MemAccessFn (List Access) := fun _ a p n log => log ++ [⟨a, p, n⟩]

/-- Every byte of the access lies in the two requested ranges. -/
def Access.Within (addr : Word) (p : ℕ) (nbytes : ℤ) (c : Access) : Prop :=
  ∀ i < c.nbytes, (((c.addr + BitVec.ofNat 32 i - addr).toNat : ℤ) < nbytes) ∧
    p ≤ c.ptr + i ∧ ((c.ptr + i : ℕ) : ℤ) < p + nbytes

/-- `mem_bcopy4` does to both memories what `mem_bcopy` does, and every byte it
touches was asked for. -/
structure CopiesAlike {σ : Type} (m : FlatMem σ) (cmd : MemCmd) (addr : Word) (p : ℕ) (nbytes : ℤ)
    (s : σ) : Prop where
  sim : m.sim (memBcopy4 m.fn cmd addr p nbytes s) = m.sim (memBcopy m.fn cmd addr p nbytes s)
  host : m.host (memBcopy4 m.fn cmd addr p nbytes s) = m.host (memBcopy m.fn cmd addr p nbytes s)
  within : ∀ c ∈ memBcopy4 noteAccess cmd addr p nbytes [], c.Within addr p nbytes

theorem toNat_shiftRight_two (nbytes : ℤ) : (nbytes >>> (2 : ℕ)).toNat = nbytes.toNat / 4 := by
  rw [Int.shiftRight_eq_div_pow]
  omega

/-! ### The access after the last word -/

theorem bcopy4Loop_note (cmd : MemCmd) : ∀ (n : ℕ) (addr : Word) (p : ℕ) (log : List Access),
    bcopy4Loop noteAccess cmd addr p n log = log ++ (List.range n).map fun k =>
      ⟨addr + BitVec.ofNat 32 (4 * (k + 1)), p + 4 * (k + 1), 4⟩ := by
  intro n
  induction n with
  | zero =>
    intro addr p log
    rw [bcopy4Loop, List.range_zero, List.map_nil, List.append_nil]
  | succ n ih =>
    intro addr p log
    rw [bcopy4Loop, ih, noteAccess, List.append_assoc, List.range_succ_eq_map, List.map_cons,
      List.map_map, List.singleton_append]
    refine congrArg (log ++ ·) (congrArg₂ List.cons rfl (List.map_congr_left fun k _ => ?_))
    have hAddr : addr + 4 + BitVec.ofNat 32 (4 * (k + 1)) =
        addr + BitVec.ofNat 32 (4 * (k + 1 + 1)) := by
      rw [BitVec.add_assoc, show (4 : Word) = BitVec.ofNat 32 4 from rfl, ← BitVec.ofNat_add]
      congr 2
      omega
    have hPtr : p + 4 + 4 * (k + 1) = p + 4 * (k + 1 + 1) := by omega
    rw [hAddr, hPtr]
    rfl

variable {addr : Word}

variable {cmd : MemCmd} {p : ℕ} {nbytes : ℤ}

/-- The last access starts right behind the requested bytes. -/
theorem last_mem_memBcopy4 (h4 : 4 ∣ nbytes)
    (hPos : 0 < nbytes) : ⟨addr + BitVec.ofNat 32 nbytes.toNat, p + nbytes.toNat, 4⟩ ∈
      memBcopy4 noteAccess cmd addr p nbytes [] := by
  rw [memBcopy4, bcopy4Loop_note, List.nil_append, List.mem_map]
  refine ⟨nbytes.toNat / 4 - 1, List.mem_range.mpr ?_, ?_⟩
  · rw [toNat_shiftRight_two]
    omega
  · have hEnd : 4 * (nbytes.toNat / 4 - 1 + 1) = nbytes.toNat := by omega
    rw [hEnd]

theorem not_within_last (hPos : 0 < nbytes) :
    ¬ Access.Within addr p nbytes ⟨addr + BitVec.ofNat 32 nbytes.toNat, p + nbytes.toNat, 4⟩ := by
  intro h
  obtain ⟨-, -, hEnd⟩ := h 0 (Nat.succ_pos 3)
  simp only [Nat.add_zero] at hEnd
  omega

/-! ### Effect of the loops -/

theorem ofNat_add_cancel (a b : Word) {k : ℕ} (h : k ≤ (b - a).toNat) :
    (b - (a + BitVec.ofNat 32 k)).toNat = (b - a).toNat - k := by
  have hlt := (b - a).isLt
  have hk : (BitVec.ofNat 32 k).toNat = k := by
    rw [BitVec.toNat_ofNat, Nat.mod_eq_of_lt (by omega)]
  rw [← BitVec.sub_sub, BitVec.toNat_sub_of_le (BitVec.le_def.mpr (by rwa [hk])), hk]

theorem lt_of_not_offset (a b : Word) {k n : ℕ} (hn : k + n ≤ 2 ^ 32) (h : (b - a).toNat < k) :
    ¬ (b - (a + BitVec.ofNat 32 k)).toNat < n := by
  have hk : (BitVec.ofNat 32 k).toNat = k % 2 ^ 32 := BitVec.toNat_ofNat k 32
  rw [← BitVec.sub_sub, BitVec.toNat_sub, hk]
  have hlt := (b - a).isLt
  omega

/-- Two copies one behind the other are one copy. -/
theorem Copied.append {p k n : ℕ} {sim sim' sim'' : Word → Byte}
    {host host' host'' : ℕ → Byte} (hn : k + n ≤ 2 ^ 32)
    (h : Copied addr p k sim sim' host host' cmd)
    (h' : Copied (addr + BitVec.ofNat 32 k) (p + k) n sim' sim'' host' host'' cmd) :
    Copied addr p (k + n) sim sim'' host host'' cmd := by
  cases cmd with
  | read =>
    obtain ⟨hSim, hHost⟩ := h
    obtain ⟨hSim', hHost'⟩ := h'
    refine ⟨hSim'.trans hSim, fun q => ?_⟩
    rw [hHost', hHost, hSim]
    by_cases hSecond : p + k ≤ q ∧ q < p + k + n
    · rw [if_pos hSecond, if_pos (by omega), BitVec.add_assoc, ← BitVec.ofNat_add]
      congr 3
      omega
    · rw [if_neg hSecond]
      by_cases hFirst : p ≤ q ∧ q < p + k
      · rw [if_pos hFirst, if_pos (by omega)]
      · rw [if_neg hFirst, if_neg (by omega)]
  | write =>
    obtain ⟨hHost, hSim⟩ := h
    obtain ⟨hHost', hSim'⟩ := h'
    refine ⟨hHost'.trans hHost, fun b => ?_⟩
    rw [hSim', hSim, hHost]
    by_cases hFirst : (b - addr).toNat < k
    · rw [if_neg (lt_of_not_offset addr b hn hFirst), if_pos hFirst, if_pos (by omega)]
    · rw [ofNat_add_cancel addr b (by omega), if_neg hFirst]
      by_cases hSecond : (b - addr).toNat - k < n
      · rw [if_pos hSecond, if_pos (by omega)]
        congr 1
        omega
      · rw [if_neg hSecond, if_neg (by omega)]

theorem copied_zero (addr : Word) (p : ℕ) (sim : Word → Byte) (host : ℕ → Byte) (cmd : MemCmd) :
    Copied addr p 0 sim sim host host cmd := by
  cases cmd with
  | read => exact ⟨rfl, fun q => (if_neg (by omega)).symm⟩
  | write => exact ⟨rfl, fun b => (if_neg (by omega)).symm⟩

/-- The effect is a function of what was there before. -/
theorem Copied.unique {p n : ℕ} {sim sim₁ sim₂ : Word → Byte}
    {host host₁ host₂ : ℕ → Byte} (h₁ : Copied addr p n sim sim₁ host host₁ cmd)
    (h₂ : Copied addr p n sim sim₂ host host₂ cmd) : sim₁ = sim₂ ∧ host₁ = host₂ := by
  cases cmd with
  | read => exact ⟨h₁.1.trans h₂.1.symm, funext fun q => (h₁.2 q).trans (h₂.2 q).symm⟩
  | write => exact ⟨funext fun b => (h₁.2 b).trans (h₂.2 b).symm, h₁.1.trans h₂.1.symm⟩

section Effect

variable {σ : Type} (m : FlatMem σ) (cmd : MemCmd)

theorem copied_bcopyLoop : ∀ (n : ℕ) (addr : Word) (p : ℕ) (s : σ), n ≤ 2 ^ 32 →
    Copied addr p n (m.sim s) (m.sim (bcopyLoop m.fn cmd addr p n s)) (m.host s)
      (m.host (bcopyLoop m.fn cmd addr p n s)) cmd := by
  intro n
  induction n with
  | zero => exact fun addr p s _ => copied_zero addr p (m.sim s) (m.host s) cmd
  | succ n ih =>
    intro addr p s hn
    have hFirst := m.copied cmd addr p 1 s ⟨0, rfl⟩ (one_dvd _)
    have hRest := ih (addr + 1) (p + 1) (m.fn cmd addr p 1 s) (by omega)
    have hBoth := hFirst.append (by omega) hRest
    rwa [Nat.add_comm 1 n] at hBoth

theorem aligned_add_four (h : 4 ∣ addr.toNat) : 4 ∣ (addr + 4).toNat := by
  rw [BitVec.toNat_add, show (4 : Word).toNat = 4 from rfl]
  omega

theorem copied_bcopy4Loop : ∀ (n : ℕ) (addr : Word) (p : ℕ) (s : σ), 4 * n ≤ 2 ^ 32 →
    4 ∣ addr.toNat →
    Copied (addr + 4) (p + 4) (4 * n) (m.sim s) (m.sim (bcopy4Loop m.fn cmd addr p n s)) (m.host s)
      (m.host (bcopy4Loop m.fn cmd addr p n s)) cmd := by
  intro n
  induction n with
  | zero => exact fun addr p s _ _ => copied_zero (addr + 4) (p + 4) (m.sim s) (m.host s) cmd
  | succ n ih =>
    intro addr p s hn hAlign
    have hFirst := m.copied cmd (addr + 4) (p + 4) 4 s ⟨2, rfl⟩ (aligned_add_four hAlign)
    have hRest := ih (addr + 4) (p + 4) (m.fn cmd (addr + 4) (p + 4) 4 s) (by omega)
      (aligned_add_four hAlign)
    have hBoth := hFirst.append (by omega) hRest
    rwa [Nat.add_comm 4 (4 * n), ← Nat.mul_succ] at hBoth

/-- The word loop copies the range one word behind the one it was given. -/
theorem memBcopy4_effect (s : σ) (hAddr : 4 ∣ addr.toNat)
    (h4 : 4 ∣ nbytes) (hInt : nbytes < 2 ^ 31) :
    m.sim (memBcopy4 m.fn cmd addr p nbytes s) =
        m.sim (memBcopy m.fn cmd (addr + 4) (p + 4) nbytes s) ∧
      m.host (memBcopy4 m.fn cmd addr p nbytes s) =
        m.host (memBcopy m.fn cmd (addr + 4) (p + 4) nbytes s) := by
  have hWords := copied_bcopy4Loop m cmd (nbytes.toNat / 4) addr p s (by omega) hAddr
  have hLength : 4 * (nbytes.toNat / 4) = nbytes.toNat := by omega
  rw [hLength] at hWords
  rw [memBcopy4, memBcopy, toNat_shiftRight_two]
  exact hWords.unique (copied_bcopyLoop m cmd nbytes.toNat (addr + 4) (p + 4) s (by omega))

end Effect

/-- **Word-wise and byte-wise copy.**  Whatever the address and the buffer, the word loop
does what the byte loop does, within the requested ranges, exactly when there is nothing
to copy. -/
theorem copiesAlike_iff {σ : Type} (m : FlatMem σ) (cmd : MemCmd) (addr : Word) (p : ℕ) {nbytes : ℤ}
    (s : σ) (h4 : 4 ∣ nbytes) : CopiesAlike m cmd addr p nbytes s ↔ nbytes ≤ 0 := by
  constructor
  · intro h
    by_contra hPos
    exact not_within_last (by omega) (h.within _ (last_mem_memBcopy4 h4 (by omega)))
  · intro hNone
    have hWords : (nbytes >>> (2 : ℕ)).toNat = 0 := by
      rw [toNat_shiftRight_two]
      omega
    have hBytes : nbytes.toNat = 0 := by omega
    constructor
    · rw [memBcopy4, memBcopy, hWords, hBytes]
      rfl
    · rw [memBcopy4, memBcopy, hWords, hBytes]
      rfl
    · rw [memBcopy4, hWords]
      intro c hc
      cases hc

/-- Simulated and host memory as two byte maps. -/
def byteMaps : FlatMem ((Word → Byte) × (ℕ → Byte)) where
  fn cmd a p n s := match cmd with
    | .read => (s.1, fun q => if p ≤ q ∧ q < p + n then s.1 (a + BitVec.ofNat 32 (q - p)) else s.2 q)
    | .write => (fun b => if (b - a).toNat < n then s.2 (p + (b - a).toNat) else s.1 b, s.2)
  sim := Prod.fst
  host := Prod.snd
  copied cmd a p n s _ _ := by
    cases cmd with
    | read => exact ⟨rfl, fun _ => rfl⟩
    | write => exact ⟨rfl, fun _ => rfl⟩

/-- Byte `a` of simulated memory holds `a + 1`, the host buffer is clear. -/
def countingBytes : (Word → Byte) × (ℕ → Byte) := (fun a => (a + 1).setWidth 8, fun _ => 0)

theorem memBcopy4_effect_counting :
    byteMaps.host (memBcopy4 byteMaps.fn .read 0x10000000#32 64 8 countingBytes) =
      byteMaps.host (memBcopy byteMaps.fn .read 0x10000004#32 68 8 countingBytes) :=
  (memBcopy4_effect byteMaps .read countingBytes (by decide) (by decide) (by decide)).2

theorem copiesAlike_nothing : CopiesAlike byteMaps .read 0x10000000#32 64 0 countingBytes :=
  (copiesAlike_iff byteMaps .read 0x10000000#32 64 countingBytes (dvd_zero 4)).mpr le_rfl

/-- Reading eight bytes: `mem_bcopy4` leaves the first word of the buffer as it was and
overwrites the word behind the buffer. -/
theorem reads_one_word_late : ¬ CopiesAlike byteMaps .read 0x10000000#32 64 8 countingBytes ∧
    (List.range 12).map (byteMaps.host
        (memBcopy byteMaps.fn .read 0x10000000#32 64 8 countingBytes) ∘ (64 + ·)) =
      [1, 2, 3, 4, 5, 6, 7, 8, 0, 0, 0, 0] ∧
    (List.range 12).map (byteMaps.host
        (memBcopy4 byteMaps.fn .read 0x10000000#32 64 8 countingBytes) ∘ (64 + ·)) =
      [0, 0, 0, 0, 5, 6, 7, 8, 9, 10, 11, 12] := by
  refine ⟨fun h => ?_, by decide, by decide⟩
  have hFirst := congrFun h.host 64
  revert hFirst
  decide

end Bcopy

end SimpleScalar

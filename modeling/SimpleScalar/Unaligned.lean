import SimpleScalar.Fast

/-!
# Unaligned words

`LWL`, `LWR`, `SWL` and `SWR` of `ss.def`, executed by `sim-fast`, which accepts every address.  A
pair of them is to move the four bytes from `A` on: the left one names the byte that is the most
significant in the register, the right one the least significant byte.  The instructions mask the
aligned words around the two bytes, but never shift them.

* `unaligned_iff`: the pairs work exactly for the multiples of four.
-/

namespace SimpleScalar

/-! ### The instructions -/

/-- The two instructions of a pair. -/
inductive Side where
  | left
  | right
  deriving DecidableEq, Repr

namespace Side

def other : Side → Side
  | left => right
  | right => left

def load : Side → Opcode
  | left => .lwl
  | right => .lwr

def store : Side → Opcode
  | left => .swl
  | right => .swr

/-- `WL_PROT_MASK` and `WR_PROT_MASK`. -/
def protMask (bigEndian : Bool) : Side → Word → Word
  | left => wlProtMask bigEndian
  | right => wrProtMask bigEndian

/-- The byte a side names, of the word at `a`. -/
def addr (bigEndian : Bool) (a : Word) : Side → Word
  | left => if bigEndian then a else a + 3
  | right => if bigEndian then a + 3 else a

end Side

namespace Fast

variable {pf : Platform} {ld : Segments}

/-- The instruction names register `t` and the address `a`. -/
structure Names (inst : Inst) (t : Fin 32) (x : Exec pf) (a : Word) : Prop where
  target : inst.rt = t
  base : ∃ h : inst.rs < 32, x.arch.regs (.r ⟨inst.rs, h⟩) + inst.imm = a

/-- Register `t` set to `w`. -/
def Exec.setGpr (x : Exec pf) (t : Fin 32) (w : Word) : Exec pf := { x with arch := x.arch.setReg (.r t) w }

/-- The word at `a` set to `w`. -/
def Exec.putWord (x : Exec pf) (a w : Word) : Exec pf :=
  { x with arch := { x.arch with mem := x.arch.mem.putWord pf.bigEndian a w } }

/-- The word at `a`. -/
def Exec.word (x : Exec pf) (a : Word) : Word := x.arch.mem.word pf.bigEndian a

theorem Exec.setGpr_self (x : Exec pf) (t : Fin 32) (w : Word) : (x.setGpr t w).arch.regs (.r t) = w :=
  Function.update_self ..

theorem Exec.setGpr_of_ne (x : Exec pf) {t u : Fin 32} (w : Word) (h : u ≠ t) :
    (x.setGpr t w).arch.regs (.r u) = x.arch.regs (.r u) :=
  Function.update_of_ne (fun hEq => h (Reg.r.inj hEq)) ..

theorem Exec.setGpr_setGpr (x : Exec pf) (t : Fin 32) (v w : Word) :
    (x.setGpr t v).setGpr t w = x.setGpr t w := by
  simp only [setGpr, Arch.setReg, Function.update_idem]

theorem Exec.word_setGpr (x : Exec pf) (t : Fin 32) (a w : Word) : (x.setGpr t w).word a = x.word a := rfl

theorem Exec.word_putWord (x : Exec pf) (a w : Word) : (x.putWord a w).word a = w :=
  Mem.word_putWord ..

theorem Exec.putWord_putWord (x : Exec pf) (a v w : Word) : (x.putWord a v).putWord a w = x.putWord a w := by
  simp only [putWord, Mem.putWord_putWord]

/-- The instruction executed. -/
def execute (pf : Platform) (ld : Segments) (op : Opcode) (inst : Inst) (pc : Word) (x : Exec pf) :
    Except Stop (Exec pf) :=
  run pf ld inst pc (op.expr (Safe.engine pf) inst) x

section

variable {inst : Inst} {t : Fin 32} {pc a : Word} {x : Exec pf}

/-- The register is merged with the aligned word around the byte. -/
theorem execute_load (s : Side) (h : Names inst t x a) :
    execute pf ld s.load inst pc x = .ok (x.setGpr t ((x.arch.regs (.r t) &&& s.protMask pf.bigEndian a) |||
      (x.word (a &&& ~~~3#32) &&& ~~~s.protMask pf.bigEndian a))) := by
  obtain ⟨ht, hs, rfl⟩ := h
  have hGpr : gpr inst.rs = .get (.r ⟨inst.rs, hs⟩) .ret := dif_pos hs
  have hGpr' : gpr inst.rt = .get (.r t) .ret := by rw [gpr, ht, dif_pos t.isLt]
  have hSet : ∀ e, setGpr inst.rt e = .use (.r t) (e.bind fun v => .put (.r t) v (.ret ())) := by
    intro e
    rw [setGpr, ht, dif_pos t.isLt]
  unfold execute
  cases s with
  | left =>
    simp only [Side.load, Opcode.expr, hGpr, hGpr', hSet]
    rfl
  | right =>
    simp only [Side.load, Opcode.expr, hGpr, hGpr', hSet]
    rfl

/-- The aligned word around the byte is merged with the register. -/
theorem execute_store (s : Side) (h : Names inst t x a) :
    execute pf ld s.store inst pc x = .ok (x.putWord (a &&& ~~~3#32)
      ((x.arch.regs (.r t) &&& ~~~s.protMask pf.bigEndian a) |||
        (x.word (a &&& ~~~3#32) &&& s.protMask pf.bigEndian a))) := by
  obtain ⟨ht, hs, rfl⟩ := h
  have hGpr : gpr inst.rs = .get (.r ⟨inst.rs, hs⟩) .ret := dif_pos hs
  have hGpr' : gpr inst.rt = .get (.r t) .ret := by rw [gpr, ht, dif_pos t.isLt]
  unfold execute
  cases s with
  | left =>
    simp only [Side.store, Opcode.expr, dispAddr, hGpr, hGpr']
    rfl
  | right =>
    simp only [Side.store, Opcode.expr, dispAddr, hGpr, hGpr']
    rfl

end

/-! ### Aligned words -/

theorem toNat_and_three (a : Word) : (a &&& 3#32).toNat = a.toNat % 4 := by
  rw [BitVec.toNat_and, show (3#32).toNat = 2 ^ 2 - 1 from rfl, Nat.and_two_pow_sub_one_eq_mod]

theorem toNat_and_not_three (a : Word) : (a &&& ~~~3#32).toNat = a.toNat - a.toNat % 4 := by
  have hOr : a &&& 3#32 ||| a &&& ~~~3#32 = a := by
    rw [← BitVec.and_or_distrib_left, BitVec.or_not_self, BitVec.and_allOnes]
  have hSum : a &&& 3#32 ||| a &&& ~~~3#32 = (a &&& 3#32) + (a &&& ~~~3#32) := by
    refine (BitVec.add_eq_or_of_and_eq_zero _ _ ?_).symm
    rw [BitVec.and_assoc, BitVec.and_comm a (~~~3#32), ← BitVec.and_assoc (3#32), BitVec.and_not_self,
      show (0 : Word) = 0#32 from rfl, BitVec.zero_and, BitVec.and_zero]
  have hNat := congrArg BitVec.toNat (hSum.symm.trans hOr)
  have hLe : (a &&& ~~~3#32).toNat ≤ a.toNat := by
    rw [BitVec.toNat_and]
    exact Nat.and_le_left
  have hlt := a.isLt
  rw [BitVec.toNat_add, toNat_and_three] at hNat
  omega

section

variable {a : Word} {b : Bool}

/-- Both sides of an aligned word are in it. -/
theorem base_of_aligned (h : a.toNat % 4 = 0) (s : Side) : s.addr b a &&& ~~~3#32 = a := by
  have hlt := a.isLt
  have hThree : (a + 3).toNat = a.toNat + 3 := by
    rw [BitVec.toNat_add, show BitVec.toNat (3 : Word) = 3 from rfl]
    omega
  apply BitVec.eq_of_toNat_eq
  rw [toNat_and_not_three]
  cases s <;> cases b <;> simp only [Side.addr, if_true, if_false, Bool.false_eq_true, hThree] <;> omega

/-- What one side of an aligned word protects, the other one moves. -/
theorem masks_of_aligned (h : a.toNat % 4 = 0) (s : Side) :
    s.protMask b (s.addr b a) &&& s.other.protMask b (s.other.addr b a) = 0#32 := by
  have hZero : a &&& 3#32 = 0#32 := BitVec.eq_of_toNat_eq ((toNat_and_three a).trans h)
  have hThree : (a + 3) &&& 3#32 = 3#32 := by
    apply BitVec.eq_of_toNat_eq
    rw [toNat_and_three, BitVec.toNat_add, show BitVec.toNat (3 : Word) = 3 from rfl]
    show _ = 3
    omega
  cases s <;> cases b <;>
    simp only [Side.addr, Side.other, Side.protMask, wlProtMask, wlSize, wrProtMask, wrSize, hZero, hThree, if_true,
      if_false, Bool.false_eq_true] <;> decide

end

/-- Two merges that protect different bits leave nothing of the first value. -/
theorem merge_merge {m₁ m₂ : Word} (h : m₁ &&& m₂ = 0#32) (v w : Word) :
    (((v &&& m₁) ||| (w &&& ~~~m₁)) &&& m₂) ||| (w &&& ~~~m₂) = w := by
  apply BitVec.eq_of_getLsbD_eq
  intro i hi
  have hBit := congrArg (BitVec.getLsbD · i) h
  simp only [BitVec.getLsbD_and, BitVec.getLsbD_zero] at hBit
  simp only [BitVec.getLsbD_or, BitVec.getLsbD_and, BitVec.getLsbD_not, hi, decide_true, Bool.true_and]
  cases h₁ : m₁.getLsbD i with
  | false => simp [← Bool.and_or_distrib_left]
  | true =>
    rw [h₁, Bool.true_and] at hBit
    simp [hBit]

/-! ### The pairs -/

/-- The pairs at `a` move the word at `a`: in either order of the two instructions, the register
gets the word, or the word gets the register, and a load finds what was stored. -/
structure MovesWord (pf : Platform) (ld : Segments) (a : Word) : Prop where
  load : ∀ (s : Side) (i j : Inst) (t : Fin 32) (pc pc' : Word) (x : Exec pf),
    Names i t x (s.addr pf.bigEndian a) →
    ∃ x₁, execute pf ld s.load i pc x = .ok x₁ ∧
      (Names j t x₁ (s.other.addr pf.bigEndian a) →
        execute pf ld s.other.load j pc' x₁ = .ok (x.setGpr t (x.word a)))
  store : ∀ (s : Side) (i j : Inst) (t : Fin 32) (pc pc' : Word) (x : Exec pf),
    Names i t x (s.addr pf.bigEndian a) → Names j t x (s.other.addr pf.bigEndian a) →
    ∃ x₁, execute pf ld s.store i pc x = .ok x₁ ∧
      execute pf ld s.other.store j pc' x₁ = .ok (x.putWord a (x.arch.regs (.r t)))
  roundTrip : ∀ (s s' : Side) (i j i' j' : Inst) (t t' : Fin 32) (pc : Word) (x : Exec pf),
    Names i t x (s.addr pf.bigEndian a) → Names j t x (s.other.addr pf.bigEndian a) →
    ∃ x₁ x₂, execute pf ld s.store i pc x = .ok x₁ ∧ execute pf ld s.other.store j (pc + 8) x₁ = .ok x₂ ∧
      (Names i' t' x₂ (s'.addr pf.bigEndian a) →
        ∃ x₃, execute pf ld s'.load i' (pc + 16) x₂ = .ok x₃ ∧
          (Names j' t' x₃ (s'.other.addr pf.bigEndian a) →
            ∃ x₄, execute pf ld s'.other.load j' (pc + 24) x₃ = .ok x₄ ∧
              x₄.arch.regs (.r t') = x.arch.regs (.r t)))

section

variable {s : Side} {i j : Inst} {t : Fin 32} {pc pc' a : Word} {x : Exec pf}

theorem load_aligned (h : a.toNat % 4 = 0) (hi : Names i t x (s.addr pf.bigEndian a)) :
    ∃ x₁, execute pf ld s.load i pc x = .ok x₁ ∧
      (Names j t x₁ (s.other.addr pf.bigEndian a) →
        execute pf ld s.other.load j pc' x₁ = .ok (x.setGpr t (x.word a))) := by
  refine ⟨_, execute_load s hi, fun hj => ?_⟩
  rw [execute_load s.other hj, base_of_aligned h, base_of_aligned h, x.setGpr_self, x.word_setGpr,
    merge_merge (masks_of_aligned h s), x.setGpr_setGpr]

theorem store_aligned (h : a.toNat % 4 = 0) (hi : Names i t x (s.addr pf.bigEndian a))
    (hj : Names j t x (s.other.addr pf.bigEndian a)) :
    ∃ x₁, execute pf ld s.store i pc x = .ok x₁ ∧
      execute pf ld s.other.store j pc' x₁ = .ok (x.putWord a (x.arch.regs (.r t))) := by
  have hj' : ∀ w, Names j t (x.putWord a w) (s.other.addr pf.bigEndian a) := fun w => ⟨hj.target, hj.base⟩
  refine ⟨_, execute_store s hi, ?_⟩
  rw [base_of_aligned h, execute_store s.other (hj' _), base_of_aligned h, x.word_putWord, x.putWord_putWord]
  have hMerge := merge_merge (masks_of_aligned (b := pf.bigEndian) h s) (x.word a) (x.arch.regs (.r t))
  rw [BitVec.or_comm (x.word a &&& _), BitVec.or_comm] at hMerge
  exact congrArg (fun w => Except.ok (x.putWord a w)) hMerge

end

/-- A state that shows where the bytes of the word at `a` come from: the first byte of the aligned
word around `a` is one, all others are zero, and `$2` is full.  `$1` and `$3` point to the sides. -/
def Exec.spot (host : pf.Host) (a : Word) : Exec pf where
  arch :=
    { regs := fun r =>
        if r = .r 1 then Side.left.addr pf.bigEndian a
        else if r = .r 3 then Side.right.addr pf.bigEndian a
        else 0xffffffff#32
      mem := fun k => if k = Mem.index (a &&& ~~~3#32) then 1 else 0 }
  host := host
  nextPC := 0

theorem index_base_ne {a : Word} {i : Nat} (h : a.toNat % 4 ≠ 0) (hi : i < 4) :
    Mem.index (a + BitVec.ofNat 32 i) ≠ Mem.index (a &&& ~~~3#32) := by
  intro hEq
  have hEq := congrArg BitVec.toNat hEq
  have hlt := a.isLt
  simp only [Mem.index, BitVec.toNat_setWidth, BitVec.toNat_add, BitVec.toNat_ofNat, toNat_and_not_three] at hEq
  omega

theorem spot_word (host : pf.Host) {a : Word} (h : a.toNat % 4 ≠ 0) : (Exec.spot host a).word a = 0#32 := by
  have hBytes : (Exec.spot host a).arch.mem.bytes a 4 = [0, 0, 0, 0] := by
    have hByte : ∀ i < 4, (Exec.spot host a).arch.mem (Mem.index (a + BitVec.ofNat 32 i)) = 0 := fun i hi =>
      if_neg (index_base_ne h hi)
    rw [Mem.bytes_four, hByte 0 (by decide), hByte 1 (by decide), hByte 2 (by decide), hByte 3 (by decide)]
  rw [Exec.word, Mem.word, hBytes]
  cases pf.bigEndian <;> rfl

theorem spot_base (host : pf.Host) (a : Word) (hBig : pf.bigEndian = true) :
    (Exec.spot host a).word (a &&& ~~~3#32) = 0x01000000#32 := by
  have hBytes : (Exec.spot host a).arch.mem.bytes (a &&& ~~~3#32) 4 = [1, 0, 0, 0] := by
    have hNext : ∀ i, 0 < i → i < 4 →
        (Exec.spot host a).arch.mem (Mem.index ((a &&& ~~~3#32) + BitVec.ofNat 32 i)) = 0 := by
      intro i hPos hi
      refine if_neg fun hEq => ?_
      have hEq := congrArg BitVec.toNat hEq
      have hlt := a.isLt
      simp only [Mem.index, BitVec.toNat_setWidth, BitVec.toNat_add, BitVec.toNat_ofNat,
        toNat_and_not_three] at hEq
      omega
    have hFirst : (Exec.spot host a).arch.mem (Mem.index ((a &&& ~~~3#32) + BitVec.ofNat 32 0)) = 1 := by
      rw [BitVec.add_zero]
      exact if_pos rfl
    rw [Mem.bytes_four, hFirst, hNext 1 (by decide) (by decide), hNext 2 (by decide) (by decide), hNext 3 (by decide) (by decide)]
  rw [Exec.word, Mem.word, hBytes, hBig]
  rfl

/-- The two masks together leave bits of the register as they were, or take the first byte of the
aligned word. -/
theorem masks_of_unaligned {a : Word} (h : a.toNat % 4 ≠ 0) :
    Side.left.protMask false (Side.left.addr false a) &&& Side.right.protMask false (Side.right.addr false a) ≠ 0#32 ∧
    (0x01000000#32 &&& ~~~Side.left.protMask true (Side.left.addr true a)) &&&
      Side.right.protMask true (Side.right.addr true a) ≠ 0#32 := by
  have hlt := a.isLt
  have hLow := toNat_and_three a
  have hHigh : ((a + 3) &&& 3#32).toNat = a.toNat % 4 - 1 := by
    rw [toNat_and_three, BitVec.toNat_add, show BitVec.toNat (3 : Word) = 3 from rfl]
    omega
  have hk : a.toNat % 4 = 1 ∨ a.toNat % 4 = 2 ∨ a.toNat % 4 = 3 := by omega
  simp only [Side.addr, Side.protMask, wlProtMask, wlSize, wrProtMask, wrSize, hLow, hHigh, if_true, if_false,
    Bool.false_eq_true]
  rcases hk with hk | hk | hk <;> rw [hk] <;> decide

/-- The bytes of a word that is not aligned are moved from or to a wrong place, or not at all. -/
theorem not_movesWord (host : pf.Host) {a : Word} (h : a.toNat % 4 ≠ 0) : ¬ MovesWord pf ld a := by
  intro hMoves
  have hi : Names ⟨0, 0x01020000#32⟩ 2 (Exec.spot host a) (Side.left.addr pf.bigEndian a) :=
    ⟨rfl, by decide, BitVec.add_zero _⟩
  obtain ⟨x₁, hFirst, hSecond⟩ := hMoves.load .left _ ⟨0, 0x03020000#32⟩ 2 0 8 _ hi
  obtain rfl := Except.ok.inj (hFirst.symm.trans (execute_load .left hi))
  have hj : ∀ w, Names ⟨0, 0x03020000#32⟩ 2 ((Exec.spot host a).setGpr 2 w) (Side.right.addr pf.bigEndian a) := by
    refine fun w => ⟨rfl, by decide, (BitVec.add_zero _).trans ?_⟩
    exact (Exec.setGpr_of_ne _ _ (by decide)).trans rfl
  have hEq := (execute_load .right (hj _)).symm.trans (hSecond (hj _))
  have hReg := congrArg (fun x : Exec pf => x.arch.regs (.r 2)) (Except.ok.inj hEq)
  simp only [Exec.setGpr_self, spot_word host h] at hReg
  -- nothing is left of the full register, nor of the byte
  obtain ⟨hKept, -⟩ := BitVec.or_eq_zero_iff.1 hReg
  rw [BitVec.and_or_distrib_right] at hKept
  obtain ⟨hRegister, hByte⟩ := BitVec.or_eq_zero_iff.1 hKept
  cases hBig : pf.bigEndian with
  | false =>
    rw [hBig, show (Exec.spot host a).arch.regs (.r 2) = BitVec.allOnes 32 from rfl,
      BitVec.allOnes_and] at hRegister
    exact (masks_of_unaligned h).1 hRegister
  | true =>
    rw [hBig, show Side.left.addr true a = a from rfl, spot_base host a hBig] at hByte
    exact (masks_of_unaligned h).2 hByte

/-- The pairs `LWL`, `LWR` and `SWL`, `SWR` move words at multiples of four, and only those. -/
theorem unaligned_iff (pf : Platform) (host : pf.Host) (ld : Segments) (a : Word) :
    MovesWord pf ld a ↔ a.toNat % 4 = 0 := by
  refine ⟨fun hMoves => not_not.1 fun h => not_movesWord host h hMoves, fun h => ⟨?_, ?_, ?_⟩⟩
  · intro s i j t pc pc' x hi
    exact load_aligned h hi
  · intro s i j t pc pc' x hi hj
    exact store_aligned h hi hj
  · intro s s' i j i' j' t t' pc x hi hj
    obtain ⟨x₁, hFirst, hSecond⟩ := store_aligned h hi hj
    refine ⟨x₁, _, hFirst, hSecond, fun hi' => ?_⟩
    obtain ⟨x₃, hThird, hFourth⟩ := load_aligned h hi'
    refine ⟨x₃, hThird, fun hj' => ⟨_, hFourth hj', ?_⟩⟩
    rw [Exec.setGpr_self, x.word_putWord]

/-- The bytes `1`, `2`, `3`, and so on at the start of the data segment, which `$1` points to. -/
def Exec.counting : Exec Platform.bare where
  arch :=
    { regs := fun r => if r = .r 1 then Segments.dataBase else 0
      mem := Mem.store (fun _ => 0) Segments.dataBase [1, 2, 3, 4, 5, 6, 7, 8] }
  host := ()
  nextPC := 8

/-- `lwr $2,1($1)` and `lwl $2,4($1)` on a little-endian machine load the two bytes `1`, `2` instead
of `2`, `3`, `4`, `5`. -/
theorem load_misses_bytes :
    Exec.counting.word (Segments.dataBase + 1) = 0x05040302#32 ∧
    (do
      let x ← execute Platform.bare ⟨8, 0⟩ .lwr ⟨0, 0x01020001#32⟩ 0 Exec.counting
      let x ← execute Platform.bare ⟨8, 0⟩ .lwl ⟨0, 0x01020004#32⟩ 8 x
      return x.arch.regs (.r 2)) = Except.ok 0x00000201#32 :=
  ⟨by decide, by decide⟩

end Fast

end SimpleScalar

import SimpleScalar.Loader

/-!
# The start-up stack image

`ld_load_prog` writes the arguments and the environment of the program from `ld_environ_base`
on: `argc`, the two pointer arrays, and the strings behind them.  One pointer `sp` moves
through all of it.

The writes are listed here with natural numbers for addresses (`argWrites`), and
`writeArgs_eq` says that the loader performs exactly these.  The bytes they cover, in the
order in which they are written, are a permutation of one interval (`argWrites_perm`): no
byte is written twice and none is left out.

* `writeAll_bytes`: writes that do not overlap can all be read back.
* `checkStack_redundant`: an image that does not fit below the stack base is refused by
  `mem_access`, before the check of `sp` is reached.
* `stack_image`: the image of every program that is loaded can be decoded.
-/

namespace SimpleScalar.Loader

open List Paged Outcome

/-! ### Lists of writes -/

/-- The writes of a list, each an address with a buffer. -/
def writeAll (b : Bounds) : List (ℕ × List Byte) → Memory → Except Stop Memory
  | [], m => .ok m
  | w :: ws, m => do
    let (_, m) ← access b .write (BitVec.ofNat 32 w.1) w.2 w.2.length m
    writeAll b ws m

/-- The addresses of the bytes of a write. -/
def place (w : ℕ × List Byte) : List ℕ := List.range' w.1 w.2.length

/-- A byte or an aligned word. -/
def Natural (w : ℕ × List Byte) : Prop := w.2.length = 1 ∨ w.2.length = 4 ∧ w.1 % 4 = 0

def Allowed (b : Bounds) (w : ℕ × List Byte) : Prop :=
  aligned (BitVec.ofNat 32 w.1) w.2.length = true ∧ b.permits .write (BitVec.ofNat 32 w.1) = true

variable {w : ℕ × List Byte}

section Writes

variable {b : Bounds} {ws : List (ℕ × List Byte)} {m m' : Memory}

theorem writeAll_append (b : Bounds) (ws ws' : List (ℕ × List Byte)) (m : Memory) :
    writeAll b (ws ++ ws') m = writeAll b ws m >>= fun m => writeAll b ws' m := by
  induction ws generalizing m with
  | nil => rfl
  | cons w ws ih =>
    rw [cons_append, writeAll, writeAll, bind_assoc]
    exact bind_congr fun x => ih x.2

theorem Natural.pos (h : Natural w) : 0 < w.2.length ∧ w.2.length < 2 ^ 31 := by
  rcases h with h | ⟨h, -⟩ <;> omega

theorem Natural.aligned (h : Natural w) :
    aligned (BitVec.ofNat 32 w.1) w.2.length = true := by
  rw [aligned_spec h.pos.1 h.pos.2, BitVec.toNat_ofNat]
  rcases h with h | ⟨h, hMod⟩
  · rw [h]
    exact ⟨⟨0, rfl⟩, Nat.one_dvd _⟩
  · rw [h]
    exact ⟨⟨2, rfl⟩, by omega⟩

/-- The memory after the writes. -/
def storeAll (ws : List (ℕ × List Byte)) (mem : Mem) : Mem :=
  ws.foldl (fun mem w => mem.store (BitVec.ofNat 32 w.1) w.2) mem

theorem writeAll_ok (hNat : ∀ w ∈ ws, Natural w) (h : ∀ w ∈ ws, Allowed b w) (m : Memory) :
    ∃ m', writeAll b ws m = .ok m' ∧ view m' = storeAll ws (view m) := by
  induction ws generalizing m with
  | nil => exact ⟨m, rfl, rfl⟩
  | cons w ws ih =>
    obtain ⟨hw, hws⟩ := forall_mem_cons.mp h
    obtain ⟨hPos, hInt⟩ := (hNat w mem_cons_self).pos
    obtain ⟨m₁, hWrite, hView⟩ := @access_write_eq _ _ m _ b hPos hInt rfl hw.1 hw.2
    obtain ⟨m', hRest, hView'⟩ := ih (fun v hv => hNat v (mem_cons_of_mem w hv)) hws m₁
    refine ⟨m', by rw [writeAll, hWrite]; exact hRest, ?_⟩
    rw [hView', hView]
    rfl

theorem allowed_of_writeAll (h : writeAll b ws m = .ok m') : ∀ w ∈ ws, Allowed b w := by
  induction ws generalizing m with
  | nil => exact fun w hw => absurd hw not_mem_nil
  | cons w ws ih =>
    obtain ⟨x, hAccess, h⟩ := bind_eq_ok.mp h
    refine forall_mem_cons.mpr ⟨?_, ih h⟩
    unfold access at hAccess
    split at hAccess
    · cases hAccess
    · rename_i hAlign
      split at hAccess
      · cases hAccess
      · rename_i hPermit
        exact ⟨by simpa using hAlign, by simpa using hPermit⟩

theorem index_ne {i j : ℕ} (hi : i < 2 ^ 31) (hj : j < 2 ^ 31) (h : i ≠ j) :
    Mem.index (BitVec.ofNat 32 i) ≠ Mem.index (BitVec.ofNat 32 j) := by
  intro hEq
  have hNat := congrArg BitVec.toNat hEq
  simp only [Mem.index, BitVec.toNat_setWidth, BitVec.toNat_ofNat] at hNat
  omega

variable {mem : Mem}

variable {n : ℕ}

theorem store_other (hLow : w.1 + w.2.length ≤ 2 ^ 31) (hn : n < 2 ^ 31) (hNot : n ∉ place w) :
    mem.store (BitVec.ofNat 32 w.1) w.2 (Mem.index (BitVec.ofNat 32 n)) =
      mem (Mem.index (BitVec.ofNat 32 n)) := by
  refine Mem.store_apply_of_ne _ _ _ _ fun i hi => ?_
  rw [← BitVec.ofNat_add]
  refine index_ne (by omega) hn fun hEq => hNot ?_
  rw [place, mem_range'_1]
  omega

theorem storeAll_other (hLow : ∀ w ∈ ws, w.1 + w.2.length ≤ 2 ^ 31)
    (hn : n < 2 ^ 31) (hNot : n ∉ ws.flatMap place) :
    storeAll ws mem (Mem.index (BitVec.ofNat 32 n)) = mem (Mem.index (BitVec.ofNat 32 n)) := by
  induction ws generalizing mem with
  | nil => rfl
  | cons w ws ih =>
    obtain ⟨hw, hws⟩ := forall_mem_cons.mp hLow
    rw [flatMap_cons, mem_append, not_or] at hNot
    exact (ih hws hNot.2).trans (store_other hw hn hNot.1)

/-- **Writes that do not overlap** can be read back. -/
theorem storeAll_bytes (hLow : ∀ w ∈ ws, w.1 + w.2.length ≤ 2 ^ 31)
    (hNodup : (ws.flatMap place).Nodup) :
    ∀ w ∈ ws, (storeAll ws mem).bytes (BitVec.ofNat 32 w.1) w.2.length = w.2 := by
  induction ws generalizing mem with
  | nil => exact fun w hw => absurd hw not_mem_nil
  | cons w ws ih =>
    obtain ⟨hw, hws⟩ := forall_mem_cons.mp hLow
    rw [flatMap_cons, nodup_append] at hNodup
    obtain ⟨-, hRest, hApart⟩ := hNodup
    refine forall_mem_cons.mpr ⟨?_, ih hws hRest⟩
    -- the later writes leave the bytes of the first one alone
    have hFirst : (mem.store (BitVec.ofNat 32 w.1) w.2).bytes (BitVec.ofNat 32 w.1) w.2.length =
        w.2 := Mem.bytes_store (by omega) mem _
    conv_rhs => rw [← hFirst]
    refine map_congr_left fun i hi => ?_
    have hi := mem_range.mp hi
    have hPlace : w.1 + i ∈ place w := by
      rw [place, mem_range'_1]
      omega
    rw [← BitVec.ofNat_add]
    exact storeAll_other hws (by omega) fun hMem => hApart _ hPlace _ hMem rfl

end Writes

/-! ### The writes of the loader -/

/-- The bytes of a string with its terminator. -/
def cbytes (s : List Byte) : List Byte := s.takeWhile (· ≠ 0) ++ [0]

def byteWrites : ℕ → List Byte → List (ℕ × List Byte)
  | _, [] => []
  | addr, x :: xs => (addr, [x]) :: byteWrites (addr + 1) xs

def wordWrite (bigEndian : Bool) (addr v : ℕ) : ℕ × List Byte :=
  (addr, split bigEndian 4 (BitVec.ofNat 32 v).toNat)

def stringsLen (ss : List (List Byte)) : ℕ := (ss.map strLen).sum

theorem stringsLen_cons (s : List Byte) (ss : List (List Byte)) :
    stringsLen (s :: ss) = strLen s + stringsLen ss := sum_cons

/-- A pointer array at `addr` with its strings at `sp`. -/
def fillWrites (bigEndian : Bool) : List (List Byte) → ℕ → ℕ → List (ℕ × List Byte)
  | [], addr, _ => [wordWrite bigEndian addr 0]
  | s :: ss, addr, sp =>
    wordWrite bigEndian addr sp ::
      (byteWrites sp (cbytes s) ++ fillWrites bigEndian ss (addr + 4) (sp + strLen s))

def imageStart : ℕ := environBase.toNat

/-- The bytes of `argc` and the two arrays. -/
def slotsLen (argv envp : List (List Byte)) : ℕ := 4 * (argv.length + envp.length + 3)

def argWrites (bigEndian : Bool) (argv envp : List (List Byte)) : List (ℕ × List Byte) :=
  wordWrite bigEndian imageStart argv.length ::
    (fillWrites bigEndian argv (imageStart + 4) (imageStart + slotsLen argv envp) ++
      fillWrites bigEndian envp (imageStart + 4 + 4 * (argv.length + 1))
        (imageStart + slotsLen argv envp + stringsLen argv))

/-- The bytes of the image. -/
def imageLen (argv envp : List (List Byte)) : ℕ :=
  slotsLen argv envp + stringsLen argv + stringsLen envp

theorem cbytes_zero (s : List Byte) : cbytes (0 :: s) = [0] := rfl

theorem cbytes_cons {c : Byte} (hc : c ≠ 0) (s : List Byte) : cbytes (c :: s) = c :: cbytes s := by
  rw [cbytes, takeWhile_cons_of_pos (by simpa using hc)]
  rfl

theorem length_cbytes (s : List Byte) : (cbytes s).length = strLen s := by
  rw [cbytes, length_append]
  rfl

section Performed

variable (b : Bounds) (bigEndian : Bool)

theorem writeWord_eq (addr v : ℕ) (m : Memory) :
    writeWord b bigEndian (BitVec.ofNat 32 addr) (BitVec.ofNat 32 v) m =
      writeAll b [wordWrite bigEndian addr v] m := by
  simp only [writeWord, writeAll, wordWrite, length_split]
  rfl

theorem strcpy_eq (s : List Byte) (sp : ℕ) (m : Memory) :
    strcpy b (BitVec.ofNat 32 sp) s m = do
      let m ← writeAll b (byteWrites sp (cbytes s)) m
      return (BitVec.ofNat 32 (strLen s), m) := by
  induction s generalizing sp m with
  | nil =>
    simp only [strcpy, cbytes, takeWhile_nil, nil_append, byteWrites, writeAll,
      bind_assoc]
    rfl
  | cons c s ih =>
    by_cases hc : c = 0
    · subst hc
      simp only [strcpy, cbytes_zero, byteWrites, writeAll, bind_assoc, if_pos]
      rfl
    · have hLen : BitVec.ofNat 32 (strLen (c :: s)) = BitVec.ofNat 32 (strLen s) + 1 := by
        rw [← length_cbytes, cbytes_cons hc, length_cons, length_cbytes, BitVec.ofNat_add]
        rfl
      have hNext : ∀ m, strcpy b (BitVec.ofNat 32 sp + 1) s m = do
          let m ← writeAll b (byteWrites (sp + 1) (cbytes s)) m
          return (BitVec.ofNat 32 (strLen s), m) := by
        intro m
        rw [← ih (sp + 1) m, BitVec.ofNat_add]
        rfl
      simp only [strcpy, cbytes_cons hc, hLen, byteWrites, writeAll, if_neg hc, hNext, bind_assoc,
        pure_bind]
      rfl

theorem fillStrings_eq (ss : List (List Byte)) (addr sp : ℕ) (m : Memory) :
    fillStrings b bigEndian ss (BitVec.ofNat 32 addr) (BitVec.ofNat 32 sp) m = do
      let m ← writeAll b (fillWrites bigEndian ss addr sp) m
      return (BitVec.ofNat 32 (sp + stringsLen ss), m) := by
  induction ss generalizing addr sp m with
  | nil =>
    rw [fillStrings, fillWrites, ← writeWord_eq]
    rfl
  | cons s ss ih =>
    have hNext : ∀ m, fillStrings b bigEndian ss (BitVec.ofNat 32 addr + 4)
        (BitVec.ofNat 32 sp + BitVec.ofNat 32 (strLen s)) m = do
          let m ← writeAll b (fillWrites bigEndian ss (addr + 4) (sp + strLen s)) m
          return (BitVec.ofNat 32 (sp + strLen s + stringsLen ss), m) := by
      intro m
      rw [← ih (addr + 4) (sp + strLen s) m, BitVec.ofNat_add addr, BitVec.ofNat_add sp]
      rfl
    rw [fillStrings, fillWrites, ← singleton_append]
    simp only [writeAll_append, writeWord_eq, bind_assoc, strcpy_eq, pure_bind, hNext, stringsLen_cons,
      Nat.add_assoc]

/-- **The loader** performs the writes of the image. -/
theorem writeArgs_eq (argv envp : List (List Byte)) (m : Memory) :
    writeArgs b bigEndian argv envp m = do
      let m ← writeAll b (argWrites bigEndian argv envp) m
      return (BitVec.ofNat 32 (imageStart + imageLen argv envp), m) := by
  have hStart : environBase = BitVec.ofNat 32 imageStart := rfl
  have hArgv : environBase + 4 = BitVec.ofNat 32 (imageStart + 4) := rfl
  have hString : stringBase argv.length envp.length =
      BitVec.ofNat 32 (imageStart + slotsLen argv envp) := by
    rw [stringBase, hArgv, ← BitVec.ofNat_add, ← BitVec.ofNat_add, slotsLen]
    congr 1
    omega
  have hEnvp : environBase + 4 + BitVec.ofNat 32 ((argv.length + 1) * 4) =
      BitVec.ofNat 32 (imageStart + 4 + 4 * (argv.length + 1)) := by
    rw [hArgv, ← BitVec.ofNat_add, Nat.mul_comm 4]
  rw [writeArgs, argWrites, ← singleton_append]
  simp only [hString, hEnvp]
  simp only [hArgv]
  simp only [hStart, writeAll_append, writeWord_eq, fillStrings_eq, bind_assoc, pure_bind,
    imageLen, ← Nat.add_assoc]

end Performed

/-! ### The layout -/

theorem place_wordWrite (bigEndian : Bool) (addr v : ℕ) :
    place (wordWrite bigEndian addr v) = List.range' addr 4 := by
  rw [place, wordWrite, length_split]

theorem place_byteWrites (addr : ℕ) (xs : List Byte) :
    (byteWrites addr xs).flatMap place = List.range' addr xs.length := by
  induction xs generalizing addr with
  | nil => rfl
  | cons x xs ih =>
    rw [byteWrites, flatMap_cons, ih, length_cons, List.range'_succ]
    rfl

theorem fillWrites_perm (bigEndian : Bool) (ss : List (List Byte)) (addr sp : ℕ) :
    ((fillWrites bigEndian ss addr sp).flatMap place).Perm
      (List.range' addr (4 * (ss.length + 1)) ++ List.range' sp (stringsLen ss)) := by
  induction ss generalizing addr sp with
  | nil =>
    rw [fillWrites, flatMap_singleton, place_wordWrite]
    exact List.Perm.refl _
  | cons s ss ih =>
    have hSlots : List.range' addr (4 * ((s :: ss).length + 1)) =
        List.range' addr 4 ++ List.range' (addr + 4) (4 * (ss.length + 1)) := by
      rw [List.range'_append_1, length_cons]
      congr 1
      omega
    rw [fillWrites, flatMap_cons, flatMap_append, place_wordWrite, place_byteWrites,
      length_cbytes, hSlots, stringsLen_cons, ← List.range'_append_1, append_assoc]
    refine List.Perm.append_left _ ?_
    -- the string goes behind the rest of the array
    refine ((ih (addr + 4) (sp + strLen s)).append_left _).trans ?_
    rw [← append_assoc, ← append_assoc]
    exact perm_append_comm.append_right _

/-- **The image** is one interval, every byte of which is written once. -/
theorem argWrites_perm (bigEndian : Bool) (argv envp : List (List Byte)) :
    ((argWrites bigEndian argv envp).flatMap place).Perm
      (List.range' imageStart (imageLen argv envp)) := by
  have hSplit : List.range' imageStart (imageLen argv envp) =
      List.range' imageStart 4 ++ (List.range' (imageStart + 4) (4 * (argv.length + 1)) ++
        (List.range' (imageStart + 4 + 4 * (argv.length + 1)) (4 * (envp.length + 1)) ++
          (List.range' (imageStart + slotsLen argv envp) (stringsLen argv) ++
            List.range' (imageStart + slotsLen argv envp + stringsLen argv)
              (stringsLen envp)))) := by
    have hString : imageStart + slotsLen argv envp =
        imageStart + 4 + 4 * (argv.length + 1) + 4 * (envp.length + 1) := by
      rw [slotsLen]
      omega
    rw [hString]
    simp only [List.range'_append_1]
    rw [imageLen, slotsLen]
    congr 1
    omega
  rw [argWrites, flatMap_cons, flatMap_append, place_wordWrite, hSplit]
  refine List.Perm.append_left _ ?_
  refine ((fillWrites_perm bigEndian argv _ _).append (fillWrites_perm bigEndian envp _ _)).trans ?_
  rw [append_assoc]
  refine List.Perm.append_left _ ?_
  rw [← append_assoc, ← append_assoc]
  exact perm_append_comm.append_right _

variable {xs : List Byte}

theorem natural_byteWrites {addr : ℕ} : ∀ w ∈ byteWrites addr xs, Natural w := by
  induction xs generalizing addr with
  | nil => exact fun w hw => absurd hw not_mem_nil
  | cons x xs ih => exact forall_mem_cons.mpr ⟨.inl rfl, ih⟩

variable {bigEndian : Bool}

theorem natural_wordWrite {addr v : ℕ} (h : addr % 4 = 0) :
    Natural (wordWrite bigEndian addr v) := .inr ⟨length_split _ _ _, h⟩

variable {ss : List (List Byte)} {addr sp : ℕ}

theorem natural_fillWrites
    (h : addr % 4 = 0) : ∀ w ∈ fillWrites bigEndian ss addr sp, Natural w := by
  induction ss generalizing addr sp with
  | nil => exact forall_mem_singleton.mpr (natural_wordWrite h)
  | cons s ss ih =>
    refine forall_mem_cons.mpr ⟨natural_wordWrite h, ?_⟩
    refine forall_mem_append.mpr ⟨natural_byteWrites, ih (by omega)⟩

theorem natural_argWrites (bigEndian : Bool) (argv envp : List (List Byte)) :
    ∀ w ∈ argWrites bigEndian argv envp, Natural w := by
  have hStart : imageStart % 4 = 0 := by decide
  refine forall_mem_cons.mpr ⟨natural_wordWrite hStart, ?_⟩
  refine forall_mem_append.mpr ⟨natural_fillWrites (by omega), natural_fillWrites (by omega)⟩

variable {argv envp : List (List Byte)}

/-- A write lies in the image. -/
theorem argWrites_within (hw : w ∈ argWrites bigEndian argv envp) :
    imageStart ≤ w.1 ∧ w.1 + w.2.length ≤ imageStart + imageLen argv envp := by
  have hPos := (natural_argWrites bigEndian argv envp w hw).pos.1
  have hIn : ∀ n ∈ place w, imageStart ≤ n ∧ n < imageStart + imageLen argv envp := by
    intro n hn
    have hMem := (argWrites_perm bigEndian argv envp).mem_iff.mp
      (mem_flatMap.mpr ⟨w, hw, hn⟩)
    rwa [mem_range'_1] at hMem
  have hFirst := hIn w.1 (by rw [place, mem_range'_1]; omega)
  have hLast := hIn (w.1 + w.2.length - 1) (by rw [place, mem_range'_1]; omega)
  omega

/-! ### Fitting below the stack base -/

/-- The image ends at or below `ld_stack_base`. -/
def Fits (argv envp : List (List Byte)) : Prop :=
  imageStart + imageLen argv envp ≤ Segments.stackBase.toNat

/-- The bounds while the arguments are written. -/
def argBounds (textSize : Word) : Bounds :=
  ⟨Segments.textBase, textSize, Segments.dataBase, Segments.stackBase, 0⟩

section Fit

variable {textSize : Word} {bigEndian : Bool} {argv envp : List (List Byte)}

theorem permits_write {addr : Word} : (argBounds textSize).permits .write addr = true ↔
    Segments.dataBase.toNat ≤ addr.toNat ∧ addr.toNat < Segments.stackBase.toNat := by
  simp [Bounds.permits, argBounds, BitVec.le_def, BitVec.lt_def]

theorem imageStart_eq : imageStart = 0x7fff8000 := rfl

theorem stackBase_eq : Segments.stackBase.toNat = 0x7fffc000 := rfl

theorem dataBase_eq : Segments.dataBase.toNat = 0x10000000 := rfl

theorem allowed_of_fits (h : Fits argv envp) :
    ∀ w ∈ argWrites bigEndian argv envp, Allowed (argBounds textSize) w := by
  intro w hw
  have hNat := natural_argWrites bigEndian argv envp w hw
  obtain ⟨hGe, hLe⟩ := argWrites_within hw
  have hPos := hNat.pos.1
  refine ⟨hNat.aligned, permits_write.mpr ?_⟩
  rw [Fits, stackBase_eq] at h
  rw [imageStart_eq] at hGe
  rw [BitVec.toNat_ofNat, dataBase_eq, stackBase_eq]
  omega

/-- Otherwise there is a write at the stack base. -/
theorem fits_of_allowed (h : ∀ w ∈ argWrites bigEndian argv envp, Allowed (argBounds textSize) w) :
    Fits argv envp := by
  by_contra hNot
  rw [Fits, stackBase_eq, imageStart_eq] at hNot
  have hMem : 0x7fffc000 ∈ (argWrites bigEndian argv envp).flatMap place := by
    rw [(argWrites_perm bigEndian argv envp).mem_iff, mem_range'_1, imageStart_eq]
    omega
  obtain ⟨w, hw, hPlace⟩ := mem_flatMap.mp hMem
  rw [place, mem_range'_1] at hPlace
  have hAddr : w.1 = 0x7fffc000 := by
    rcases natural_argWrites bigEndian argv envp w hw with hLen | ⟨hLen, hMod⟩ <;> omega
  have hPermit := permits_write.mp (h w hw).2
  rw [hAddr, stackBase_eq, BitVec.toNat_ofNat] at hPermit
  omega

end Fit

/-! ### Decoding -/

/-- The string of a C program: what stands before its terminator. -/
def cstr (s : List Byte) : List Byte := s.takeWhile (· ≠ 0)

/-- `s` with a null behind it is at `addr`. -/
def StringAt (mem : Mem) (addr : Word) (s : List Byte) : Prop :=
  mem.bytes addr (s.length + 1) = s ++ [0] ∧ 0 ∉ s

/-- From `addr` on there are pointers to the strings, and a null pointer. -/
def PointersAt (bigEndian : Bool) (mem : Mem) : List (List Byte) → Word → Prop
  | [], addr => Mem.word bigEndian mem addr = 0
  | s :: ss, addr =>
    Mem.word bigEndian mem addr ≠ 0 ∧ StringAt mem (Mem.word bigEndian mem addr) (cstr s) ∧
      PointersAt bigEndian mem ss (addr + 4)

/-- What a program finds at `ld_environ_base`. -/
structure StackImage (bigEndian : Bool) (mem : Mem) (argv envp : List (List Byte)) : Prop where
  argc_eq : (Mem.word bigEndian mem environBase).toNat = argv.length
  argv_at : PointersAt bigEndian mem argv (environBase + 4)
  envp_at : PointersAt bigEndian mem envp
    (environBase + 4 + BitVec.ofNat 32 (4 * (argv.length + 1)))

section Decode

variable {bigEndian : Bool} {mem : Mem} {ws : List (ℕ × List Byte)}

/-- All writes of a list can be read back. -/
def Readable (mem : Mem) (ws : List (ℕ × List Byte)) : Prop :=
  ∀ w ∈ ws, mem.bytes (BitVec.ofNat 32 w.1) w.2.length = w.2

theorem Readable.word {addr v : ℕ} (h : Readable mem ws) (hw : wordWrite bigEndian addr v ∈ ws) :
    Mem.word bigEndian mem (BitVec.ofNat 32 addr) = BitVec.ofNat 32 v := by
  have hRead := h _ hw
  rw [wordWrite, length_split] at hRead
  rw [Mem.word, hRead, Mem.join_split_four]

theorem Readable.bytes {addr : ℕ} (h : Readable mem (byteWrites addr xs)) :
    mem.bytes (BitVec.ofNat 32 addr) xs.length = xs := by
  induction xs generalizing addr with
  | nil => rfl
  | cons x xs ih =>
    obtain ⟨hFirst, hRest⟩ := forall_mem_cons.mp h
    rw [length_cons, Nat.add_comm, bytes_add, ← BitVec.ofNat_add, ih hRest]
    exact congrArg (· ++ xs) hFirst

theorem zero_notMem_cstr (s : List Byte) : 0 ∉ cstr s := by
  intro h
  simpa using all_eq_true.mp all_takeWhile 0 h

theorem pointersAt_of_readable (h : Readable mem (fillWrites bigEndian ss addr sp)) (hPos : 0 < sp)
    (hLow : sp + stringsLen ss < 2 ^ 32) :
    PointersAt bigEndian mem ss (BitVec.ofNat 32 addr) := by
  induction ss generalizing addr sp with
  | nil => exact h.word (v := 0) mem_cons_self
  | cons s ss ih =>
    rw [stringsLen_cons] at hLow
    have hWord : Mem.word bigEndian mem (BitVec.ofNat 32 addr) = BitVec.ofNat 32 sp :=
      h.word mem_cons_self
    obtain ⟨hString, hRest⟩ := forall_mem_append.mp (forall_mem_cons.mp h).2
    have hNext := ih hRest (by omega) (by omega)
    rw [BitVec.ofNat_add] at hNext
    refine ⟨?_, ?_, hNext⟩
    · rw [hWord]
      intro hNull
      have hNat := congrArg BitVec.toNat hNull
      rw [BitVec.toNat_ofNat] at hNat
      change sp % 2 ^ 32 = 0 at hNat
      omega
    · rw [hWord]
      refine ⟨?_, zero_notMem_cstr s⟩
      have hBytes := Readable.bytes hString
      rw [length_cbytes] at hBytes
      exact hBytes

theorem stackImage_of_readable (hFits : Fits argv envp)
    (h : Readable mem (argWrites bigEndian argv envp)) :
    StackImage bigEndian mem argv envp := by
  rw [Fits, stackBase_eq, imageStart_eq, imageLen] at hFits
  obtain ⟨hArgv, hEnvp⟩ := forall_mem_append.mp (forall_mem_cons.mp h).2
  refine ⟨?_, ?_, ?_⟩
  · have hWord : Mem.word bigEndian mem environBase = BitVec.ofNat 32 argv.length :=
      h.word mem_cons_self
    rw [hWord, BitVec.toNat_ofNat, Nat.mod_eq_of_lt]
    rw [slotsLen] at hFits
    omega
  · exact pointersAt_of_readable hArgv (by rw [imageStart_eq]; omega)
      (by rw [imageStart_eq]; omega)
  · have hEnv := pointersAt_of_readable hEnvp (by rw [imageStart_eq]; omega)
      (by rw [imageStart_eq]; omega)
    rw [BitVec.ofNat_add] at hEnv
    exact hEnv

end Decode

/-! ### The loader -/

section Load

variable {hostBig : Bool} {exe : Executable} {argv envp : List (List Byte)}

/-- The load up to the arguments: byte order, `ld_text_size` and memory. -/
def loadImage (hostBig : Bool) (exe : Executable) : Except Stop (Bool × Word × Memory) := do
  let bigEndian ← targetBigEndian exe.magic
  let (textSize, m) ← loadSections exe.sections (0, init)
  checkSegments textSize (Segments.dataBase + exe.dsize + exe.bsize - Segments.dataBase) exe.entry
    bigEndian hostBig
  return (bigEndian, textSize, m)

theorem loadProg_eq : loadProg hostBig exe argv envp = do
    let (bigEndian, textSize, m) ← loadImage hostBig exe
    let (sp, m) ← writeArgs (argBounds textSize) bigEndian argv envp m
    checkStack sp
    return ⟨bigEndian, textSize, Segments.dataBase + exe.dsize + exe.bsize - Segments.dataBase,
      exe.entry, m⟩ := by
  simp only [loadProg, loadImage, bind_assoc, pure_bind]
  rfl

/-- The check of `sp` never fails. -/
theorem checkStack_of_fits (h : Fits argv envp) :
    checkStack (BitVec.ofNat 32 (imageStart + imageLen argv envp)) = .ok () := by
  have hNot : ¬ Segments.stackBase < BitVec.ofNat 32 (imageStart + imageLen argv envp) := by
    rw [Fits, stackBase_eq] at h
    rw [BitVec.lt_def, stackBase_eq, BitVec.toNat_ofNat]
    omega
  rw [checkStack, if_neg hNot]

/-- **The overflow check is redundant.**  Arguments that do not fit end the load while they are
written. -/
theorem checkStack_redundant (textSize : Word) (bigEndian : Bool) (argv envp : List (List Byte)) (m : Memory) :
    (do
      let r ← writeArgs (argBounds textSize) bigEndian argv envp m
      checkStack r.1
      return r) = writeArgs (argBounds textSize) bigEndian argv envp m := by
  cases hArgs : writeArgs (argBounds textSize) bigEndian argv envp m with
  | error e => rfl
  | ok r =>
    rw [writeArgs_eq] at hArgs
    obtain ⟨m', hAll, hEnd⟩ := bind_eq_ok.mp hArgs
    cases hEnd
    rw [ok_bind, checkStack_of_fits (fits_of_allowed (allowed_of_writeAll hAll))]
    rfl

/-- The writes of a load that returns. -/
theorem writeAll_of_loadProg {l : Loaded} (h : loadProg hostBig exe argv envp = .ok l) :
    (∃ x, loadImage hostBig exe = .ok x) ∧ ∃ m,
      writeAll (argBounds l.textSize) (argWrites l.bigEndian argv envp) m = .ok l.mem := by
  rw [loadProg_eq] at h
  obtain ⟨x, hImage, h⟩ := bind_eq_ok.mp h
  obtain ⟨y, hArgs, h⟩ := bind_eq_ok.mp h
  obtain ⟨_, -, h⟩ := bind_eq_ok.mp h
  cases h
  rw [writeArgs_eq] at hArgs
  obtain ⟨m, hAll, hEnd⟩ := bind_eq_ok.mp hArgs
  cases hEnd
  exact ⟨⟨x, hImage⟩, x.2.2, hAll⟩

theorem loadProg_ok_iff : (∃ l, loadProg hostBig exe argv envp = .ok l) ↔
    (∃ x, loadImage hostBig exe = .ok x) ∧ Fits argv envp := by
  constructor
  · rintro ⟨l, hl⟩
    obtain ⟨hImage, m, hAll⟩ := writeAll_of_loadProg hl
    exact ⟨hImage, fits_of_allowed (allowed_of_writeAll hAll)⟩
  · rintro ⟨⟨⟨bigEndian, textSize, m⟩, hImage⟩, hFits⟩
    have hAllowed : ∀ w ∈ argWrites bigEndian argv envp, Allowed (argBounds textSize) w :=
      allowed_of_fits hFits
    obtain ⟨m', hAll, -⟩ := writeAll_ok (natural_argWrites bigEndian argv envp) hAllowed m
    rw [loadProg_eq, hImage]
    refine ⟨⟨bigEndian, textSize,
      Segments.dataBase + exe.dsize + exe.bsize - Segments.dataBase, exe.entry, m'⟩, ?_⟩
    simp only [ok_bind, writeArgs_eq, hAll, pure_bind, checkStack_of_fits hFits]
    rfl

end Load

/-- The image as the loader leaves it: the writes are aligned and permitted, they lie below the
stack base and do not overlap, and a program can decode them. -/
structure Written (l : Loaded) (argv envp : List (List Byte)) : Prop where
  performed : ∃ m, writeAll (argBounds l.textSize) (argWrites l.bigEndian argv envp) m = .ok l.mem
  allowed : ∀ w ∈ argWrites l.bigEndian argv envp, Allowed (argBounds l.textSize) w
  below : ∀ w ∈ argWrites l.bigEndian argv envp,
    environBase.toNat ≤ w.1 ∧ w.1 + w.2.length ≤ Segments.stackBase.toNat
  apart : ((argWrites l.bigEndian argv envp).flatMap place).Nodup
  image : StackImage l.bigEndian (view l.mem) argv envp

/-- **The start-up stack image** of every program that is loaded is as described, and the
arguments of a proper executable are loaded if and only if they fit. -/
theorem stack_image (hostBig : Bool) (exe : Executable) (argv envp : List (List Byte)) :
    (∀ l, loadProg hostBig exe argv envp = .ok l → Written l argv envp) ∧
      ((∃ l, loadProg hostBig exe argv envp = .ok l) ↔
        (∃ l, loadProg hostBig exe [] [] = .ok l) ∧ Fits argv envp) := by
  refine ⟨fun l hl => ?_, ?_⟩
  · obtain ⟨-, m, hAll⟩ := writeAll_of_loadProg hl
    have hAllowed := allowed_of_writeAll hAll
    have hFits := fits_of_allowed hAllowed
    have hBelow : ∀ w ∈ argWrites l.bigEndian argv envp,
        imageStart ≤ w.1 ∧ w.1 + w.2.length ≤ Segments.stackBase.toNat := by
      intro w hw
      obtain ⟨hGe, hLe⟩ := argWrites_within hw
      exact ⟨hGe, hLe.trans hFits⟩
    have hApart : ((argWrites l.bigEndian argv envp).flatMap place).Nodup :=
      (argWrites_perm l.bigEndian argv envp).nodup_iff.mpr nodup_range'
    refine ⟨⟨m, hAll⟩, hAllowed, hBelow, hApart, stackImage_of_readable hFits ?_⟩
    obtain ⟨m', hAll', hView⟩ := writeAll_ok (natural_argWrites l.bigEndian argv envp) hAllowed m
    rw [hAll] at hAll'
    cases hAll'
    rw [hView]
    refine storeAll_bytes (fun w hw => ?_) hApart
    have hEnd := (hBelow w hw).2
    rw [stackBase_eq] at hEnd
    omega
  · have hEmpty : Fits [] [] := by unfold Fits; decide
    rw [loadProg_ok_iff, loadProg_ok_iff, and_iff_left hEmpty]

/-- An argument and a variable without characters. -/
example : ∃ l, loadProg false (oneInst 0x00400000#32) [[0x61]] [[]] = .ok l :=
  exists_of_isOk (by decide +kernel)

end SimpleScalar.Loader

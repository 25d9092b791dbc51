import SimpleScalar.Paged
import SimpleScalar.Isa.Opcode

/-!
# Loading and predecoding

`ld_load_prog` of the standalone loader: the sections of an executable are copied through
`mem_access`, then the arguments and the environment of the program.  The size of the
text segment is that of its last section and 128 bytes, for speculative fetches.

An executable is given by its headers, a section with the bytes of the file from its
position on.

`sim_init` of `sim-safe` and `sim-cache` replaces the opcode of every instruction of the
text segment, without touching the pages.  `predecode_safe`: that is defined if every page
with a slot of the text segment has been written to, which the loader does not check.
-/

namespace SimpleScalar.Loader

open List Paged Outcome

/-- `s_flags` -/
inductive Styp where
  | TEXT | RDATA | DATA | SDATA | BSS | SBSS
  | other (flags : Word)
  deriving DecidableEq, Repr

/-- `struct ecoff_scnhdr`. -/
structure Section where
  flags : Styp
  vaddr : Word
  size : Word
  /-- the file from `s_scnptr` on -/
  data : List Byte

/-- `f_magic` -/
inductive Magic where
  | EB | EL
  | other (magic : BitVec 16)
  deriving DecidableEq, Repr

/-- The headers of an executable. -/
structure Executable where
  magic : Magic
  dsize : Word
  bsize : Word
  entry : Word
  sections : List Section

/-- `mem_bcopy` with `Write`. -/
def bcopy (b : Bounds) : Word → List Byte → Memory → Except Stop Memory
  | _, [], m => .ok m
  | addr, x :: xs, m => do
    let (_, m) ← access b .write addr [x] 1 m
    bcopy b (addr + 1) xs m

/-- `mem_strcpy` with `Write`; the end of the list is the terminator. -/
def strcpy (b : Bounds) : Word → List Byte → Memory → Except Stop (Word × Memory)
  | addr, [], m => do
    let (_, m) ← access b .write addr [0] 1 m
    return (1, m)
  | addr, c :: s, m => do
    let (_, m) ← access b .write addr [c] 1 m
    if c = 0 then return (1, m)
    let (n, m) ← strcpy b (addr + 1) s m
    return (n + 1, m)

/-! ### Sections -/

/-- The buffer of a section; a negative size is a request for more than all memory. -/
def readSection (s : Section) : Except Stop (List Byte) :=
  if 2 ^ 31 ≤ s.size.toNat then .error (.fatal "out of virtual memory")
  else if s.size.toNat = 0 ∨ s.data.length < s.size.toNat then
    .error (.fatal "could not read text section from executable")
  else .ok (s.data.take s.size.toNat)

/-- The bounds while sections are copied. -/
def loadBounds (textSize : Word) : Bounds := ⟨0, textSize, 0, Segments.stackBase, 0⟩

/-- One section: `ld_text_size` and memory. -/
def loadSection (s : Section) (x : Word × Memory) : Except Stop (Word × Memory) :=
  match s.flags with
  | .TEXT => do
    let textSize := (s.vaddr + s.size - Segments.textBase) + 128
    let p ← readSection s
    let m ← bcopy (loadBounds textSize) s.vaddr p x.2
    return (textSize, m)
  | .RDATA | .DATA | .SDATA => do
    let p ← readSection s
    let m ← bcopy (loadBounds x.1) s.vaddr p x.2
    return (x.1, m)
  | .BSS | .SBSS | .other _ => .ok x

def loadSections : List Section → Word × Memory → Except Stop (Word × Memory)
  | [], x => .ok x
  | s :: ss, x => do
    let x ← loadSection s x
    loadSections ss x

/-! ### Arguments -/

def writeWord (b : Bounds) (bigEndian : Bool) (addr v : Word) (m : Memory) : Except Stop Memory := do
  let (_, m) ← access b .write addr (split bigEndian 4 v.toNat) 4 m
  return m

/-- An array of pointers to strings, from its entry at `addr` on, with the strings at `sp`. -/
def fillStrings (b : Bounds) (bigEndian : Bool) :
    List (List Byte) → Word → Word → Memory → Except Stop (Word × Memory)
  | [], addr, sp, m => do
    let m ← writeWord b bigEndian addr 0 m
    return (sp, m)
  | s :: ss, addr, sp, m => do
    let m ← writeWord b bigEndian addr sp m
    let (n, m) ← strcpy b sp s m
    fillStrings b bigEndian ss (addr + 4) (sp + n) m

/-- `SS_STACK_BASE - SS_MAX_ENVIRON` -/
def environBase : Word := 0x7fff8000#32

/-- The end of the pointer arrays. -/
def stringBase (argc envc : Nat) : Word :=
  environBase + 4 + BitVec.ofNat 32 ((argc + 1) * 4) + BitVec.ofNat 32 ((envc + 1) * 4)

def writeArgs (b : Bounds) (bigEndian : Bool) (argv envp : List (List Byte)) (m : Memory) :
    Except Stop (Word × Memory) := do
  let m ← writeWord b bigEndian environBase (BitVec.ofNat 32 argv.length) m
  let argvAddr := environBase + 4
  let envpAddr := argvAddr + BitVec.ofNat 32 ((argv.length + 1) * 4)
  let (sp, m) ← fillStrings b bigEndian argv argvAddr (stringBase argv.length envp.length) m
  fillStrings b bigEndian envp envpAddr sp m

/-- What the loader leaves behind. -/
structure Loaded where
  bigEndian : Bool
  textSize : Word
  dataSize : Word
  progEntry : Word
  mem : Memory

def targetBigEndian : Magic → Except Stop Bool
  | .EB => .ok true
  | .EL => .ok false
  | .other _ => .error (.fatal "bad magic number in executable")

/-- The sanity checks on segments and byte order. -/
def checkSegments (textSize dataSize entry : Word) (bigEndian hostBig : Bool) : Except Stop Unit :=
  if textSize = 0 then .error (.fatal "executable is missing a `.text' section")
  else if dataSize = 0 then .error (.fatal "executable is missing a `.data' section")
  else if entry = 0 then .error (.fatal "program entry point not specified")
  else if bigEndian ≠ hostBig then .error (.fatal "binary endian does not match host endian")
  else .ok ()

def checkStack (sp : Word) : Except Stop Unit :=
  if Segments.stackBase < sp then
    .error (.fatal "environment overflow, increase SS_MAX_ENVIRON in ss.h")
  else .ok ()

/-- `ld_load_prog`. -/
def loadProg (hostBig : Bool) (exe : Executable) (argv envp : List (List Byte)) :
    Except Stop Loaded := do
  let bigEndian ← targetBigEndian exe.magic
  let dataBreak := Segments.dataBase + exe.dsize + exe.bsize
  let (textSize, m) ← loadSections exe.sections (0, init)
  let dataSize := dataBreak - Segments.dataBase
  checkSegments textSize dataSize exe.entry bigEndian hostBig
  let b : Bounds := ⟨Segments.textBase, textSize, Segments.dataBase, Segments.stackBase, 0⟩
  let (sp, m) ← writeArgs b bigEndian argv envp m
  checkStack sp
  return ⟨bigEndian, textSize, dataSize, exe.entry, m⟩

/-! ### Predecoding -/

/-- The masks of `ss.def`, in the order of the opcodes. -/
def masks : List Nat :=
  [0x00, 0x01, 0x02, 0x03, 0x04, 0x05, 0x06, 0x07, 0x08, 0x09, 0x0a, 0x0b, 0x0c, 0x20, 0x22, 0x24,
   0x26, 0x28, 0x29, 0x2a, 0x2b, 0x2c, 0x2d, 0x30, 0x32, 0x34, 0x35, 0x38, 0x36, 0x37, 0x39, 0x3a,
   0xc0, 0xc1, 0xc2, 0xc3, 0xc4, 0xce, 0xc5, 0xcf, 0xc6, 0xc7, 0xc8, 0xd0, 0xd1, 0xc9, 0xd2, 0xca,
   0xcb, 0xcc, 0xcd, 0x40, 0x41, 0x42, 0x43, 0x44, 0x45, 0x46, 0x47, 0x48, 0x49, 0x4a, 0x4b, 0x4c,
   0x4d, 0x4e, 0x4f, 0x50, 0x51, 0x52, 0x53, 0x54, 0x55, 0x56, 0x57, 0x58, 0x59, 0x5a, 0x5b, 0x5c,
   0x5d, 0x5e, 0x70, 0x71, 0x72, 0x73, 0x74, 0x75, 0x76, 0x77, 0x78, 0x79, 0x7a, 0x7b, 0x7c, 0x7d,
   0x80, 0x81, 0x82, 0x83, 0x84, 0x85, 0x90, 0x91, 0x92, 0x93, 0x94, 0x95, 0x96, 0x97, 0xa0, 0xa1,
   0xa2, 0xa3, 0xa7, 0xa4, 0xa5, 0xa8, 0xa6]

/-- `SS_OP_ENUM` -/
def opEnum (msk : Nat) : Nat :=
  match masks.idxOf? msk with
  | some i => i + 1
  | none => 0

/-- The new text of an instruction. -/
def decodeInst (bigEndian : Bool) (bs : List Byte) : List Byte :=
  let inst := Inst.ofBytes bigEndian bs
  let a := (inst.a &&& ~~~0xff#32) ||| BitVec.ofNat 32 (opEnum (inst.a &&& 0xff#32).toNat)
  split bigEndian 4 a.toNat ++ split bigEndian 4 inst.b.toNat

/-- The loop of `sim_init` in `sim-safe.c` and `sim-cache.c`, where `SWAP_WORD` is the identity;
nothing if it has not come to its end with the fuel. -/
def predecode (bigEndian : Bool) (stop : Word) : Nat → Word → Memory → Option (Except Stop Memory)
  | 0, _, _ => none
  | fuel + 1, addr, m =>
    if addr < stop then
      match (do
        let bs ← unchkRead addr 8 m
        unchkWrite addr (decodeInst bigEndian bs) m) with
      | .ok m => predecode bigEndian stop fuel (addr + 8) m
      | .error e => some (.error e)
    else some (.ok m)

/-- The loop over the text segment. -/
def Loaded.predecode (l : Loaded) : Option (Except Stop Memory) :=
  Loader.predecode l.bigEndian (Segments.textBase + l.textSize) (2 ^ 29 + 1) Segments.textBase
    l.mem

/-! ### The pages the loader writes to -/

/-- The pages of the addresses `A` have been allocated, and no others. -/
def Grows (m m' : Memory) (A : List Word) : Prop :=
  ∀ block, allocated m' block ↔ allocated m block ∨ ∃ a ∈ A, memBlock a = block

theorem Grows.refl (m : Memory) : Grows m m [] := fun block => by simp

theorem Grows.trans {m m' m'' : Memory} {A B : List Word} (h : Grows m m' A)
    (h' : Grows m' m'' B) : Grows m m'' (A ++ B) := by
  intro block
  rw [h' block, h block, or_assoc]
  refine or_congr_right ?_
  simp only [mem_append, or_and_right, exists_or]

def addresses (addr : Word) (n : Nat) : List Word :=
  (List.range n).map fun i => addr + BitVec.ofNat 32 i

theorem addresses_succ (addr : Word) (n : Nat) :
    addresses addr (n + 1) = addr :: addresses (addr + 1) n := by
  unfold addresses
  rw [range_succ_eq_map, map_cons, map_map, BitVec.add_zero]
  refine congrArg _ (map_congr_left fun i _ => ?_)
  rw [Function.comp_apply, Nat.succ_eq_add_one, Nat.add_comm, BitVec.ofNat_add, BitVec.add_assoc]
  rfl

variable {addr : Word} {bs : List Byte}

variable {m m' : Memory}

theorem rawWrite_grows (h : rawWrite addr bs m = .ok m') : Grows m m' [addr] := by
  intro block
  have hTickle : allocated (tickle addr m) block ↔ allocated m block ∨ memBlock addr = block := by
    unfold tickle allocated
    split
    · by_cases hb : block = memBlock addr
      · simp [hb]
      · simp [Function.update_of_ne hb, Ne.symm hb]
    · rename_i page hPage
      refine ⟨.inl, ?_⟩
      rintro (hIs | rfl)
      · exact hIs
      · rw [hPage]
        rfl
  have hSame : allocated m' block ↔ allocated (tickle addr m) block := by
    unfold rawWrite unchkWrite at h
    split at h
    · cases h
    · rename_i page hPage
      split at h
      · cases h
        unfold allocated
        by_cases hb : block = memBlock addr
        · simp [hb, hPage]
        · simp [Function.update_of_ne hb]
      · cases h
  simp [hSame, hTickle]

variable {b : Bounds} {m : Memory}

variable {p : List Byte} {n : Nat}

/-- A write of a byte or a word that returns. -/
theorem access_grows {r : List Byte × Memory} (hSize : n = 1 ∨ n = 2 ∨ n = 4)
    (h : access b .write addr p n m = .ok r) :
    Grows m r.2 [addr] ∧ b.permits .write addr = true := by
  unfold access at h
  split at h
  · cases h
  · split at h
    · cases h
    · rename_i hPermit
      dsimp only at h
      obtain ⟨m', hWrite, h⟩ := bind_eq_ok.mp h
      cases h
      refine ⟨fun block => ?_, by simpa using hPermit⟩
      have hTrack : allocated (track b addr m) block ↔ allocated m block := by
        unfold track
        split <;> rfl
      rw [rawWrite_grows hWrite block, hTrack]

theorem bcopy_grows (h : bcopy b addr p m = .ok m') : Grows m m' (addresses addr p.length) ∧
      ∀ a ∈ addresses addr p.length, b.permits .write a = true := by
  induction p generalizing addr m with
  | nil =>
    cases h
    exact ⟨Grows.refl _, fun a ha => absurd ha not_mem_nil⟩
  | cons x p ih =>
    obtain ⟨r, hAccess, h⟩ := bind_eq_ok.mp h
    obtain ⟨hFirst, hPermit⟩ := access_grows (.inl rfl) hAccess
    obtain ⟨hRest, hPermits⟩ := ih h
    rw [length_cons, addresses_succ]
    refine ⟨hFirst.trans hRest, fun a ha => ?_⟩
    rcases mem_cons.mp ha with rfl | ha
    · exact hPermit
    · exact hPermits a ha

/-- The number of bytes `mem_strcpy` copies. -/
def strLen (s : List Byte) : Nat := (s.takeWhile (· ≠ 0)).length + 1

variable {r : Word × Memory}

theorem strcpy_grows {s : List Byte} (h : strcpy b addr s m = .ok r) :
    Grows m r.2 (addresses addr (strLen s)) ∧ r.1 = BitVec.ofNat 32 (strLen s) := by
  induction s generalizing addr m r with
  | nil =>
    obtain ⟨x, hAccess, h⟩ := bind_eq_ok.mp h
    cases h
    refine ⟨?_, rfl⟩
    have hOne : addresses addr (strLen []) = [addr] := by
      rw [strLen, takeWhile_nil, length_nil, addresses_succ]
      rfl
    rw [hOne]
    exact (access_grows (.inl rfl) hAccess).1
  | cons c s ih =>
    obtain ⟨⟨_, m₁⟩, hAccess, h⟩ := bind_eq_ok.mp h
    dsimp only at h
    have hFirst := (access_grows (.inl rfl) hAccess).1
    by_cases hc : c = 0
    · have hLen : strLen (c :: s) = 0 + 1 := by simp [strLen, hc]
      rw [if_pos hc] at h
      cases h
      rw [hLen, addresses_succ]
      exact ⟨hFirst, rfl⟩
    · have hLen : strLen (c :: s) = strLen s + 1 := by
        rw [strLen, takeWhile_cons_of_pos (by simpa using hc), length_cons]
        rfl
      rw [if_neg hc] at h
      obtain ⟨y, hRest, h⟩ := bind_eq_ok.mp h
      cases h
      obtain ⟨hGrows, hCount⟩ := ih hRest
      rw [hLen, addresses_succ]
      exact ⟨hFirst.trans hGrows, by rw [hCount, BitVec.ofNat_add]; rfl⟩

/-- The addresses of a pointer array and its strings, and the end of the strings. -/
def fillAddrs : List (List Byte) → Word → Word → List Word × Word
  | [], addr, sp => ([addr], sp)
  | s :: ss, addr, sp =>
    let r := fillAddrs ss (addr + 4) (sp + BitVec.ofNat 32 (strLen s))
    (addr :: (addresses sp (strLen s) ++ r.1), r.2)

variable {bigEndian : Bool}

theorem writeWord_grows {addr v : Word}
    (h : writeWord b bigEndian addr v m = .ok m') : Grows m m' [addr] := by
  obtain ⟨x, hAccess, h⟩ := bind_eq_ok.mp h
  cases h
  exact (access_grows (.inr (.inr rfl)) hAccess).1

theorem fillStrings_grows {ss : List (List Byte)} {addr sp : Word}
    (h : fillStrings b bigEndian ss addr sp m = .ok r) :
    Grows m r.2 (fillAddrs ss addr sp).1 ∧ r.1 = (fillAddrs ss addr sp).2 := by
  induction ss generalizing addr sp m with
  | nil =>
    obtain ⟨m', hWrite, h⟩ := bind_eq_ok.mp h
    cases h
    exact ⟨writeWord_grows hWrite, rfl⟩
  | cons s ss ih =>
    obtain ⟨m₁, hWrite, h⟩ := bind_eq_ok.mp h
    obtain ⟨y, hCopy, h⟩ := bind_eq_ok.mp h
    obtain ⟨hString, hCount⟩ := strcpy_grows hCopy
    obtain ⟨hRest, hEnd⟩ := ih h
    rw [hCount] at hRest hEnd
    exact ⟨(writeWord_grows hWrite).trans (hString.trans hRest), hEnd⟩

/-- The addresses of the arguments and the environment. -/
def argAddrs (argv envp : List (List Byte)) : List Word :=
  let args := fillAddrs argv (environBase + 4) (stringBase argv.length envp.length)
  environBase :: (args.1 ++
    (fillAddrs envp (environBase + 4 + BitVec.ofNat 32 ((argv.length + 1) * 4)) args.2).1)

variable {argv envp : List (List Byte)}

theorem writeArgs_grows (h : writeArgs b bigEndian argv envp m = .ok r) :
    Grows m r.2 (argAddrs argv envp) := by
  obtain ⟨m₁, hCount, h⟩ := bind_eq_ok.mp h
  obtain ⟨y, hArgs, h⟩ := bind_eq_ok.mp h
  obtain ⟨hGrows, hEnd⟩ := fillStrings_grows hArgs
  have hRest := (fillStrings_grows h).1
  rw [hEnd] at hRest
  exact (writeWord_grows hCount).trans (hGrows.trans hRest)

/-- The section is copied. -/
def Section.isLoaded (s : Section) : Bool :=
  match s.flags with
  | .TEXT | .RDATA | .DATA | .SDATA => true
  | .BSS | .SBSS | .other _ => false

def sectionAddrs (ss : List Section) : List Word :=
  (ss.filter Section.isLoaded).flatMap fun s => addresses s.vaddr s.size.toNat

/-- `ld_text_size` after the sections, from that before. -/
def textSizeOf (ss : List Section) (textSize : Word) : Word :=
  ss.foldl (fun t s =>
    if s.flags = .TEXT then (s.vaddr + s.size - Segments.textBase) + 128 else t) textSize

/-- The text segment ends in the lower half of the address space. -/
def Low (textSize : Word) : Prop := (Segments.textBase + textSize).toNat ≤ 0x7fffc080

variable {s : Section}

theorem readSection_length (h : readSection s = .ok p) :
    p.length = s.size.toNat ∧ 0 < s.size.toNat ∧ s.size.toNat < 2 ^ 31 := by
  unfold readSection at h
  split at h
  · cases h
  · split at h
    · cases h
    · cases h
      rw [length_take]
      omega

/-- Bytes that could be written are in front of the stack. -/
theorem end_of_permits {textSize addr : Word} (hPos : 0 < n) (hInt : n < 2 ^ 31)
    (h : ∀ a ∈ addresses addr n, (loadBounds textSize).permits .write a = true) :
    addr.toNat + n ≤ 0x7fffc000 := by
  have hLt : ∀ i < n, (addr + BitVec.ofNat 32 i).toNat < 0x7fffc000 := by
    intro i hi
    have hIs := h _ (mem_map.mpr ⟨i, mem_range.mpr hi, rfl⟩)
    simp only [Bounds.permits, loadBounds, Segments.stackBase, Bool.or_eq_true, Bool.and_eq_true,
      decide_eq_true_eq, BitVec.lt_def] at hIs
    rcases hIs with hIs | hIs
    · cases hIs.2
    · exact hIs.2
  have hFirst := hLt 0 hPos
  have hLast := hLt (n - 1) (by omega)
  rw [BitVec.toNat_add, BitVec.toNat_ofNat] at hFirst hLast
  omega

variable {x r : Word × Memory}

theorem copy_grows
    (h : (do
      let p ← readSection s
      let m ← bcopy (loadBounds x.1) s.vaddr p x.2
      return (x.1, m)) = .ok r) :
    r.1 = x.1 ∧ Grows x.2 r.2 (addresses s.vaddr s.size.toNat) := by
  obtain ⟨p, hRead, h⟩ := bind_eq_ok.mp h
  obtain ⟨m', hCopy, h⟩ := bind_eq_ok.mp h
  cases h
  have hGrows := (bcopy_grows hCopy).1
  rw [(readSection_length hRead).1] at hGrows
  exact ⟨rfl, hGrows⟩

theorem loadSection_grows (h : loadSection s x = .ok r) :
    r.1 = textSizeOf [s] x.1 ∧ Grows x.2 r.2 (sectionAddrs [s]) ∧ (Low x.1 → Low r.1) := by
  unfold loadSection at h
  unfold textSizeOf sectionAddrs Section.isLoaded
  split at h <;> rename_i hFlags
  · obtain ⟨p, hRead, h⟩ := bind_eq_ok.mp h
    obtain ⟨m', hCopy, h⟩ := bind_eq_ok.mp h
    cases h
    obtain ⟨hLen, hPos, hInt⟩ := readSection_length hRead
    obtain ⟨hGrows, hPermits⟩ := bcopy_grows hCopy
    rw [hLen] at hGrows hPermits
    have hEnd := end_of_permits hPos hInt hPermits
    refine ⟨by simp [hFlags], by simpa [hFlags] using hGrows, fun _ => ?_⟩
    have hStop : Segments.textBase + (s.vaddr + s.size - Segments.textBase + 128) =
        s.vaddr + s.size + 128 := by
      rw [← BitVec.add_assoc, BitVec.add_comm Segments.textBase, BitVec.sub_add_cancel]
    unfold Low
    rw [hStop, BitVec.toNat_add, BitVec.toNat_add]
    have h128 : (128 : Word).toNat = 128 := rfl
    rw [h128]
    omega
  · obtain ⟨hSame, hGrows⟩ := copy_grows h
    exact ⟨by simp [hFlags, hSame], by simpa [hFlags] using hGrows, fun hLow => hSame ▸ hLow⟩
  · obtain ⟨hSame, hGrows⟩ := copy_grows h
    exact ⟨by simp [hFlags, hSame], by simpa [hFlags] using hGrows, fun hLow => hSame ▸ hLow⟩
  · obtain ⟨hSame, hGrows⟩ := copy_grows h
    exact ⟨by simp [hFlags, hSame], by simpa [hFlags] using hGrows, fun hLow => hSame ▸ hLow⟩
  all_goals
    cases h
    exact ⟨by simp [hFlags], by simpa [hFlags] using Grows.refl x.2, id⟩

theorem loadSections_grows {ss : List Section} (h : loadSections ss x = .ok r) (hLow : Low x.1) :
    r.1 = textSizeOf ss x.1 ∧ Grows x.2 r.2 (sectionAddrs ss) ∧ Low r.1 := by
  induction ss generalizing x with
  | nil =>
    cases h
    exact ⟨rfl, Grows.refl _, hLow⟩
  | cons s ss ih =>
    obtain ⟨y, hSection, h⟩ := bind_eq_ok.mp h
    obtain ⟨hSize, hGrows, hNext⟩ := loadSection_grows hSection
    obtain ⟨hSize', hGrows', hLow'⟩ := ih h (hNext hLow)
    refine ⟨?_, ?_, hLow'⟩
    · rw [hSize', hSize]
      rfl
    · have hSplit : sectionAddrs (s :: ss) = sectionAddrs [s] ++ sectionAddrs ss := by
        unfold sectionAddrs
        rw [← flatMap_append, ← filter_append]
        rfl
      rw [hSplit]
      exact hGrows.trans hGrows'

/-- The addresses that loading a program writes to. -/
def writtenAddrs (exe : Executable) (argv envp : List (List Byte)) : List Word :=
  sectionAddrs exe.sections ++ argAddrs argv envp

def Executable.textSize (exe : Executable) : Word := textSizeOf exe.sections 0

variable {hostBig : Bool} {exe : Executable}

/-- **Loading** allocates the pages it writes to. -/
theorem loadProg_spec {l : Loaded} (h : loadProg hostBig exe argv envp = .ok l) :
    l.textSize = exe.textSize ∧ Low l.textSize ∧
      ∀ block, allocated l.mem block ↔ ∃ a ∈ writtenAddrs exe argv envp, memBlock a = block := by
  obtain ⟨bigEndian, -, h⟩ := bind_eq_ok.mp h
  obtain ⟨x, hSections, h⟩ := bind_eq_ok.mp h
  obtain ⟨hSize, hGrows, hLow⟩ := loadSections_grows hSections (by unfold Low; decide)
  obtain ⟨_, -, h⟩ := bind_eq_ok.mp h
  obtain ⟨y, hArgs, h⟩ := bind_eq_ok.mp h
  obtain ⟨_, -, h⟩ := bind_eq_ok.mp h
  cases h
  refine ⟨hSize, hLow, fun block => ?_⟩
  rw [(hGrows.trans (writeArgs_grows hArgs)) block]
  have hNone : ¬ allocated init block := by simp [allocated, init]
  simp only [hNone, false_or]
  rfl

/-! ### The predecode loop -/

/-- The place of the opcode in the text of an instruction. -/
def opByte (bigEndian : Bool) : Nat := if bigEndian then 3 else 0

variable {i : Nat}

theorem split_getElem? (bigEndian : Bool) (v : Nat) (h : i < 4) :
    (split bigEndian 4 v)[i]? =
      some (BitVec.ofNat 8 (v / 256 ^ (if bigEndian then 3 - i else i))) := by
  have hi : i = 0 ∨ i = 1 ∨ i = 2 ∨ i = 3 := by omega
  cases bigEndian <;> rcases hi with rfl | rfl | rfl | rfl <;> rfl

theorem join_getElem? (bigEndian : Bool) (hLen : bs.length = 4)
    (h : i < 4) :
    bs[i]? =
      some (BitVec.ofNat 8 (join bigEndian bs / 256 ^ (if bigEndian then 3 - i else i))) := by
  match bs, hLen with
  | [b₀, b₁, b₂, b₃], _ =>
    have hByte := fun x : Byte => x.isLt
    have h₀ := hByte b₀
    have h₁ := hByte b₁
    have h₂ := hByte b₂
    have h₃ := hByte b₃
    have hi : i = 0 ∨ i = 1 ∨ i = 2 ∨ i = 3 := by omega
    cases bigEndian <;> rcases hi with rfl | rfl | rfl | rfl <;>
      simp [join] <;> apply BitVec.eq_of_toNat_eq <;> simp only [BitVec.toNat_ofNat] <;> omega

theorem opEnum_lt (msk : Nat) : opEnum msk < 2 ^ 8 := by
  unfold opEnum
  split
  · rename_i i hIdx
    have hLt : i < masks.length := by
      obtain ⟨hLt, -⟩ := List.findIdx?_eq_some_iff_getElem.mp hIdx
      exact hLt
    have hLen : masks.length = 119 := rfl
    omega
  · decide

/-- The new opcode leaves the upper bits alone. -/
theorem opcode_div (a : Word) (h : n < 2 ^ 8) :
    ((a &&& ~~~0xff#32) ||| BitVec.ofNat 32 n).toNat / 256 = a.toNat / 256 := by
  have hShift : ((a &&& ~~~0xff#32) ||| BitVec.ofNat 32 n) >>> 8 = a >>> 8 := by
    apply BitVec.eq_of_getLsbD_eq
    intro i hi
    have hMask : Nat.testBit 255 (8 + i) = false :=
      Nat.testBit_lt_two_pow (lt_of_lt_of_le (by decide) (Nat.pow_le_pow_right Nat.two_pos
        (Nat.le_add_right 8 i)))
    have hNew : n.testBit (8 + i) = false :=
      Nat.testBit_lt_two_pow (lt_of_lt_of_le h (Nat.pow_le_pow_right Nat.two_pos
        (Nat.le_add_right 8 i)))
    rw [BitVec.getLsbD_ushiftRight, BitVec.getLsbD_ushiftRight, BitVec.getLsbD_or,
      BitVec.getLsbD_and, BitVec.getLsbD_not, BitVec.getLsbD_ofNat, BitVec.getLsbD_ofNat, hMask,
      hNew]
    by_cases hIn : 8 + i < 32
    · simp [hIn]
    · simp [hIn, BitVec.getLsbD_of_ge a (8 + i) (by omega)]
  have hNat := congrArg BitVec.toNat hShift
  simpa only [BitVec.toNat_ushiftRight, Nat.shiftRight_eq_div_pow] using hNat

theorem join_lt (bigEndian : Bool) (hLen : bs.length = 4) :
    join bigEndian bs < 2 ^ 32 := by
  match bs, hLen with
  | [b₀, b₁, b₂, b₃], _ =>
    have h₀ := b₀.isLt
    have h₁ := b₁.isLt
    have h₂ := b₂.isLt
    have h₃ := b₃.isLt
    cases bigEndian <;> simp [join] <;> omega

/-- All bytes of an instruction but the opcode stay. -/
theorem decodeInst_getElem? (bigEndian : Bool) (hLen : bs.length = 8)
    (h : i < 8) (hOp : i ≠ opByte bigEndian) : (decodeInst bigEndian bs)[i]? = bs[i]? := by
  have hTake : (bs.take 4).length = 4 := by rw [length_take]; omega
  have hDrop : (bs.drop 4).length = 4 := by rw [length_drop]; omega
  have hSplit : ∀ v, (split bigEndian 4 v).length = 4 := length_split bigEndian 4
  conv_rhs => rw [← take_append_drop 4 bs]
  unfold decodeInst Inst.ofBytes
  dsimp only
  by_cases hi : i < 4
  · rw [List.getElem?_append_left (by rw [hSplit]; exact hi),
      List.getElem?_append_left (by rw [hTake]; exact hi), split_getElem? bigEndian _ hi,
      join_getElem? bigEndian hTake hi]
    -- the byte is a digit above the lowest
    obtain ⟨k, hk⟩ : ∃ k, (if bigEndian then 3 - i else i) = k + 1 := by
      unfold opByte at hOp
      refine Nat.exists_eq_succ_of_ne_zero ?_
      cases bigEndian <;> simp at hOp ⊢ <;> omega
    have hPow : (256 : Nat) ^ (k + 1) = 256 * 256 ^ k := by rw [Nat.pow_succ, Nat.mul_comm]
    rw [hk, hPow, ← Nat.div_div_eq_div_mul, ← Nat.div_div_eq_div_mul, opcode_div _ (opEnum_lt _),
      BitVec.toNat_ofNat, Nat.mod_eq_of_lt (join_lt bigEndian hTake)]
  · have hi' : i - 4 < 4 := by omega
    rw [List.getElem?_append_right (by rw [hSplit]; omega),
      List.getElem?_append_right (by rw [hTake]; omega), hSplit, hTake,
      split_getElem? bigEndian _ hi', join_getElem? bigEndian hDrop hi', BitVec.toNat_ofNat,
      Nat.mod_eq_of_lt (join_lt bigEndian hDrop)]

theorem length_decodeInst (bigEndian : Bool) (bs : List Byte) :
    (decodeInst bigEndian bs).length = 8 := by
  unfold decodeInst
  dsimp only
  rw [length_append, length_split, length_split]

/-- Bytes stored where they already are change nothing, but at `e`. -/
theorem store_keeps {mem mem' : Mem} {e : BitVec 31} (hMem : ∀ j, j ≠ e → mem' j = mem j)
    (hBytes : ∀ i < bs.length, Mem.index (addr + BitVec.ofNat 32 i) ≠ e →
      bs[i]? = some (mem (Mem.index (addr + BitVec.ofNat 32 i)))) :
    ∀ j, j ≠ e → mem'.store addr bs j = mem j := by
  induction bs generalizing addr mem' with
  | nil => exact hMem
  | cons b bs ih =>
    have hFirst := hBytes 0 (by simp)
    rw [BitVec.add_zero] at hFirst
    refine ih (fun j hj => ?_) (fun i hi he => ?_)
    · by_cases hIs : j = Mem.index addr
      · rw [hIs] at hj ⊢
        rw [Function.update_self]
        simpa using hFirst hj
      · rw [Function.update_of_ne hIs, hMem j hj]
    · have hShift : addr + 1 + BitVec.ofNat 32 i = addr + BitVec.ofNat 32 (i + 1) := by
        rw [BitVec.add_assoc, Nat.add_comm i, BitVec.ofNat_add]
        rfl
      rw [hShift] at he ⊢
      simpa using hBytes (i + 1) (by simpa using hi) he

/-- One slot. -/
theorem predecode_slot (h : addr.toNat % 8 = 0) (hPage : allocated m (memBlock addr)) :
    ∃ m', (do
        let bs ← unchkRead addr 8 m
        unchkWrite addr (decodeInst bigEndian bs) m) = .ok m' ∧
      (∀ j, j ≠ Mem.index (addr + BitVec.ofNat 32 (opByte bigEndian)) → view m' j = view m j) ∧
      ∀ block, allocated m' block ↔ allocated m block := by
  obtain ⟨page, hIs⟩ := Option.isSome_iff_exists.mp hPage
  have hFit : (memOffset addr).toNat + 8 ≤ 2 ^ 16 := by
    simp only [memOffset, BitVec.toNat_setWidth]
    omega
  have hRead := unchkRead_eq hIs hFit
  set bs := (view m).bytes addr 8 with hBs
  have hLen : bs.length = 8 := by rw [hBs, Mem.bytes, length_map, length_range]
  have hGet : ∀ i < 8, bs[i]? = some (view m (Mem.index (addr + BitVec.ofNat 32 i))) := by
    intro i hi
    rw [hBs, Mem.bytes, List.getElem?_map, List.getElem?_range hi]
    rfl
  obtain ⟨m', hWrite, hView, hTable⟩ :=
    unchkWrite_eq hIs (by rw [length_decodeInst bigEndian bs]; exact hFit)
  refine ⟨m', by rw [hRead]; exact hWrite, fun j hj => ?_, fun block => ?_⟩
  · rw [hView]
    refine store_keeps (fun _ _ => rfl) (fun i hi he => ?_) j hj
    rw [length_decodeInst] at hi
    have hOp : i ≠ opByte bigEndian := fun hOp => he (by rw [hOp])
    rw [decodeInst_getElem? bigEndian hLen hi hOp, hGet i hi]
  · unfold allocated
    rw [hTable]
    by_cases hb : block = memBlock addr
    · simp [hb, hIs]
    · rw [Function.update_of_ne hb]

/-- The slots from `addr` on. -/
def SlotFrom (addr stop a : Word) : Prop := addr ≤ a ∧ a < stop ∧ a.toNat % 8 = 0

section Loop

variable {bigEndian : Bool} {stop : Word} {fuel : Nat} {addr : Word} {m : Memory}

theorem addr_next (hLow : stop.toNat ≤ 0x7fffc080) (hLt : addr < stop) :
    (addr + 8).toNat = addr.toNat + 8 := by
  have hEight : (8 : Word).toNat = 8 := rfl
  rw [BitVec.lt_def] at hLt
  rw [BitVec.toNat_add, hEight]
  omega

theorem slot_next {a : Word} (hLow : stop.toNat ≤ 0x7fffc080) (hLt : addr < stop)
    (hAlign : addr.toNat % 8 = 0) :
    SlotFrom addr stop a ↔ a = addr ∨ SlotFrom (addr + 8) stop a := by
  have hNext := addr_next hLow hLt
  unfold SlotFrom
  simp only [BitVec.le_def, BitVec.lt_def, hNext, ← BitVec.toNat_inj] at hLt ⊢
  omega

/-- With all pages there, only opcodes change. -/
theorem predecode_ok (hLow : stop.toNat ≤ 0x7fffc080) (hFuel : stop.toNat ≤ addr.toNat + 8 * fuel)
    (hAlign : addr.toNat % 8 = 0) (hPages : ∀ a, SlotFrom addr stop a → allocated m (memBlock a)) :
    ∃ m', predecode bigEndian stop (fuel + 1) addr m = some (.ok m') ∧
      ∀ j, (∀ a, SlotFrom addr stop a → j ≠ Mem.index (a + BitVec.ofNat 32 (opByte bigEndian))) →
        view m' j = view m j := by
  induction fuel generalizing addr m with
  | zero =>
    have hEnd : ¬ addr < stop := by rw [BitVec.lt_def]; omega
    exact ⟨m, by rw [predecode, if_neg hEnd], fun _ _ => rfl⟩
  | succ fuel ih =>
    by_cases hLt : addr < stop
    · have hNext := addr_next hLow hLt
      obtain ⟨m₁, hSlot, hView, hSame⟩ :=
        predecode_slot (m := m) hAlign (hPages addr ⟨BitVec.le_refl _, hLt, hAlign⟩)
      obtain ⟨m', hRest, hView'⟩ := ih (by omega) (by omega) fun a ha =>
        (hSame _).mpr (hPages a ((slot_next hLow hLt hAlign).mpr (.inr ha)))
      refine ⟨m', by rw [predecode, if_pos hLt, hSlot]; exact hRest, fun j hj => ?_⟩
      rw [hView' j fun a ha => hj a ((slot_next hLow hLt hAlign).mpr (.inr ha)),
        hView j (hj addr ⟨BitVec.le_refl _, hLt, hAlign⟩)]
    · exact ⟨m, by rw [predecode, if_neg hLt], fun _ _ => rfl⟩

/-- A page that is not there is dereferenced. -/
theorem predecode_undefined (hLow : stop.toNat ≤ 0x7fffc080)
    (hFuel : stop.toNat ≤ addr.toNat + 8 * fuel) (hAlign : addr.toNat % 8 = 0) {a : Word}
    (hSlot : SlotFrom addr stop a) (hPage : ¬ allocated m (memBlock a)) :
    predecode bigEndian stop (fuel + 1) addr m = some (.error .undefined) := by
  induction fuel generalizing addr m with
  | zero =>
    obtain ⟨hGe, hLt, -⟩ := hSlot
    rw [BitVec.le_def] at hGe
    rw [BitVec.lt_def] at hLt
    omega
  | succ fuel ih =>
    have hLt : addr < stop := BitVec.lt_def.mpr (lt_of_le_of_lt hSlot.1 hSlot.2.1)
    have hNext := addr_next hLow hLt
    rw [predecode, if_pos hLt]
    by_cases hFirst : allocated m (memBlock addr)
    · obtain ⟨m₁, hStep, -, hSame⟩ := predecode_slot (m := m) hAlign hFirst
      rw [hStep]
      refine ih (by omega) (by omega) ?_ fun hIs => hPage ((hSame _).mp hIs)
      rcases (slot_next hLow hLt hAlign).mp hSlot with rfl | hSlot
      · exact absurd hFirst hPage
      · exact hSlot
    · have hNone : m.table (memBlock addr) = none := by simpa [allocated] using hFirst
      have hRead : unchkRead addr 8 m = .error .undefined := by rw [unchkRead, hNone]
      rw [hRead]
      rfl

end Loop

/-- The slots of the text segment. -/
def Executable.Slot (exe : Executable) (a : Word) : Prop :=
  SlotFrom Segments.textBase (Segments.textBase + exe.textSize) a

/-- Every page with a slot of the text segment is one with a byte of a loaded section, an argument
or the environment. -/
def Covered (exe : Executable) (argv envp : List (List Byte)) : Prop :=
  ∀ a, exe.Slot a → ∃ a' ∈ writtenAddrs exe argv envp, memBlock a' = memBlock a


theorem low_fuel {textSize : Word} (h : Low textSize) :
    (Segments.textBase + textSize).toNat ≤ Segments.textBase.toNat + 8 * 2 ^ 29 := by
  have hBase : Segments.textBase.toNat = 0x400000 := rfl
  unfold Low at h
  rw [hBase]
  omega

theorem Loaded.predecode_undefined {l : Loaded} (h : loadProg hostBig exe argv envp = .ok l)
    (hNot : ¬ Covered exe argv envp) : l.predecode = some (.error .undefined) := by
  obtain ⟨hSize, hLow, hPages⟩ := loadProg_spec h
  unfold Covered at hNot
  push Not at hNot
  obtain ⟨a, hSlot, hAway⟩ := hNot
  unfold Executable.Slot at hSlot
  rw [← hSize] at hSlot
  have hPage : ¬ allocated l.mem (memBlock a) := by
    rw [hPages]
    push Not
    exact hAway
  have hAlign : Segments.textBase.toNat % 8 = 0 := by decide
  unfold Loaded.predecode
  exact @Loader.predecode_undefined l.bigEndian _ (2 ^ 29) _ l.mem hLow (low_fuel hLow) hAlign a
    hSlot hPage

/-- **Predecoding** is defined, and changes nothing but the opcodes, if and only if every page with
a slot of the text segment has been written to. -/
theorem predecode_safe {hostBig : Bool} {exe : Executable} {argv envp : List (List Byte)}
    {l : Loaded} (h : loadProg hostBig exe argv envp = .ok l) :
    (∃ m', l.predecode = some (.ok m') ∧
      ∀ j, (∀ a, exe.Slot a → j ≠ Mem.index (a + BitVec.ofNat 32 (opByte l.bigEndian))) →
        view m' j = view l.mem j) ↔
    Covered exe argv envp := by
  constructor
  · rintro ⟨m', hRun, -⟩
    by_contra hNot
    rw [Loaded.predecode_undefined h hNot] at hRun
    cases hRun
  · intro hCovered
    obtain ⟨hSize, hLow, hPages⟩ := loadProg_spec h
    have hSlots : ∀ a, SlotFrom Segments.textBase (Segments.textBase + l.textSize) a →
        allocated l.mem (memBlock a) := by
      intro a ha
      rw [hSize] at ha
      exact (hPages _).mpr (hCovered a ha)
    have hAlign : Segments.textBase.toNat % 8 = 0 := by decide
    obtain ⟨m', hRun, hView⟩ :=
      @predecode_ok l.bigEndian _ (2 ^ 29) _ l.mem hLow (low_fuel hLow) hAlign hSlots
    refine ⟨m', hRun, fun j hj => hView j fun a ha => hj a ?_⟩
    rw [hSize] at ha
    exact ha

/-- An executable with one instruction at `vaddr`. -/
def oneInst (vaddr : Word) : Executable where
  magic := .EL
  dsize := 16
  bsize := 0
  entry := vaddr
  sections := [⟨.TEXT, vaddr, 8, [0x12, 0, 0, 0, 0, 0, 0, 0]⟩]

theorem exists_of_isOk {α : Type} {x : Except Stop α}
    (h : (match x with | .ok _ => true | .error _ => false) = true) : ∃ a, x = .ok a := by
  cases x with
  | ok a => exact ⟨a, rfl⟩
  | error e => cases h

theorem oneInst_loads {vaddr : Word} (h : vaddr = 0x00400000#32 ∨ vaddr = 0x0040fff8#32) :
    ∃ l, loadProg false (oneInst vaddr) [] [] = .ok l := by
  refine exists_of_isOk ?_
  rcases h with rfl | rfl <;> decide +kernel

theorem oneInst_covered : Covered (oneInst 0x00400000#32) [] [] := by
  intro a ha
  refine ⟨0x00400000#32, by decide +kernel, ?_⟩
  have hStop : Segments.textBase + (oneInst 0x00400000#32).textSize = 0x00400088#32 := by
    decide +kernel
  have hBase : Segments.textBase.toNat = 0x400000 := rfl
  have hEnd : (0x00400088#32).toNat = 0x400088 := rfl
  have hBlock : (memBlock 0x00400000#32).toNat = 0x40 := by decide +kernel
  obtain ⟨hGe, hLt, -⟩ := ha
  rw [BitVec.le_def, hBase] at hGe
  rw [hStop, BitVec.lt_def, hEnd] at hLt
  apply BitVec.eq_of_toNat_eq
  rw [hBlock]
  simp only [memBlock, BitVec.toNat_setWidth, BitVec.toNat_ushiftRight, Nat.shiftRight_eq_div_pow]
  omega

theorem predecode_safe_oneInst :
    ∃ l m', loadProg false (oneInst 0x00400000#32) [] [] = .ok l ∧
      l.predecode = some (.ok m') := by
  obtain ⟨l, hLoad⟩ := oneInst_loads (.inl rfl)
  obtain ⟨m', hRun, -⟩ := (predecode_safe hLoad).mpr oneInst_covered
  exact ⟨l, m', hLoad, hRun⟩

/-- The last instruction of a page is loaded; the pad of the text segment is in the next page,
which is not there. -/
theorem predecode_pageEnd :
    ∃ l, loadProg false (oneInst 0x0040fff8#32) [] [] = .ok l ∧
      l.predecode = some (.error .undefined) := by
  obtain ⟨l, hLoad⟩ := oneInst_loads (.inr rfl)
  refine ⟨l, hLoad, Loaded.predecode_undefined hLoad fun hCovered => ?_⟩
  have hAway : (writtenAddrs (oneInst 0x0040fff8#32) [] []).all
      (fun a => memBlock a != memBlock 0x00410000#32) = true := by
    decide +kernel
  have hSlot : (oneInst 0x0040fff8#32).Slot 0x00410000#32 := by
    unfold Executable.Slot SlotFrom
    decide +kernel
  obtain ⟨a, ha, hIs⟩ := hCovered _ hSlot
  simpa [hIs] using all_eq_true.mp hAway a ha

end SimpleScalar.Loader

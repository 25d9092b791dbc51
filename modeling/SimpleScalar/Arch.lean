import SimpleScalar.Isa.Def
import SimpleScalar.Memory

/-!
# Architected state and the host

What both simulators share: the architected registers and memory, the image the
loader leaves behind, and the host machine.  `syscall.c` talks to the host; it
sees the integer registers and memory, and what it does to them is a list of
register writes and of `mem_access` writes (`SyscallEffect`).  Everything else
about the host is opaque, and so are its floating point operations.
-/

namespace SimpleScalar

/-- `regs_R`, `regs_F`, `regs_HI`, `regs_LO`, `regs_FCC` and the memory. -/
structure Arch where
  regs : Reg → Word
  mem : Mem

namespace Arch

def setReg (a : Arch) (r : Reg) (v : Word) : Arch := { a with regs := Function.update a.regs r v }

/-- `regs_R[0] = 0`. -/
def zeroR0 (a : Arch) : Arch := a.setReg (.r 0) 0

@[simp] theorem zeroR0_mem (a : Arch) : a.zeroR0.mem = a.mem := rfl

theorem zeroR0_regs_of_ne {a : Arch} {r : Reg} (h : r ≠ .r 0) : a.zeroR0.regs r = a.regs r :=
  Function.update_of_ne h _ _

@[simp] theorem zeroR0_zeroR0 (a : Arch) : a.zeroR0.zeroR0 = a.zeroR0 := by
  simp [zeroR0, setReg]

end Arch

/-- How a system call can end the run. -/
inductive HostStop where
  | fatal (msg : String)
  | panic (msg : String)
  | exit (status : Word)

def HostStop.toStop : HostStop → Stop
  | fatal msg => .fatal msg
  | panic msg => .panic msg
  | exit status => .exit status

/-- What a system call did: the host moved on, registers were set, and buffers
were written with `mem_access`. -/
structure SyscallEffect (Host : Type) where
  host : Host
  regs : List (Fin 32 × Word)
  writes : List (Word × List Byte)

/-- The machine the simulators run on. -/
structure Platform where
  Host : Type
  fpu : Fpu
  bigEndian : Bool
  ssSyscall : Host → Inst → (Fin 32 → Word) → Mem → Except HostStop (SyscallEffect Host)

/-- A little-endian machine without floating point, whose system calls only end the run. -/
def Platform.bare : Platform where
  Host := Unit
  fpu := Fpu.none
  bigEndian := false
  ssSyscall _ _ regs _ := .error (.exit (regs 4))

/-- What the loader and the predecoder leave behind. -/
structure Image where
  ld : Segments
  arch : Arch

/-- The bytes of an instruction on a little-endian host. -/
def Inst.bytes (inst : Inst) : List Byte :=
  split false 4 inst.a.toNat ++ split false 4 inst.b.toNat

/-- A short program at the start of the text segment, with a stack pointer below
the environment. -/
def Image.ofInsts (insts : List Inst) : Image where
  ld := ⟨BitVec.ofNat 32 (8 * insts.length), Segments.textBase⟩
  arch :=
    { regs := fun r => if r = .r 29 then 0x7fff8000#32 else 0
      mem := Mem.store (fun _ => 0) Segments.textBase (insts.flatMap Inst.bytes) }

/-- The writes of a system call, in order. -/
def applyWrites (ld : Segments) : List (Word × List Byte) → Mem → Except Stop Mem
  | [], m => .ok m
  | (addr, p) :: ws, m => do
    let (_, m) ← memAccess ld .write addr p p.length m
    applyWrites ld ws m

/-- `ss_syscall(mem_access, inst)`. -/
def ssSyscall (pf : Platform) (ld : Segments) (inst : Inst) (host : pf.Host) (a : Arch) :
    Except Stop (pf.Host × Arch) :=
  match pf.ssSyscall host inst (fun n => a.regs (.r n)) a.mem with
  | .error e => .error e.toStop
  | .ok eff => do
    let mem ← applyWrites ld eff.writes a.mem
    return (eff.host, { regs := (eff.regs.foldl (fun a w => a.setReg (.r w.1) w.2) a).regs, mem })

/-- The writes of a system call leave the bytes below the data segment alone. -/
theorem applyWrites_text {ld : Segments} {addr : Word} (ha : addr < Segments.dataBase) :
    ∀ {ws : List (Word × List Byte)} {m m' : Mem}, applyWrites ld ws m = .ok m' →
      m' (Mem.index addr) = m (Mem.index addr) := by
  intro ws
  induction ws with
  | nil => intro m m' h; cases h; rfl
  | cons w ws ih =>
    intro m m' h
    obtain ⟨a, p⟩ := w
    simp only [applyWrites] at h
    cases hAcc : memAccess ld .write a p p.length m with
    | error e => rw [hAcc] at h; cases h
    | ok r =>
      rw [hAcc] at h
      obtain ⟨hAlign, hData, rfl⟩ := memAccess_write_ok hAcc
      exact (ih h).trans (text_store hAlign hData ha)

theorem ssSyscall_text {pf : Platform} {ld : Segments} {inst : Inst} {host : pf.Host} {a : Arch}
    {r : pf.Host × Arch} (h : ssSyscall pf ld inst host a = .ok r) {addr : Word}
    (ha : addr < Segments.dataBase) : r.2.mem (Mem.index addr) = a.mem (Mem.index addr) := by
  unfold ssSyscall at h
  split at h
  · cases h
  · rename_i eff _
    cases hWrites : applyWrites ld eff.writes a.mem with
    | error e => rw [hWrites] at h; cases h
    | ok m =>
      rw [hWrites] at h
      cases h
      exact applyWrites_text ha hWrites

end SimpleScalar

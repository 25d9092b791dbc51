import SimpleScalar.Arch

/-!
# The sequential simulator

`sim-safe.c`: the accessor macros read and write the architected state directly,
with every memory access checked, and `sim_main` executes one instruction after
the other.  Its run is the reference the correct path of `sim-outorder` is
compared with.
-/

namespace SimpleScalar.Safe

variable (pf : Platform) (ld : Segments)

/-- The state an expression of `ss.def` works on: the architected state, the host,
and the locals `addr` and `next_PC` of `sim_main`. -/
structure Exec where
  arch : Arch
  host : pf.Host
  addr : Word
  nextPC : Word

/-- The accessor macros of `sim-safe.c`. -/
def run (inst : Inst) (regsPC : Word) : Micro Unit → Exec pf → Except Stop (Exec pf)
  | .ret _, x => .ok x
  | .get r k, x => run inst regsPC (k (x.arch.regs r)) x
  | .use _ k, x => run inst regsPC k x
  | .put r v k, x => run inst regsPC k { x with arch := x.arch.setReg r v }
  | .cpc k, x => run inst regsPC (k regsPC) x
  | .setNpc v k, x => run inst regsPC k { x with nextPC := v }
  | .setTpc _ k, x => run inst regsPC k x
  | .load t addr k, x => do
    memValid ld .read addr t.size
    run inst regsPC (k (t.extend (join pf.bigEndian (x.arch.mem.bytes addr t.size))))
      { x with addr := addr }
  | .store t addr v k, x => do
    memValid ld .write addr t.size
    run inst regsPC k
      { x with
        arch := { x.arch with
          mem := x.arch.mem.store addr (split pf.bigEndian t.size v.toNat) }
        addr := addr }
  | .ifail msg _, _ => .error (.fatal msg)
  | .syscall k, x => do
    let (host, arch) ← ssSyscall pf ld inst x.host x.arch
    run inst regsPC k { x with host := host, arch := arch }
  | .undefined, _ => .error .undefined

/-- `sim_swap_words`: the loader refuses an image whose word order differs from
the host's, so it is zero in every run. -/
def simSwapWords : Nat := 0

def engine : Engine := Engine.default pf.fpu simSwapWords pf.bigEndian

/-- The state at the top of the loop of `sim_main`. -/
structure State where
  arch : Arch
  host : pf.Host
  regsPC : Word
  nextPC : Word

/-- `__UNCHK_MEM_ACCESS(SS_INST_TYPE, regs_PC)`. -/
def fetch (bigEndian : Bool) (m : Mem) (pc : Word) : Inst := Inst.ofBytes bigEndian (m.bytes pc 8)

/-- One iteration of `sim_main`. -/
def step (s : State pf) : Except Stop (State pf) :=
  let arch := s.arch.zeroR0
  let inst := fetch pf.bigEndian arch.mem s.regsPC
  match inst.decode with
  | none => .error (.panic "bogus opcode")
  | some .op_na => .error (.panic "bogus opcode")
  | some op => do
    let x ← run pf ld inst s.regsPC (op.expr (engine pf) inst)
      { arch := arch, host := s.host, addr := 0, nextPC := s.nextPC }
    return { arch := x.arch, host := x.host, regsPC := x.nextPC, nextPC := x.nextPC + 8 }

/-- The loader starts the program at its entry point. -/
def init (img : Image) (host : pf.Host) : State pf where
  arch := img.arch
  host := host
  regsPC := img.ld.progEntry
  nextPC := img.ld.progEntry + 8

/-- The state before instruction `n`. -/
def runN (img : Image) (host : pf.Host) : Nat → Except Stop (State pf)
  | 0 => .ok (init pf img host)
  | n + 1 => do
    let s ← runN img host n
    step pf img.ld s

end SimpleScalar.Safe

import SimpleScalar.Outorder.State

/-!
# The trace generator

`ruu_dispatch` executes an instruction as it dispatches it.  On the correct path
the accessor macros work on the architected state; in mis-speculation mode they
work on a copied-on-write overlay, a register file with a bit for each register and
a hash table for memory, which `tracer_recover` throws away.
-/

namespace SimpleScalar.Outorder

variable {env : Env}

/-! ### Speculative memory -/

/-- `HASH_ADDR`. -/
def hashAddr (addr : Word) : Nat :=
  (((addr >>> 24) ^^^ (addr >>> 16) ^^^ (addr >>> 8) ^^^ addr) &&& 31#32).toNat

/-- Search a hash chain; an entry that is found is relinked at the front. -/
def findEnt (addr : Word) (chain : List SpecMemEnt) : Option (SpecMemEnt × List SpecMemEnt) :=
  match chain.find? (fun e => e.addr == addr) with
  | none => none
  | some e => some (e, e :: chain.eraseP (fun e => e.addr == addr))

/-- The bytes of an entry that a read of `nbytes` copies. -/
def SpecMemEnt.read (e : SpecMemEnt) (nbytes : Nat) : List Byte := e.data.take nbytes

/-- A write into an entry.  Of an eight byte write only the first word is kept. -/
def SpecMemEnt.write (e : SpecMemEnt) (p : List Byte) (nbytes : Nat) : SpecMemEnt :=
  let n := if nbytes = 8 then 4 else nbytes
  { e with data := p.take n ++ e.data.drop n }

/-- `spec_mem_access` on the hash table: the buffer `p` and the table afterwards.
A refused access leaves both alone. -/
def specMemAccess (ld : Segments) (bugcompat : Bool) (m : Mem) (cmd : MemCmd) (addr : Word)
    (p : List Byte) (nbytes : Nat) (t : Nat → List SpecMemEnt) :
    Except Stop (List Byte × (Nat → List SpecMemEnt)) :=
  if !memAligned addr nbytes then .ok (p, t)
  else if !memPermitted ld cmd addr then .ok (p, t)
  else if nbytes ∉ [1, 2, 4, 8] then
    .error (.panic "access size not supported in mis-speculative mode")
  else
    let index := hashAddr addr
    match findEnt addr (t index), cmd with
    | some (e, chain), .read =>
      .ok (e.read nbytes, Function.update t index chain)
    | some (e, chain), .write =>
      .ok (p, Function.update t index (e.write p nbytes :: chain.tail))
    | none, .read => do
      -- MEM_READ_BYTE, MEM_READ_HALF and MEM_READ_WORD check once more
      memValid ld .read addr (min nbytes 4)
      if nbytes = 8 then memValid ld .read (addr + 4) 4
      return (m.bytes addr nbytes, t)
    | none, .write =>
      let e : SpecMemEnt := ⟨addr, List.replicate 8 0⟩
      -- in the compatible mode the new entry is never linked
      if bugcompat then .ok (p, t)
      else .ok (p, Function.update t index (e.write p nbytes :: t index))

/-! ### Accessors -/

/-- What an expression of `ss.def` works on in `ruu_dispatch`. -/
structure Exec (env : Env) where
  arch : Arch
  host : env.pf.Host
  overlay : Overlay
  temps : Temps
  addr : Word
  nextPC : Word
  targetPC : Word

/-- The register that holds the copied-on-write bit. -/
def useKey : Reg → Reg
  | .f n => .f ⟨evenFloor n, by unfold evenFloor; omega⟩
  | r => r

/-- The temporary a read goes through. -/
def Temps.get (t : Temps) : LoadKind → Nat
  | .signedByte => t.char.toNat
  | .unsignedByte => t.uchar.toNat
  | .signedHalf => t.short.toNat
  | .unsignedHalf => t.ushort.toNat
  | .word => t.uint.toNat

def Temps.set (t : Temps) (k : LoadKind) (v : Nat) : Temps :=
  match k with
  | .signedByte => { t with char := BitVec.ofNat 8 v }
  | .unsignedByte => { t with uchar := BitVec.ofNat 8 v }
  | .signedHalf => { t with short := BitVec.ofNat 16 v }
  | .unsignedHalf => { t with ushort := BitVec.ofNat 16 v }
  | .word => { t with uint := BitVec.ofNat 32 v }

/-- The temporary a write goes through is the unsigned one of its size. -/
def storeTemp : StoreKind → LoadKind
  | .byte => .unsignedByte
  | .half => .unsignedHalf
  | .word => .word

namespace Exec

variable (x : Exec env)

/-- `GPR`, `FPR_L`, `HI`, `LO`, `FCC`. -/
def get (r : Reg) : Word := if x.overlay.use (useKey r) then x.overlay.regs r else x.arch.regs r

/-- The bit a `SET_*` macro sets in mis-speculation mode. -/
def use (r : Reg) : Exec env :=
  { x with overlay := { x.overlay with use := Function.update x.overlay.use (useKey r) true } }

def putSpec (r : Reg) (v : Word) : Exec env :=
  { x with overlay := { x.overlay with regs := Function.update x.overlay.regs r v } }

def put (r : Reg) (v : Word) : Exec env := { x with arch := x.arch.setReg r v }

end Exec

section

variable (cfg : Config) (ld : Segments) (specMode : Bool) (inst : Inst) (regsPC : Word)

/-- `__READ_SPECMEM`. -/
def readSpecMem (t : LoadKind) (addr : Word) (x : Exec env) : Except Stop (Word × Exec env) := do
  let p := split env.pf.bigEndian t.size (x.temps.get t)
  let x := { x with addr := addr }
  if specMode then
    let (p, htable) ←
      specMemAccess ld cfg.bugcompatMode x.arch.mem .read addr p t.size x.overlay.storeHtable
    let temps := x.temps.set t (join env.pf.bigEndian p)
    return (t.extend (temps.get t),
      { x with temps := temps, overlay := { x.overlay with storeHtable := htable } })
  else
    let (p, _) ← memAccess ld .read addr p t.size x.arch.mem
    let temps := x.temps.set t (join env.pf.bigEndian p)
    return (t.extend (temps.get t), { x with temps := temps })

/-- `__WRITE_SPECMEM`. -/
def writeSpecMem (t : StoreKind) (addr v : Word) (x : Exec env) : Except Stop (Exec env) := do
  let temps := x.temps.set (storeTemp t) v.toNat
  let p := split env.pf.bigEndian t.size (temps.get (storeTemp t))
  let x := { x with addr := addr, temps := temps }
  if specMode then
    let (_, htable) ←
      specMemAccess ld cfg.bugcompatMode x.arch.mem .write addr p t.size x.overlay.storeHtable
    return { x with overlay := { x.overlay with storeHtable := htable } }
  else
    let (_, mem) ← memAccess ld .write addr p t.size x.arch.mem
    return { x with arch := { x.arch with mem := mem } }

/-- The accessor macros of `sim-outorder.c`. -/
def run : Micro Unit → Exec env → Except Stop (Exec env)
  | .ret _, x => .ok x
  | .get r k, x => run (k (x.get r)) x
  | .use r k, x => if specMode then run k (x.use r) else run k x
  | .put r v k, x => if specMode then run k (x.putSpec r v) else run k (x.put r v)
  | .cpc k, x => run (k regsPC) x
  | .setNpc v k, x => run k { x with nextPC := v }
  | .setTpc v k, x => run k { x with targetPC := v }
  | .load t addr k, x => do
    let (v, x) ← readSpecMem cfg ld specMode t addr x
    run (k v) x
  | .store t addr v k, x => do
    let x ← writeSpecMem cfg ld specMode t addr v x
    run k x
  | .ifail msg k, x => if specMode then run k x else .error (.fatal msg)
  | .syscall k, x =>
    if specMode then .error (.check .speculativeSyscall)
    else do
      let (host, arch) ← ssSyscall env.pf ld inst x.host x.arch
      run k { x with host := host, arch := arch }
  | .undefined, _ => .error .undefined

end

/-- The macros `ruu_dispatch` compiles `ss.def` with; `sim_swap_words` is zero. -/
def engine (env : Env) : Engine := Engine.outorder env.pf.fpu 0 env.pf.bigEndian

/-- `tracer_recover`. -/
def tracerRecover (s : State env) : Except Stop (State env) :=
  if !s.specMode then .error (.check .cannotRecover)
  else
    .ok { s with
      specMode := false
      overlay := ⟨fun _ => false, s.overlay.regs, fun _ => []⟩
      fetchNum := 0
      fetchTail := 0
      fetchHead := 0
      fetchPredPC := s.recoverPC
      fetchRegsPC := s.recoverPC }

end SimpleScalar.Outorder

import SimpleScalar.Safe.Values
import Mathlib.Data.Nat.Bitwise

/-!
# Loads and stores with auto-update addressing

The loads and stores of `ss.def` that `INC_DEC` wraps, in six classes of data and two forms of
addresses.  `INC_DEC` moves the base register before or after the access, by the step that
`ss_fore_tab` and `ss_aft_tab` have for the mode of the instruction.

* `stored_of_run`: what a store that returns has done.
* `exists_loaded`: what a load does, if memory may be read there.

The displacement store of a double is apart: its `INC_DEC` has the size of a word
(`run_storeDouble`).
-/

namespace SimpleScalar

/-- What is loaded and stored; a byte or a half is loaded signed or unsigned. -/
inductive Datum where
  | byte (signed : Bool)
  | half (signed : Bool)
  | word
  | pair
  | single
  | double
  deriving DecidableEq

/-- Base and displacement, or base and index register. -/
inductive Form where
  | disp
  | rr
  deriving DecidableEq

namespace Datum

def storeOp : Datum → Form → Opcode
  | byte _, .disp => .sb
  | half _, .disp => .sh
  | word, .disp => .sw
  | pair, .disp => .dsw
  | single, .disp => .s_s
  | double, .disp => .s_d
  | byte _, .rr => .sb_rr
  | half _, .rr => .sh_rr
  | word, .rr => .sw_rr
  | pair, .rr => .dsw_rr
  | single, .rr => .s_s_rr
  | double, .rr => .s_d_rr

def loadOp : Datum → Form → Opcode
  | byte true, .disp => .lb
  | byte false, .disp => .lbu
  | half true, .disp => .lh
  | half false, .disp => .lhu
  | word, .disp => .lw
  | pair, .disp => .dlw
  | single, .disp => .l_s
  | double, .disp => .l_d
  | byte true, .rr => .lb_rr
  | byte false, .rr => .lbu_rr
  | half true, .rr => .lh_rr
  | half false, .rr => .lhu_rr
  | word, .rr => .lw_rr
  | pair, .rr => .dlw_rr
  | single, .rr => .l_s_rr
  | double, .rr => .l_d_rr

/-- The width of an access. -/
def width : Datum → ℕ
  | byte _ => 1
  | half _ => 2
  | word | single => 4
  | pair | double => 8

/-- Two registers. -/
def wide : Datum → Bool
  | pair | double => true
  | _ => false

def float : Datum → Bool
  | single | double => true
  | _ => false

/-- The data registers. -/
def reg (d : Datum) (n : Fin 32) : Reg := if d.float then .f n else .r n

def regOf (d : Datum) (g : Reg → Word) (n : ℕ) : Word := if h : n < 32 then g (d.reg ⟨n, h⟩) else 0

/-- The value in the data registers; the second word is that of a pair. -/
def value (d : Datum) (inst : Inst) (g : Reg → Word) : Word × Word :=
  (d.regOf g inst.rt, if d.wide then d.regOf g (inst.rt + 1) else 0)

/-- The bytes of a value, the two words in the order of `sim_swap_words`. -/
def encode (d : Datum) (bigEndian : Bool) (swap : ℕ) (v : Word × Word) : List Byte :=
  if d.wide then
    if swap = 0 then split bigEndian 4 v.1.toNat ++ split bigEndian 4 v.2.toNat
    else split bigEndian 4 v.2.toNat ++ split bigEndian 4 v.1.toNat
  else split bigEndian d.width v.1.toNat

/-- The `READ_*` macro. -/
def kind : Datum → LoadKind
  | byte true => .signedByte
  | byte false => .unsignedByte
  | half true => .signedHalf
  | half false => .unsignedHalf
  | _ => .word

def decode (d : Datum) (bigEndian : Bool) (swap : ℕ) (bs : List Byte) : Word × Word :=
  if d.wide then
    let lo := BitVec.ofNat 32 (join bigEndian (bs.take 4))
    let hi := BitVec.ofNat 32 (join bigEndian (bs.drop 4))
    if swap = 0 then (lo, hi) else (hi, lo)
  else (d.kind.extend (join bigEndian bs), 0)

/-- The checks of `mem_valid`. -/
def Permitted (d : Datum) (ld : Segments) (cmd : MemCmd) (a : Word) : Prop :=
  if d.wide then memValid ld cmd a 4 = .ok () ∧ memValid ld cmd (a + 4) 4 = .ok ()
  else memValid ld cmd a d.width = .ok ()

end Datum

/-- The address, in registers `g`. -/
def Form.address (f : Form) (inst : Inst) (g : Reg → Word) : Word :=
  gprOf g inst.rs + match f with
    | .disp => inst.imm
    | .rr => gprOf g inst.rd

/-- The specifiers name registers, that of a pair its even one. -/
structure Usable (d : Datum) (f : Form) (inst : Inst) : Prop where
  rs : inst.rs < 32
  rt : inst.rt < 32
  rd : f = .rr → inst.rd < 32
  even : d.wide = true → inst.rt % 2 = 0

/-- No address register is a data register. -/
def Apart (d : Datum) (f : Form) (inst : Inst) : Prop :=
  d.float = false → inst.rs ≠ inst.rt ∧ (d.wide = true → inst.rs ≠ inst.rt + 1) ∧
    (f = .rr → inst.rd ≠ inst.rt ∧ (d.wide = true → inst.rd ≠ inst.rt + 1))

/-! ### The expressions -/

namespace Datum

def get (d : Datum) (n : ℕ) : Micro Word := if d.float then fprL n else gpr n

def set (d : Datum) (n : ℕ) (e : Micro Word) : Micro Unit :=
  if d.float then setFprL n e else setGpr n e

def align (d : Datum) (n : ℕ) : Micro Unit := if d.float then fpalign n else intalign n

/-- The `WRITE_*` macro. -/
def write (d : Datum) (v addr : Word) : Micro Unit :=
  match d with
  | byte _ => writeByte v addr
  | half _ => writeHalf v addr
  | _ => writeWord v addr

end Datum

def Form.addr (f : Form) (inst : Inst) : Micro Word :=
  match f with
  | .disp => dispAddr inst
  | .rr => rrAddr inst

/-- What `INC_DEC` wraps in a store. -/
def Datum.storeBody (d : Datum) (f : Form) (c : Engine) (inst : Inst) : Micro Unit :=
  if d.wide then do
    d.align inst.rt
    writeWord (← d.get (inst.rt ^^^ c.simSwapWords)) (← f.addr inst)
    writeWord (← d.get ((inst.rt + 1) ^^^ c.simSwapWords)) ((← f.addr inst) + 4)
  else do
    d.write (← d.get inst.rt) (← f.addr inst)

/-- What `INC_DEC` wraps in a load; `DLW` and `DLW_RR` read the address registers once. -/
def Datum.loadBody (d : Datum) (f : Form) (c : Engine) (inst : Inst) : Micro Unit :=
  if d.wide then
    if d.float then do
      d.align inst.rt
      d.set (inst.rt ^^^ c.simSwapWords) (do readWord (← f.addr inst))
      d.set ((inst.rt + 1) ^^^ c.simSwapWords) (do readWord ((← f.addr inst) + 4))
    else do
      d.align inst.rt
      let addr ← f.addr inst
      d.set (inst.rt ^^^ c.simSwapWords) (readWord addr)
      d.set ((inst.rt + 1) ^^^ c.simSwapWords) (readWord (addr + 4))
  else
    d.set inst.rt (do .load d.kind (← f.addr inst) .ret)

variable {d : Datum} {f : Form} {c : Engine} {inst : Inst}

theorem storeOp_expr (h : ¬ (d = .double ∧ f = .disp)) :
    (d.storeOp f).expr c inst = incDec inst (d.storeBody f c inst) inst.rs d.width := by
  cases d <;> cases f
  case double.disp => exact absurd ⟨rfl, rfl⟩ h
  all_goals rfl

theorem loadOp_expr :
    (d.loadOp f).expr c inst = incDec inst (d.loadBody f c inst) inst.rs d.width := by
  cases d with
  | byte signed => cases signed <;> cases f <;> rfl
  | half signed => cases signed <;> cases f <;> rfl
  | word => cases f <;> rfl
  | pair =>
    cases f
    · simp only [Datum.loadBody, Datum.loadOp, Opcode.expr, Form.addr, dispAddr, Micro.bind_eq,
        Micro.bind_assoc]
      rfl
    · simp only [Datum.loadBody, Datum.loadOp, Opcode.expr, Form.addr, rrAddr, Micro.bind_eq,
        Micro.bind_assoc]
      rfl
  | single => cases f <;> rfl
  | double => cases f <;> rfl

namespace Safe

variable {pf : Platform} {ld : Segments} {c : Engine} {inst : Inst} {pc : Word} {x y : Exec pf}
  {d : Datum} {f : Form} {n : ℕ} {e : Micro Word} {v : Word} {u : Unit}

/-! ### Accesses that return -/

theorem eval_get_ok : eval pf ld inst pc (d.get n) x = .ok (v, y) ↔
    ∃ h : n < 32, v = x.arch.regs (d.reg ⟨n, h⟩) ∧ y = x := by
  unfold Datum.get Datum.reg
  split
  · exact eval_fprL_ok
  · exact eval_gpr_ok

theorem eval_set_ok : eval pf ld inst pc (d.set n e) x = .ok (u, y) ↔
    ∃ (h : n < 32) (v : Word) (z : Exec pf), eval pf ld inst pc e x = .ok (v, z) ∧
      y = z.put (d.reg ⟨n, h⟩) v := by
  unfold Datum.set Datum.reg
  split
  · exact eval_setFprL_ok
  · exact eval_setGpr_ok

theorem eval_align_ok : eval pf ld inst pc (d.align n) x = .ok (u, y) ↔ n % 2 = 0 ∧ y = x := by
  unfold Datum.align
  split
  · exact eval_fpalign_ok
  · exact eval_intalign_ok

variable {g : Reg → Word}

theorem gprOf_of_lt (h : n < 32) : gprOf g n = g (.r ⟨n, h⟩) := dif_pos h

theorem regOf_of_lt (h : n < 32) : d.regOf g n = g (d.reg ⟨n, h⟩) := dif_pos h

theorem eval_addr_ok : eval pf ld inst pc (f.addr inst) x = .ok (v, y) ↔
    inst.rs < 32 ∧ (f = .rr → inst.rd < 32) ∧ v = f.address inst x.arch.regs ∧ y = x := by
  cases f with
  | disp =>
    simp only [Form.addr, dispAddr, Form.address, Micro.bind_eq, Micro.pure_eq, eval_bind_ok,
      eval_gpr_ok, eval_ret_ok]
    constructor
    · rintro ⟨b, z, ⟨hs, rfl, rfl⟩, rfl, rfl⟩
      exact ⟨hs, (fun h => by cases h), by rw [gprOf_of_lt hs], rfl⟩
    · rintro ⟨hs, -, rfl, rfl⟩
      exact ⟨_, _, ⟨hs, rfl, rfl⟩, by rw [gprOf_of_lt hs], rfl⟩
  | rr =>
    simp only [Form.addr, rrAddr, Form.address, Micro.bind_eq, Micro.pure_eq, eval_bind_ok,
      eval_gpr_ok, eval_ret_ok]
    constructor
    · rintro ⟨b, z, ⟨hs, rfl, rfl⟩, i, w, ⟨hd, rfl, rfl⟩, rfl, rfl⟩
      exact ⟨hs, fun _ => hd, by rw [gprOf_of_lt hs, gprOf_of_lt hd], rfl⟩
    · rintro ⟨hs, hd, rfl, rfl⟩
      exact ⟨_, _, ⟨hs, rfl, rfl⟩, _, _, ⟨hd trivial, rfl, rfl⟩,
        by rw [gprOf_of_lt hs, gprOf_of_lt (hd trivial)], rfl⟩

variable {a : Word}

theorem eval_write_ok (hNarrow : d.wide = false) :
    eval pf ld inst pc (d.write v a) x = .ok (u, y) ↔
      memValid ld .write a d.width = .ok () ∧
        y = x.write a (split pf.bigEndian d.width v.toNat) := by
  cases d with
  | byte _ => exact eval_store_ok
  | half _ => exact eval_store_ok
  | word => exact eval_store_ok
  | single => exact eval_store_ok
  | pair => cases hNarrow
  | double => cases hNarrow

theorem run_incDec_ok {e : Micro Unit} {size : ℕ} (hMode : inst.compOp < 5) :
    run pf ld inst pc (incDec inst e inst.rs size) x = .ok y ↔ ∃ (hs : inst.rs < 32) (z : Exec pf),
      run pf ld inst pc e (x.put (.r ⟨inst.rs, hs⟩)
        (x.arch.regs (.r ⟨inst.rs, hs⟩) + foreStep size inst.compOp)) = .ok z ∧
      y = z.put (.r ⟨inst.rs, hs⟩) (z.arch.regs (.r ⟨inst.rs, hs⟩) + aftStep size inst.compOp) := by
  simp only [run_ok, incDec, ssForeTab_eq hMode, ssAftTab_eq hMode, Micro.bind_eq, Micro.pure_eq,
    eval_bind_ok, eval_setGpr_ok, eval_gpr_ok, eval_ret_ok]
  constructor
  · rintro ⟨_, _, ⟨hs, _, _, ⟨_, _, ⟨_, rfl, rfl⟩, _, _, ⟨rfl, rfl⟩, rfl, rfl⟩, rfl⟩, _, _, hz, _, _, _,
      ⟨_, _, ⟨_, rfl, rfl⟩, _, _, ⟨rfl, rfl⟩, rfl, rfl⟩, rfl⟩
    exact ⟨hs, _, hz, rfl⟩
  · rintro ⟨hs, z, hz, rfl⟩
    exact ⟨(), _, ⟨hs, _, _, ⟨_, _, ⟨hs, rfl, rfl⟩, _, _, ⟨rfl, rfl⟩, rfl, rfl⟩, rfl⟩, (), z, hz, hs, _, _,
      ⟨_, _, ⟨hs, rfl, rfl⟩, _, _, ⟨rfl, rfl⟩, rfl, rfl⟩, rfl⟩

/-! ### Stores -/

/-- `sim_swap_words` exchanges the two registers of a pair. -/
theorem xor_swap {n swap : ℕ} (hEven : n % 2 = 0) (hSwap : swap ≤ 1) :
    n ^^^ swap = n + swap ∧ (n + 1) ^^^ swap = n + 1 - swap := by
  rcases Nat.le_one_iff_eq_zero_or_eq_one.mp hSwap with rfl | rfl
  · exact ⟨Nat.xor_zero n, Nat.xor_zero (n + 1)⟩
  · have hn : Even n := Nat.even_iff.mpr hEven
    exact ⟨Nat.xor_one_of_even hn, Nat.xor_one_of_odd hn.add_one⟩

variable {swap : ℕ}

variable {bigEndian : Bool}

theorem encode_wide (hWide : d.wide = true) (hEven : inst.rt % 2 = 0) (hSwap : swap ≤ 1) :
    d.encode bigEndian swap (d.value inst g) =
      split bigEndian 4 (d.regOf g (inst.rt ^^^ swap)).toNat ++
        split bigEndian 4 (d.regOf g ((inst.rt + 1) ^^^ swap)).toNat := by
  obtain ⟨hFirst, hSecond⟩ := xor_swap hEven hSwap
  rw [hFirst, hSecond, Datum.encode, if_pos hWide, Datum.value, if_pos hWide]
  rcases Nat.le_one_iff_eq_zero_or_eq_one.mp hSwap with rfl | rfl <;> rfl

theorem store_append (q : List Byte) : ∀ (p : List Byte) (m : Mem) (a : Word),
    (m.store a p).store (a + BitVec.ofNat 32 p.length) q = m.store a (p ++ q) := by
  intro p
  induction p with
  | nil =>
    intro m a
    rw [List.length_nil, BitVec.add_zero]
    rfl
  | cons b p ih =>
    intro m a
    rw [List.length_cons, Nat.add_comm, BitVec.ofNat_add, ← BitVec.add_assoc]
    exact ih _ (a + 1)

theorem storeBody_ok (hSwap : c.simSwapWords ≤ 1)
    (h : run pf ld inst pc (d.storeBody f c inst) x = .ok y) :
    Usable d f inst ∧ d.Permitted ld .write (f.address inst x.arch.regs) ∧
      y.arch = { x.arch with
        mem := x.arch.mem.store (f.address inst x.arch.regs)
          (d.encode pf.bigEndian c.simSwapWords (d.value inst x.arch.regs)) } := by
  rw [run_ok, Datum.storeBody] at h
  unfold Datum.Permitted
  cases hWide : d.wide with
  | false =>
    have hNarrow : ¬ d.wide = true := by rw [hWide]; exact Bool.false_ne_true
    simp only [hWide, Bool.false_eq_true, if_false, Micro.bind_eq, eval_bind_ok, eval_get_ok,
      eval_addr_ok, eval_write_ok hWide] at h ⊢
    obtain ⟨_, _, ⟨ht, rfl, rfl⟩, _, _, ⟨hs, hd, rfl, rfl⟩, hValid, rfl⟩ := h
    refine ⟨⟨hs, ht, hd, fun h => absurd h hNarrow⟩, hValid, ?_⟩
    rw [Datum.encode, if_neg hNarrow, Datum.value, regOf_of_lt ht]
    rfl
  | true =>
    simp only [hWide, if_true, Micro.bind_eq, eval_bind_ok, eval_get_ok, eval_addr_ok,
      eval_align_ok, writeWord, eval_store_ok] at h ⊢
    obtain ⟨_, _, ⟨hEven, rfl⟩, _, _, ⟨ht, rfl, rfl⟩, _, _, ⟨hs, hd, rfl, rfl⟩, _, _, ⟨hValid, rfl⟩, _, _,
      ⟨ht', rfl, rfl⟩, _, _, ⟨-, -, rfl, rfl⟩, hValid', rfl⟩ := h
    refine ⟨⟨hs, ?_, hd, fun _ => hEven⟩, ⟨hValid, hValid'⟩, ?_⟩
    · obtain ⟨hFirst, hSecond⟩ := xor_swap hEven hSwap
      omega
    · rw [encode_wide hWide hEven hSwap, ← store_append, Mem.length_split_four, regOf_of_lt ht,
        regOf_of_lt ht']
      rfl

/-! ### The base register -/

/-- The address of an access, from what the index register holds and what the base register holds
when `INC_DEC` has come to the access. -/
def spot (f : Form) (inst : Inst) (index base : Word) : Word :=
  match f with
  | .disp => base + inst.imm
  | .rr => base + if inst.rd = inst.rs then base else index

/-- The address of an access, in registers `g` before the instruction. -/
def place (d : Datum) (f : Form) (inst : Inst) (g : Reg → Word) : Word :=
  spot f inst (gprOf g inst.rd) (gprOf g inst.rs + foreStep d.width inst.compOp)

theorem gprOf_put_self (hn : n < 32) : gprOf (x.put (.r ⟨n, hn⟩) v).arch.regs n = v := by
  rw [gprOf_of_lt hn, regs_put]

variable {k : ℕ}

theorem gprOf_put_of_ne (hn : n < 32) (hk : k ≠ n) :
    gprOf (x.put (.r ⟨n, hn⟩) v).arch.regs k = gprOf x.arch.regs k := by
  unfold gprOf
  split
  · exact regs_put_of_ne (fun h => hk (congrArg Fin.val (Reg.r.inj h))) v
  · rfl

theorem address_put (hs : inst.rs < 32) : f.address inst (x.put (.r ⟨inst.rs, hs⟩) v).arch.regs =
    spot f inst (gprOf x.arch.regs inst.rd) v := by
  unfold Form.address spot
  rw [gprOf_put_self hs]
  cases f with
  | disp => rfl
  | rr =>
    by_cases hd : inst.rd = inst.rs
    · simp only [hd, gprOf_put_self hs, if_true]
    · simp only [if_neg hd, gprOf_put_of_ne hs hd]

theorem reg_ne_gpr (hFloat : d.float = false → n ≠ k) (hn : n < 32) (hk : k < 32) :
    d.reg ⟨n, hn⟩ ≠ .r ⟨k, hk⟩ := by
  unfold Datum.reg
  split
  · exact Reg.noConfusion
  · rename_i h
    exact fun hEq => hFloat (by simpa using h) (congrArg Fin.val (Reg.r.inj hEq))

theorem value_put (hApart : Apart d f inst) (hs : inst.rs < 32) :
    d.value inst (x.put (.r ⟨inst.rs, hs⟩) v).arch.regs = d.value inst x.arch.regs := by
  have hReg : ∀ k, (d.float = false → k ≠ inst.rs) →
      d.regOf (x.put (.r ⟨inst.rs, hs⟩) v).arch.regs k = d.regOf x.arch.regs k := by
    intro k hk
    unfold Datum.regOf
    split
    · rename_i h
      exact regs_put_of_ne (reg_ne_gpr hk h hs) v
    · rfl
  unfold Datum.value
  rw [hReg inst.rt fun h => (hApart h).1.symm]
  split
  · rename_i hWide
    rw [hReg (inst.rt + 1) fun h => ((hApart h).2.1 hWide).symm]
  · rfl

/-- What a store has done. -/
structure Stored (ld : Segments) (c : Engine) (d : Datum) (f : Form) (inst : Inst)
    (x y : Exec pf) : Prop where
  usable : Usable d f inst
  permitted : d.Permitted ld .write (place d f inst x.arch.regs)
  mem : y.arch.mem = x.arch.mem.store (place d f inst x.arch.regs)
    (d.encode pf.bigEndian c.simSwapWords (d.value inst x.arch.regs))
  base : gprOf y.arch.regs inst.rs = gprOf x.arch.regs inst.rs + foreStep d.width inst.compOp +
    aftStep d.width inst.compOp
  other : ∀ k, k ≠ inst.rs → gprOf y.arch.regs k = gprOf x.arch.regs k

theorem stored_of_run (hOp : ¬ (d = .double ∧ f = .disp)) (hMode : inst.compOp < 5)
    (hSwap : c.simSwapWords ≤ 1) (hApart : Apart d f inst)
    (h : run pf ld inst pc ((d.storeOp f).expr c inst) x = .ok y) : Stored ld c d f inst x y := by
  rw [storeOp_expr hOp, run_incDec_ok hMode] at h
  obtain ⟨hs, z, hz, rfl⟩ := h
  obtain ⟨hUsable, hPermitted, hArch⟩ := storeBody_ok hSwap hz
  have hBase : x.arch.regs (.r ⟨inst.rs, hs⟩) = gprOf x.arch.regs inst.rs := (gprOf_of_lt hs).symm
  rw [address_put hs, hBase] at hPermitted hArch
  rw [value_put hApart] at hArch
  refine ⟨hUsable, hPermitted, ?_, ?_, ?_⟩
  · exact congrArg Arch.mem hArch
  · rw [gprOf_put_self hs, congrArg Arch.regs hArch]
    exact congrArg (· + _) ((gprOf_of_lt hs).symm.trans (gprOf_put_self hs))
  · intro k hk
    rw [gprOf_put_of_ne hs hk, congrArg Arch.regs hArch]
    exact gprOf_put_of_ne hs hk

theorem storeDouble_expr : (Datum.double.storeOp .disp).expr c inst =
    incDec inst (Datum.double.storeBody .disp { c with simSwapWords := 0 } inst) inst.rs 4 := by
  simp only [Datum.storeBody, Nat.xor_zero]
  rfl

/-- The displacement store of a double moves the base by the step of a word. -/
theorem base_of_storeDouble (hMode : inst.compOp < 5)
    (h : run pf ld inst pc ((Datum.double.storeOp .disp).expr c inst) x = .ok y) :
    gprOf y.arch.regs inst.rs =
      gprOf x.arch.regs inst.rs + foreStep 4 inst.compOp + aftStep 4 inst.compOp := by
  rw [storeDouble_expr, run_incDec_ok hMode] at h
  obtain ⟨hs, z, hz, rfl⟩ := h
  obtain ⟨-, -, hArch⟩ := storeBody_ok (Nat.zero_le 1) hz
  rw [gprOf_put_self hs, congrArg Arch.regs hArch]
  change (x.put _ _).arch.regs _ + _ = _
  rw [regs_put, gprOf_of_lt hs]

/-! ### Loads -/

/-- What a load has done. -/
structure Loaded (c : Engine) (d : Datum) (f : Form) (inst : Inst) (x y : Exec pf) : Prop where
  mem : y.arch.mem = x.arch.mem
  value : d.value inst y.arch.regs = d.decode pf.bigEndian c.simSwapWords
    (x.arch.mem.bytes (place d f inst x.arch.regs) d.width)
  base : gprOf y.arch.regs inst.rs = gprOf x.arch.regs inst.rs + foreStep d.width inst.compOp +
    aftStep d.width inst.compOp
  index : f = .rr → inst.rd ≠ inst.rs → gprOf y.arch.regs inst.rd = gprOf x.arch.regs inst.rd

theorem bytes_append (m : Mem) (a : Word) (k l : ℕ) :
    m.bytes a (k + l) = m.bytes a k ++ m.bytes (a + BitVec.ofNat 32 k) l := by
  unfold Mem.bytes
  rw [List.range_add, List.map_append, List.map_map]
  congr 1
  apply List.map_congr_left
  intro i _
  rw [Function.comp_apply, BitVec.ofNat_add, ← BitVec.add_assoc]

theorem length_bytes (m : Mem) (a : Word) (k : ℕ) : (m.bytes a k).length = k := by
  rw [Mem.bytes, List.length_map, List.length_range]

theorem reg_inj {i j : Fin 32} (h : d.reg i = d.reg j) : i = j := by
  unfold Datum.reg at h
  split at h
  · exact Reg.f.inj h
  · exact Reg.r.inj h

/-- The pair after both words have been loaded. -/
theorem value_pair {lo hi : Word} (hWide : d.wide = true)
    (hEven : inst.rt % 2 = 0) (hSwap : swap ≤ 1) (h₀ : inst.rt ^^^ swap < 32)
    (h₁ : (inst.rt + 1) ^^^ swap < 32) :
    d.value inst (Function.update (Function.update g (d.reg ⟨inst.rt ^^^ swap, h₀⟩) lo)
      (d.reg ⟨(inst.rt + 1) ^^^ swap, h₁⟩) hi) = if swap = 0 then (lo, hi) else (hi, lo) := by
  obtain ⟨hFirst, hSecond⟩ := xor_swap hEven hSwap
  have ht : inst.rt + 1 < 32 := by omega
  have hNe : d.reg ⟨inst.rt, by omega⟩ ≠ d.reg ⟨inst.rt + 1, ht⟩ := by
    intro h
    have hVal := congrArg Fin.val (reg_inj h)
    simp at hVal
  rw [Datum.value, if_pos hWide, regOf_of_lt ht, regOf_of_lt (Nat.lt_of_succ_lt ht)]
  rcases Nat.le_one_iff_eq_zero_or_eq_one.mp hSwap with rfl | rfl
  · simp only [Nat.xor_zero, if_true, Function.update_self, Function.update_of_ne hNe]
  · simp only [hFirst, hSecond, Nat.add_sub_cancel, Nat.one_ne_zero, if_false, Function.update_self,
      Function.update_of_ne hNe.symm]

/-- Floating point registers are no part of an address. -/
theorem address_update {i : Fin 32} (hFloat : d.float = true) :
    f.address inst (Function.update g (d.reg i) v) = f.address inst g := by
  have hGpr : ∀ k, gprOf (Function.update g (d.reg i) v) k = gprOf g k := by
    intro k
    unfold gprOf Datum.reg
    rw [if_pos hFloat]
    split
    · exact Function.update_of_ne Reg.noConfusion _ _
    · rfl
  unfold Form.address
  cases f <;> simp only [hGpr]

theorem decode_wide {m : Mem} (hWide : d.wide = true) :
    d.decode bigEndian swap (m.bytes a 8) =
      let lo := LoadKind.word.extend (join bigEndian (m.bytes a 4))
      let hi := LoadKind.word.extend (join bigEndian (m.bytes (a + 4) 4))
      if swap = 0 then (lo, hi) else (hi, lo) := by
  have hLen := length_bytes m a 4
  rw [Datum.decode, if_pos hWide, bytes_append m a 4 4, List.take_left' hLen, List.drop_left' hLen]
  rfl

theorem width_wide (hWide : d.wide = true) : d.width = 8 := by
  cases d <;> first | rfl | cases hWide

theorem size_kind (hNarrow : d.wide = false) : d.kind.size = d.width := by
  cases d with
  | byte signed => cases signed <;> rfl
  | half signed => cases signed <;> rfl
  | word => rfl
  | single => rfl
  | pair => cases hNarrow
  | double => cases hNarrow

/-- What the body of a load does to the registers. -/
structure BodyLoaded (c : Engine) (d : Datum) (f : Form) (inst : Inst) (x y : Exec pf) : Prop where
  mem : y.arch.mem = x.arch.mem
  value : d.value inst y.arch.regs = d.decode pf.bigEndian c.simSwapWords
    (x.arch.mem.bytes (f.address inst x.arch.regs) d.width)
  other : ∀ r, (∀ h, r ≠ d.reg ⟨inst.rt, h⟩) →
    (d.wide = true → ∀ h, r ≠ d.reg ⟨inst.rt + 1, h⟩) → y.arch.regs r = x.arch.regs r

theorem BodyLoaded.gprOf_eq (h : BodyLoaded c d f inst x y)
    (hk : d.float = false → k ≠ inst.rt ∧ (d.wide = true → k ≠ inst.rt + 1)) :
    gprOf y.arch.regs k = gprOf x.arch.regs k := by
  unfold gprOf
  split
  · rename_i hLt
    refine h.other _ (fun ht => ?_) fun hWide ht => ?_
    · exact (reg_ne_gpr (fun hFloat => (hk hFloat).1.symm) ht hLt).symm
    · exact (reg_ne_gpr (fun hFloat => ((hk hFloat).2 hWide).symm) ht hLt).symm
  · rfl

theorem loadBody_narrow (hNarrow : d.wide = false) (hUsable : Usable d f inst)
    (hPermitted : d.Permitted ld .read (f.address inst x.arch.regs)) :
    ∃ y : Exec pf, run pf ld inst pc (d.loadBody f c inst) x = .ok y ∧ BodyLoaded c d f inst x y := by
  have hFalse : ¬ d.wide = true := by rw [hNarrow]; exact Bool.false_ne_true
  simp only [Datum.Permitted, if_neg hFalse] at hPermitted
  simp only [run_ok, Datum.loadBody, if_neg hFalse, Micro.bind_eq, eval_bind_ok, eval_set_ok,
    eval_addr_ok, eval_load_ok, size_kind hNarrow]
  refine ⟨_, ⟨hUsable.rt, _, _, ⟨_, _, ⟨hUsable.rs, hUsable.rd, rfl, rfl⟩, hPermitted, rfl, rfl⟩, rfl⟩,
    rfl, ?_, fun r hr _ => regs_put_of_ne (hr hUsable.rt) _⟩
  rw [Datum.value, if_neg hFalse, regOf_of_lt hUsable.rt, regs_put, Datum.decode, if_neg hFalse]

/-- The word at an address. -/
def wordAt (pf : Platform) (m : Mem) (a : Word) : Word :=
  LoadKind.word.extend (join pf.bigEndian (m.bytes a 4))

theorem BodyLoaded.of_pair (hAddr : f.address inst x.arch.regs = a)
    (hWide : d.wide = true) (hEven : inst.rt % 2 = 0) (hSwap : c.simSwapWords ≤ 1)
    (h₀ : inst.rt ^^^ c.simSwapWords < 32) (h₁ : (inst.rt + 1) ^^^ c.simSwapWords < 32)
    (hMem : y.arch.mem = x.arch.mem)
    (hRegs : y.arch.regs = Function.update (Function.update x.arch.regs
      (d.reg ⟨inst.rt ^^^ c.simSwapWords, h₀⟩) (wordAt pf x.arch.mem a))
      (d.reg ⟨(inst.rt + 1) ^^^ c.simSwapWords, h₁⟩) (wordAt pf x.arch.mem (a + 4))) :
    BodyLoaded c d f inst x y := by
  refine ⟨hMem, ?_, ?_⟩
  · rw [hRegs, width_wide hWide, decode_wide hWide, hAddr]
    exact value_pair hWide hEven hSwap h₀ h₁
  · intro r hr hr'
    have hNe : ∀ k (h : k < 32), k = inst.rt ∨ k = inst.rt + 1 → r ≠ d.reg ⟨k, h⟩ := by
      rintro k h (rfl | rfl)
      · exact hr h
      · exact hr' hWide h
    obtain ⟨hFirst, hSecond⟩ := xor_swap hEven hSwap
    rw [hRegs, Function.update_of_ne (hNe _ h₁ (by omega)), Function.update_of_ne (hNe _ h₀ (by omega))]

theorem loadBody_wide (hWide : d.wide = true) (hUsable : Usable d f inst)
    (hSwap : c.simSwapWords ≤ 1)
    (hPermitted : d.Permitted ld .read (f.address inst x.arch.regs)) :
    ∃ y : Exec pf, run pf ld inst pc (d.loadBody f c inst) x = .ok y ∧ BodyLoaded c d f inst x y := by
  have hEven := hUsable.even hWide
  have ht := hUsable.rt
  obtain ⟨hFirst, hSecond⟩ := xor_swap hEven hSwap
  have h₀ : inst.rt ^^^ c.simSwapWords < 32 := by omega
  have h₁ : (inst.rt + 1) ^^^ c.simSwapWords < 32 := by omega
  simp only [Datum.Permitted, if_pos hWide] at hPermitted
  simp only [run_ok, Datum.loadBody, if_pos hWide]
  cases hFloat : d.float with
  | true =>
    have hAddr : ∀ w, f.address inst (Function.update x.arch.regs
        (d.reg ⟨inst.rt ^^^ c.simSwapWords, h₀⟩) w) = f.address inst x.arch.regs :=
      fun w => address_update hFloat
    simp only [if_true, Micro.bind_eq, eval_bind_ok, eval_set_ok, eval_addr_ok, eval_align_ok,
      readWord, eval_load_ok]
    refine ⟨_, ⟨(), _, ⟨hEven, rfl⟩, (), _, ⟨h₀, _, _, ⟨_, _, ⟨hUsable.rs, hUsable.rd, rfl, rfl⟩, hPermitted.1,
      rfl, rfl⟩, rfl⟩, h₁, _, _, ⟨_, _, ⟨hUsable.rs, hUsable.rd, (hAddr _).symm, rfl⟩, hPermitted.2, rfl, rfl⟩,
      rfl⟩, .of_pair rfl hWide hEven hSwap h₀ h₁ rfl rfl⟩
  | false =>
    simp only [Bool.false_eq_true, if_false, Micro.bind_eq, eval_bind_ok, eval_set_ok, eval_addr_ok,
      eval_align_ok, readWord, eval_load_ok]
    exact ⟨_, ⟨(), _, ⟨hEven, rfl⟩, _, _, ⟨hUsable.rs, hUsable.rd, rfl, rfl⟩, (), _, ⟨h₀, _, _, ⟨hPermitted.1,
      rfl, rfl⟩, rfl⟩, h₁, _, _, ⟨hPermitted.2, rfl, rfl⟩, rfl⟩,
      .of_pair rfl hWide hEven hSwap h₀ h₁ rfl rfl⟩

theorem exists_loaded (hMode : inst.compOp < 5) (hSwap : c.simSwapWords ≤ 1)
    (hApart : Apart d f inst) (hUsable : Usable d f inst)
    (hPermitted : d.Permitted ld .read (place d f inst x.arch.regs)) :
    ∃ y : Exec pf, run pf ld inst pc ((d.loadOp f).expr c inst) x = .ok y ∧
      Loaded c d f inst x y := by
  have hs := hUsable.rs
  have hBase : x.arch.regs (.r ⟨inst.rs, hs⟩) = gprOf x.arch.regs inst.rs := (gprOf_of_lt hs).symm
  have hAddr : f.address inst (x.put (.r ⟨inst.rs, hs⟩)
      (x.arch.regs (.r ⟨inst.rs, hs⟩) + foreStep d.width inst.compOp)).arch.regs =
        place d f inst x.arch.regs := by
    rw [address_put hs, hBase]
    rfl
  have hBody : ∃ z : Exec pf, run pf ld inst pc (d.loadBody f c inst) (x.put (.r ⟨inst.rs, hs⟩)
      (x.arch.regs (.r ⟨inst.rs, hs⟩) + foreStep d.width inst.compOp)) = .ok z ∧
        BodyLoaded c d f inst (x.put (.r ⟨inst.rs, hs⟩)
          (x.arch.regs (.r ⟨inst.rs, hs⟩) + foreStep d.width inst.compOp)) z := by
    rw [← hAddr] at hPermitted
    cases hWide : d.wide with
    | false => exact loadBody_narrow hWide hUsable hPermitted
    | true => exact loadBody_wide hWide hUsable hSwap hPermitted
  obtain ⟨z, hz, hLoaded⟩ := hBody
  simp only [loadOp_expr, run_incDec_ok hMode]
  refine ⟨_, ⟨hs, z, hz, rfl⟩, hLoaded.mem, ?_, ?_, ?_⟩
  · rw [value_put hApart, hLoaded.value, hAddr]
    rfl
  · have hKept := hLoaded.gprOf_eq fun hFloat => ⟨(hApart hFloat).1, (hApart hFloat).2.1⟩
    rw [gprOf_put_self hs, hBase] at hKept
    have hReg : z.arch.regs (.r ⟨inst.rs, hs⟩) = _ := (gprOf_of_lt hs).symm.trans hKept
    rw [gprOf_put_self hs, hReg]
  · intro hForm hd
    have hKept := hLoaded.gprOf_eq fun hFloat => (hApart hFloat).2.2 hForm
    rw [gprOf_put_of_ne hs hd] at hKept
    rw [gprOf_put_of_ne hs hd, hKept]

end Safe

end SimpleScalar

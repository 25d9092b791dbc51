import SimpleScalar.Outorder.Frontend
import SimpleScalar.Outorder.Frames
import SimpleScalar.Engines

/-!
# The correct path

The instructions that `ruu_dispatch` executes with `spec_mode` FALSE are executed one after
the other on the architected state, with the accessors of `sim-safe` (`Sequential`).  On
the correct path the fetch queue is a chain of predicted addresses that starts where the
last of them leads (`Chain`), in mis-speculation mode `recover_PC` is that address; the
words in the fetch queue are those of the text segment, which no instruction can write.

* `run_correct`, `run_wrong`: what an instruction does on either path.
* `follows_reachable`: `Follows` in every reachable state.
* `correct_path`: the trace is a prefix of the run of `sim-safe`.
-/

namespace SimpleScalar.Outorder

open Outcome

variable {env : Env} {cfg : Config} {ld : Segments}

/-! ### Execution -/

/-- What the two simulators have in common of the state that an instruction works on. -/
def Exec.safe (x : Exec env) : Safe.Exec env.pf := ⟨x.arch, x.host, x.addr, x.nextPC⟩

theorem Temps.extend_get_set (t : Temps) (k : LoadKind) (v : Nat) :
    k.extend ((t.set k v).get k) = k.extend v := by
  cases k <;> simp only [Temps.set, Temps.get, LoadKind.extend, BitVec.ofNat_toNat, BitVec.setWidth_eq]

/-- A buffer only has the low bytes of a value. -/
theorem split_mod {b : Bool} {n v : Nat} : split b n (v % 256 ^ n) = split b n v := by
  have hByte : ∀ i ∈ List.range n, BitVec.ofNat 8 (v % 256 ^ n / 256 ^ i) = BitVec.ofNat 8 (v / 256 ^ i) := by
    intro i hi
    have hLt := List.mem_range.mp hi
    obtain ⟨k, rfl⟩ : ∃ k, n = i + (k + 1) := ⟨n - i - 1, by omega⟩
    apply BitVec.eq_of_toNat_eq
    rw [BitVec.toNat_ofNat, BitVec.toNat_ofNat, Nat.pow_add, Nat.mod_mul_right_div_self, Nat.pow_succ,
      Nat.mul_comm (256 ^ k) 256]
    exact Nat.mod_mul_right_mod ..
  unfold split
  rw [List.map_congr_left hByte]

theorem Temps.split_get_set (t : Temps) (k : StoreKind) (b : Bool) (v : Word) :
    split b k.size ((t.set (storeTemp k) v.toNat).get (storeTemp k)) = split b k.size v.toNat := by
  cases k with
  | byte => exact split_mod
  | half => exact split_mod
  | word => simp [Temps.set, Temps.get, storeTemp]

/-- No register is copied. -/
def Overlay.Clear (o : Overlay) : Prop := ∀ r, o.use r = false

variable {x : Exec env}

theorem Exec.get_of_clear (h : x.overlay.Clear) (r : Reg) : x.get r = x.arch.regs r := by
  unfold Exec.get
  rw [h, if_neg (by decide)]

section

variable {inst : Inst} {pc : Word}

variable {r : Word × Exec env}

theorem readSpecMem_correct {t : LoadKind} {addr : Word}
    (h : readSpecMem cfg ld false t addr x = .ok r) :
    memValid ld .read addr t.size = .ok () ∧
      r.1 = t.extend (join env.pf.bigEndian (x.arch.mem.bytes addr t.size)) ∧
      r.2.overlay = x.overlay ∧ r.2.safe = { x.safe with addr := addr } := by
  unfold readSpecMem at h
  dsimp only at h
  rw [if_neg (by decide)] at h
  obtain ⟨p, hAccess, h⟩ := bind_eq_ok.mp h
  cases h
  rw [memAccess_read_ok hAccess]
  exact ⟨memAccess_valid hAccess, Temps.extend_get_set .., rfl, rfl⟩

variable {t : StoreKind} {addr v : Word} {x x' : Exec env}

theorem writeSpecMem_correct (h : writeSpecMem cfg ld false t addr v x = .ok x') :
    memValid ld .write addr t.size = .ok () ∧ x'.overlay = x.overlay ∧ x'.safe = { x.safe with
      arch := { x.arch with mem := x.arch.mem.store addr (split env.pf.bigEndian t.size v.toNat) }
      addr := addr } := by
  unfold writeSpecMem at h
  dsimp only at h
  rw [if_neg (by decide)] at h
  obtain ⟨p, hAccess, h⟩ := bind_eq_ok.mp h
  cases h
  obtain ⟨-, -, rfl⟩ := memAccess_write_ok hAccess
  refine ⟨memAccess_valid hAccess, rfl, ?_⟩
  unfold Exec.safe
  dsimp only
  rw [Temps.split_get_set]

/-- On the correct path an instruction does what it does in `sim-safe`. -/
theorem run_correct : ∀ {m : Micro Unit} {x x' : Exec env}, x.overlay.Clear →
    run cfg ld false inst pc m x = .ok x' →
    Safe.run env.pf ld inst pc m x.safe = .ok x'.safe ∧ x'.overlay = x.overlay := by
  intro m
  induction m with
  | ret a => intro x x' _ h; cases h; exact ⟨rfl, rfl⟩
  | get r k ih =>
    intro x x' hClear h
    have hNext := ih _ hClear h
    rw [Exec.get_of_clear hClear] at hNext
    exact hNext
  | use r k ih => intro x x' hClear h; exact ih hClear h
  | put r v k ih => 
    intro x x' hClear h
    exact @ih (x.put r v) x' hClear h
  | cpc k ih => intro x x' hClear h; exact ih _ hClear h
  | setNpc v k ih => intro x x' hClear h; exact @ih { x with nextPC := v } x' hClear h
  | setTpc v k ih => intro x x' hClear h; exact @ih { x with targetPC := v } x' hClear h
  | load t addr k ih =>
    intro x x' hClear h
    obtain ⟨r, hRead, h⟩ := bind_eq_ok.mp h
    obtain ⟨hValid, hVal, hOverlay, hSafe⟩ := readSpecMem_correct hRead
    have hNext := ih _ (by rw [hOverlay]; exact hClear) h
    rw [hOverlay, hSafe, hVal] at hNext
    refine ⟨?_, hNext.2⟩
    show (memValid ld .read addr t.size >>= _) = _
    rw [hValid]
    exact hNext.1
  | store t addr v k ih =>
    intro x x' hClear h
    obtain ⟨x₁, hWrite, h⟩ := bind_eq_ok.mp h
    obtain ⟨hValid, hOverlay, hSafe⟩ := writeSpecMem_correct hWrite
    have hNext := ih (by rw [hOverlay]; exact hClear) h
    rw [hOverlay, hSafe] at hNext
    refine ⟨?_, hNext.2⟩
    show (memValid ld .write addr t.size >>= _) = _
    rw [hValid]
    exact hNext.1
  | ifail msg k ih => intro x x' hClear h; cases h
  | syscall k ih =>
    intro x x' hClear h
    obtain ⟨r, hCall, h⟩ := bind_eq_ok.mp h
    have hNext := @ih { x with host := r.1, arch := r.2 } x' hClear h
    refine ⟨?_, hNext.2⟩
    show (ssSyscall env.pf ld inst x.host x.arch >>= _) = _
    rw [hCall]
    exact hNext.1
  | undefined => intro x x' hClear h; cases h

theorem readSpecMem_wrong {t : LoadKind} {addr : Word}
    (h : readSpecMem cfg ld true t addr x = .ok r) : r.2.arch = x.arch ∧ r.2.host = x.host := by
  obtain ⟨p, -, h⟩ := bind_eq_ok.mp h
  cases h
  exact ⟨rfl, rfl⟩

theorem writeSpecMem_wrong
    (h : writeSpecMem cfg ld true t addr v x = .ok x') : x'.arch = x.arch ∧ x'.host = x.host := by
  obtain ⟨p, -, h⟩ := bind_eq_ok.mp h
  cases h
  exact ⟨rfl, rfl⟩

/-- On the wrong path the architected state is left alone. -/
theorem run_wrong : ∀ {m : Micro Unit} {x x' : Exec env},
    run cfg ld true inst pc m x = .ok x' → x'.arch = x.arch ∧ x'.host = x.host := by
  intro m
  induction m with
  | ret a => intro x x' h; cases h; exact ⟨rfl, rfl⟩
  | get r k ih => intro x x' h; exact ih _ h
  | use r k ih => intro x x' h; exact @ih (x.use r) x' h
  | put r v k ih => intro x x' h; exact @ih (x.putSpec r v) x' h
  | cpc k ih => intro x x' h; exact ih _ h
  | setNpc v k ih => intro x x' h; exact @ih { x with nextPC := v } x' h
  | setTpc v k ih => intro x x' h; exact @ih { x with targetPC := v } x' h
  | load t addr k ih =>
    intro x x' h
    obtain ⟨r, hRead, h⟩ := bind_eq_ok.mp h
    obtain ⟨hArch, hHost⟩ := readSpecMem_wrong hRead
    exact ⟨(ih _ h).1.trans hArch, (ih _ h).2.trans hHost⟩
  | store t addr v k ih =>
    intro x x' h
    obtain ⟨x₁, hWrite, h⟩ := bind_eq_ok.mp h
    obtain ⟨hArch, hHost⟩ := writeSpecMem_wrong hWrite
    exact ⟨(ih h).1.trans hArch, (ih h).2.trans hHost⟩
  | ifail msg k ih => intro x x' h; exact ih h
  | syscall k ih => intro x x' h; cases h
  | undefined => intro x x' h; cases h

end

/-! ### The sequential machine -/

/-- The bytes below the data segment are the same. -/
def SameText (m m' : Mem) : Prop := ∀ a < Segments.dataBase, m' (Mem.index a) = m (Mem.index a)

theorem SameText.trans {m m' m'' : Mem} (h : SameText m m') (h' : SameText m' m'') : SameText m m'' :=
  fun a ha => (h' a ha).trans (h a ha)

variable {pf : Platform}

variable {inst : Inst} {pc : Word}

theorem safe_run_text : ∀ {m : Micro Unit}
    {x x' : Safe.Exec pf}, Safe.run pf ld inst pc m x = .ok x' → SameText x.arch.mem x'.arch.mem := by
  intro m
  induction m with
  | ret a => intro x x' h; cases h; exact fun _ _ => rfl
  | get r k ih => intro x x' h; exact ih _ h
  | use r k ih => intro x x' h; exact ih h
  | put r v k ih => intro x x' h; exact @ih { x with arch := x.arch.setReg r v } x' h
  | cpc k ih => intro x x' h; exact ih _ h
  | setNpc v k ih => intro x x' h; exact @ih { x with nextPC := v } x' h
  | setTpc v k ih => intro x x' h; exact ih h
  | load t addr k ih =>
    intro x x' h
    obtain ⟨_, _, h⟩ := bind_eq_ok.mp h
    exact @ih _ { x with addr := addr } x' h
  | store t addr v k ih =>
    intro x x' h
    obtain ⟨_, hValid, h⟩ := bind_eq_ok.mp h
    obtain ⟨hAlign, hPerm⟩ := memValid_ok_iff.mp hValid
    have hLen : (split pf.bigEndian t.size v.toNat).length = t.size := by
      unfold split
      dsimp only
      split <;> simp
    refine SameText.trans (fun a ha => text_store ?_ ?_ ha) (ih h)
    · rw [hLen]
      exact hAlign
    · simpa [memPermitted] using hPerm
  | ifail msg k ih => intro x x' h; cases h
  | syscall k ih =>
    intro x x' h
    obtain ⟨r, hCall, h⟩ := bind_eq_ok.mp h
    exact SameText.trans (fun a ha => ssSyscall_text hCall ha) (ih h)
  | undefined => intro x x' h; cases h

/-- The record is that of an instruction executed in state `st`. -/
structure Runs (ld : Segments) (st : Safe.State env.pf) (r : TraceRec env) : Prop where
  PC : r.PC = st.regsPC
  before : r.before = st.arch.zeroR0
  hostBefore : r.hostBefore = st.host
  run : ∃ op addr, r.IR.decode = some op ∧ Safe.run env.pf ld r.IR r.PC (op.expr (engine env) r.IR)
    ⟨r.before, r.hostBefore, 0, r.PC + 8⟩ = .ok ⟨r.after, r.hostAfter, addr, r.nextPC⟩

/-- The state that an instruction leaves. -/
def TraceRec.next (r : TraceRec env) : Safe.State env.pf := ⟨r.after, r.hostAfter, r.nextPC, r.nextPC + 8⟩

/-- Instructions executed one after the other. -/
inductive Sequential (ld : Segments) (st : Safe.State env.pf) :
    List (TraceRec env) → Safe.State env.pf → Prop where
  | nil : Sequential ld st [] st
  | snoc {tr : List (TraceRec env)} {st' : Safe.State env.pf} {r : TraceRec env}
      (h : Sequential ld st tr st') (hr : Runs ld st' r) : Sequential ld st (tr ++ [r]) r.next

variable {st : Safe.State env.pf} {r : TraceRec env}

theorem Runs.text (h : Runs ld st r) :
    SameText st.arch.mem r.after.mem := by
  obtain ⟨op, addr, -, hRun⟩ := h.run
  have hText := safe_run_text hRun
  rw [h.before] at hText
  exact hText

variable {tr : List (TraceRec env)}

variable {st st' : Safe.State env.pf}

theorem Sequential.text (h : Sequential ld st tr st') : SameText st.arch.mem st'.arch.mem := by
  induction h with
  | nil => exact fun _ _ => rfl
  | snoc _ hr ih => exact ih.trans hr.text

/-- Instruction `i` is executed in the state that those before it lead to. -/
theorem Sequential.take (h : Sequential ld st tr st') {i : Nat} (hr : tr[i]? = some r) :
    ∃ st₁, Sequential ld st (tr.take i) st₁ ∧ Runs ld st₁ r ∧ i < tr.length := by
  induction h with
  | nil => cases hr
  | @snoc tr st' r' hSeq hRuns ih =>
    rcases Nat.lt_trichotomy i tr.length with hLt | rfl | hGt
    · rw [List.getElem?_append_left hLt] at hr
      obtain ⟨st₁, hTake, hRuns₁, -⟩ := ih hr
      refine ⟨st₁, ?_, hRuns₁, by rw [List.length_append]; omega⟩
      rw [List.take_append_of_le_length hLt.le]
      exact hTake
    · rw [List.getElem?_concat_length] at hr
      cases hr
      refine ⟨st', ?_, hRuns, by rw [List.length_append]; exact Nat.lt_succ_self _⟩
      rw [List.take_left]
      exact hSeq
    · rw [List.getElem?_eq_none (by rw [List.length_append]; exact hGt)] at hr
      cases hr

/-- There is no text at the address, or none that can be written. -/
def Fixed (ld : Segments) (pc : Word) : Prop := fetchable ld pc = true → pc < Segments.dataBase

theorem instAt_congr {m m' : Mem} (h : SameText m m') (hFixed : Fixed ld pc) :
    instAt pf ld m' pc = instAt pf ld m pc := by
  unfold instAt
  split
  · rename_i hFetch
    have hBytes : m'.bytes pc 8 = m.bytes pc 8 := by
      refine List.map_congr_left fun i hi => h _ ?_
      have hLow : pc.toNat % 8 = 0 := by
        simp only [fetchable, Bool.and_eq_true, decide_eq_true_eq] at hFetch
        have hNat := congrArg BitVec.toNat hFetch.2
        rwa [BitVec.toNat_and, show (7#32).toNat = 2 ^ 3 - 1 from rfl, Nat.and_two_pow_sub_one_eq_mod] at hNat
      have hPc := hFixed hFetch
      have hLt := List.mem_range.mp hi
      simp only [Segments.dataBase, BitVec.lt_def, BitVec.toNat_add, BitVec.toNat_ofNat] at hPc ⊢
      omega
    rw [hBytes]
  · rfl

/-! ### The fetch queue -/

namespace Front

variable {f f' : Front env}

/-- The records of the fetch queue, oldest first. -/
def queue (cfg : Config) (f : Front env) : List (FetchRec env) :=
  (CircularQueue.slots cfg.ruuIfqSize f.fetchHead f.fetchNum).map f.fetchData

end Front

theorem Config.ifq_mask (cfg : Config) (x : Nat) : x &&& (cfg.ruuIfqSize - 1) = x % cfg.ruuIfqSize := by
  have hPos := cfg.ifq_pos
  exact CircularQueue.and_pred_eq_mod
    ((Nat.and_sub_one_eq_zero_iff_isPowerOfTwo (by omega)).mp cfg.ifq_pow) x

/-- The indices of the fetch queue. -/
structure FetchInv (cfg : Config) (f : Front env) : Prop where
  head : f.fetchHead < cfg.ruuIfqSize
  tail : f.fetchTail = (f.fetchHead + f.fetchNum) % cfg.ruuIfqSize
  num : f.fetchNum ≤ cfg.ruuIfqSize

namespace FetchInv

variable {f f' : Front env}

/-- An empty queue. -/
theorem empty (hHead : f.fetchHead = 0) (hTail : f.fetchTail = 0) (hNum : f.fetchNum = 0) :
    FetchInv cfg f ∧ f.queue cfg = [] := by
  have hPos := cfg.ifq_pos
  refine ⟨⟨?_, ?_, ?_⟩, ?_⟩
  · omega
  · rw [hHead, hTail, hNum, Nat.zero_mod]
  · omega
  · rw [Front.queue, hNum]
    rfl

theorem consume (h : FetchInv cfg f) (hNum : f.fetchNum ≠ 0) :
    FetchInv cfg (f.consume cfg) ∧ f.queue cfg = f.fetchData f.fetchHead :: (f.consume cfg).queue cfg := by
  obtain ⟨n, hn⟩ := Nat.exists_eq_succ_of_ne_zero hNum
  have hPos := cfg.ifq_pos
  have hLe := h.num
  have hHead : (f.consume cfg).fetchHead = (f.fetchHead + 1) % cfg.ruuIfqSize := cfg.ifq_mask _
  have hNum' : (f.consume cfg).fetchNum = n := by
    show f.fetchNum - 1 = n
    omega
  refine ⟨⟨?_, ?_, ?_⟩, ?_⟩
  · rw [hHead]
    exact Nat.mod_lt _ (by omega)
  · rw [hHead, hNum', CircularQueue.tail_pop]
    show f.fetchTail = _
    rw [h.tail, hn]
  · omega
  · unfold Front.queue
    rw [hHead, hNum', hn, CircularQueue.slots_succ_left, Nat.mod_eq_of_lt h.head]
    rfl

theorem push (h : FetchInv cfg f) (hRoom : f.fetchNum < cfg.ruuIfqSize) {r : FetchRec env}
    (hData : f'.fetchData = Function.update f.fetchData f.fetchTail r)
    (hTail : f'.fetchTail = (f.fetchTail + 1) &&& (cfg.ruuIfqSize - 1))
    (hNum : f'.fetchNum = f.fetchNum + 1) (hHead : f'.fetchHead = f.fetchHead) :
    FetchInv cfg f' ∧ f'.queue cfg = f.queue cfg ++ [r] := by
  refine ⟨⟨?_, ?_, ?_⟩, ?_⟩
  · rw [hHead]
    exact h.head
  · rw [hTail, hHead, hNum, cfg.ifq_mask, h.tail, CircularQueue.tail_succ]
  · omega
  · unfold Front.queue
    rw [hNum, hHead, hData, CircularQueue.slots_succ_right, List.map_append, h.tail]
    refine congrArg₂ _ (List.map_congr_left fun i hi => ?_) ?_
    · refine Function.update_of_ne ?_ _ _
      rintro rfl
      exact CircularQueue.tail_not_mem_slots hRoom hi
    · rw [List.map_singleton, Function.update_self]

end FetchInv

/-- Each record is where the one before it was predicted to lead. -/
def Chain : Word → List (FetchRec env) → Word → Prop
  | pc, [], next => next = pc
  | pc, r :: rs, next => r.regsPC = pc ∧ Chain r.predPC rs next

theorem Chain.push {rs : List (FetchRec env)} {r : FetchRec env} : ∀ {pc : Word},
    Chain pc rs r.regsPC → Chain pc (rs ++ [r]) r.predPC := by
  induction rs with
  | nil => intro pc h; exact ⟨h, rfl⟩
  | cons r' rs ih => intro pc h; exact ⟨h.1, ih h.2⟩

/-! ### The invariant -/

/-- The instruction at an address of the text segment. -/
def FromText (pf : Platform) (img : Image) (pc : Word) (inst : Inst) : Prop :=
  Fixed img.ld pc → inst = instAt pf img.ld img.arch.mem pc

/-- What the front end stands for: a state that the trace leads to. -/
structure Follows (cfg : Config) (img : Image) (f : Front env) : Prop where
  fetch : FetchInv cfg f
  queue : ∀ r ∈ f.queue cfg, FromText env.pf img r.regsPC r.IR
  trace : ∀ r ∈ f.trace, FromText env.pf img r.PC r.IR
  mode : f.specMode = true → f.trace ≠ []
  now : ∃ st, Sequential img.ld (Safe.init env.pf img env.host) f.trace st ∧
    st.arch.zeroR0 = f.arch.zeroR0 ∧ st.host = f.host ∧
    if f.specMode then f.recoverPC = st.regsPC
    else f.overlay.Clear ∧ Chain st.regsPC (f.queue cfg) f.fetchPredPC

variable {img : Image}

theorem Follows.text {f : Front env} (h : Follows cfg img f) :
    SameText img.arch.mem f.arch.mem := by
  obtain ⟨st, hSeq, hArch, -⟩ := h.now
  have hText := hSeq.text
  have hMem : st.arch.zeroR0.mem = f.arch.zeroR0.mem := congrArg Arch.mem hArch
  rw [Arch.zeroR0_mem, Arch.zeroR0_mem] at hMem
  rw [hMem] at hText
  exact hText

/-! ### Dispatch -/

/-- The fetch queue after an instruction has been executed and consumed: it is empty after a
redirection, and the rest of the queue otherwise. -/
theorem executed_queue {s : State env} (h : FetchInv cfg s.front) (hNum : s.fetchNum ≠ 0) (op : Opcode)
    (x : Exec env) (redirected : Bool)
    (hRed : redirected = redirects cfg op x { s with arch := x.arch, host := x.host, overlay := x.overlay }) :
    let f := (executed cfg op x s).front
    FetchInv cfg (f.consume cfg) ∧
      (redirected = true → f.fetchPredPC = x.nextPC ∧ (f.consume cfg).queue cfg = [] ∧
        (f.consume cfg).fetchNum = 0) ∧
      (redirected = false → f.fetchPredPC = s.fetchPredPC ∧ f.predPC = s.predPC ∧
        s.front.queue cfg = s.fetchData s.fetchHead :: (f.consume cfg).queue cfg) := by
  intro f
  cases hOn : redirected with
  | true =>
    have hf : f = (redirect cfg x.nextPC { s with
        arch := x.arch, host := x.host, overlay := x.overlay }).front :=
      congrArg State.front (if_pos (hRed.symm.trans hOn))
    have hHead : (f.consume cfg).fetchHead = 0 := by
      have hPos := cfg.ifq_pos
      rw [hf]
      show (cfg.ruuIfqSize - 1 + 1) &&& (cfg.ruuIfqSize - 1) = 0
      rw [cfg.ifq_mask, Nat.sub_add_cancel hPos, Nat.mod_self]
    have hNum' : (f.consume cfg).fetchNum = 0 := by
      rw [hf]
      rfl
    obtain ⟨hInv, hQueue⟩ := @FetchInv.empty env cfg (f.consume cfg) hHead (by rw [hf]; rfl) hNum'
    exact ⟨hInv, fun _ => ⟨by rw [hf]; rfl, hQueue, hNum'⟩, fun hOff => by cases hOff⟩
  | false =>
    have hf : f = State.front { s with arch := x.arch, host := x.host, overlay := x.overlay } :=
      congrArg State.front (if_neg (by rw [← hRed, hOn]; decide))
    obtain ⟨hInv, hQueue⟩ := h.consume hNum
    have hInv' : FetchInv cfg (f.consume cfg) := by
      rw [hf]
      exact ⟨hInv.head, hInv.tail, hInv.num⟩
    refine ⟨hInv', fun hOn => (by cases hOn), fun _ => ⟨by rw [hf]; rfl, by rw [hf]; rfl, ?_⟩⟩
    rw [hQueue, hf]
    rfl

theorem executed_state (s : State env) (op : Opcode) (x : Exec env) :
    let f := (executed cfg op x s).front
    f.arch = x.arch ∧ f.host = x.host ∧ f.overlay = x.overlay ∧ f.trace = s.trace ∧
      f.specMode = s.specMode ∧ f.recoverPC = s.recoverPC := by
  unfold executed
  split <;> exact ⟨rfl, rfl, rfl, rfl, rfl, rfl⟩

section

variable {img : Image} {s : State env} {d : DispatchLocals}

variable {op : Opcode}

/-- The head of the queue on the correct path is executed where the trace has led to. -/
theorem Follows.head_step (h : Follows cfg img s.front) (hOff : s.specMode = false)
    (hNum : s.fetchNum ≠ 0)
    (hOp : (s.fetchData s.fetchHead).IR.decode = some op)
    (hExec : execInst cfg img.ld (s.fetchData s.fetchHead).IR op d (atHead s) = .ok x) :
    ∃ st, Sequential img.ld (Safe.init env.pf img env.host) s.trace st ∧
      Runs img.ld st ⟨(s.fetchData s.fetchHead).regsPC, (s.fetchData s.fetchHead).IR, x.nextPC,
        s.arch.zeroR0, s.host, x.arch, x.host⟩ ∧ x.overlay.Clear ∧
      Chain (s.fetchData s.fetchHead).predPC ((s.front.consume cfg).queue cfg) s.fetchPredPC := by
  obtain ⟨st, hSeq, hArch, hHost, hNow⟩ := h.now
  have hNow : s.overlay.Clear ∧ Chain st.regsPC (s.front.queue cfg) s.fetchPredPC := by
    rw [if_neg (by rw [show s.front.specMode = false from hOff]; decide)] at hNow
    exact hNow
  obtain ⟨-, hQueue⟩ := h.fetch.consume hNum
  rw [hQueue] at hNow
  obtain ⟨hClear, hPC, hChain⟩ := hNow
  unfold execInst at hExec
  rw [show (atHead s).specMode = false from hOff] at hExec
  obtain ⟨hSafe, hOverlay⟩ := run_correct hClear hExec
  refine ⟨st, hSeq, ⟨hPC, hArch.symm, hHost.symm, op, x.addr, hOp, hSafe⟩, ?_, hChain⟩
  rw [hOverlay]
  exact hClear

/-- On the wrong path only `$0` can change. -/
theorem execInst_wrong (hOn : s.specMode = true)
    (hExec : execInst cfg ld inst op d s = .ok x) : x.arch = s.arch.zeroR0 ∧ x.host = s.host := by
  unfold execInst at hExec
  rw [hOn] at hExec
  exact run_wrong hExec

theorem Front.traced_consume (f : Front env) (r : TraceRec env) (ds : List Dispatch) (mis : Bool) :
    let f' := (f.traced r ds mis).consume cfg
    f'.fetchHead = (f.consume cfg).fetchHead ∧ f'.fetchTail = f.fetchTail ∧
      f'.fetchNum = (f.consume cfg).fetchNum ∧ f'.queue cfg = (f.consume cfg).queue cfg ∧
      f'.fetchPredPC = f.fetchPredPC ∧ f'.arch = f.arch ∧ f'.host = f.host ∧ f'.overlay = f.overlay := by
  unfold Front.traced
  split <;> exact ⟨rfl, rfl, rfl, rfl, rfl, rfl, rfl, rfl⟩

/-- An instruction of the wrong path. -/
theorem Follows.of_wrong {f f' : Front env} (h : Follows cfg img f) (hOn : f.specMode = true)
    (hOn' : f'.specMode = true) (hTrace : f'.trace = f.trace) (hRecover : f'.recoverPC = f.recoverPC)
    (hArch : f'.arch = f.arch.zeroR0) (hHost : f'.host = f.host) (hFetch : FetchInv cfg f')
    (hQueue : ∀ r ∈ f'.queue cfg, FromText env.pf img r.regsPC r.IR) : Follows cfg img f' := by
  obtain ⟨st, hSeq, hStArch, hStHost, hNow⟩ := h.now
  rw [if_pos hOn] at hNow
  refine ⟨hFetch, hQueue, ?_, fun _ => ?_, st, ?_, ?_, ?_, ?_⟩
  · rw [hTrace]
    exact h.trace
  · rw [hTrace]
    exact h.mode hOn
  · rw [hTrace]
    exact hSeq
  · rw [hArch, Arch.zeroR0_zeroR0]
    exact hStArch
  · rw [hHost]
    exact hStHost
  · rw [if_pos hOn', hRecover]
    exact hNow

theorem Follows.dispatch {p : Option DispatchLocals × State env} (h : Follows cfg img s.front)
    (hEmpty : d.fetchRedirected = true → s.fetchNum = 0) (hStep : DispatchStep cfg img.ld d s p) :
    Follows cfg img p.2.front ∧ ((p.1.getD d).fetchRedirected = true → p.2.fetchNum = 0) := by
  cases hStep with
  | stop => exact ⟨h, hEmpty⟩
  | wait => exact ⟨⟨⟨h.fetch.head, h.fetch.tail, h.fetch.num⟩, h.queue, h.trace, h.mode, h.now⟩, hEmpty⟩
  | @inst op x d' s₁ s₂ s' ds hRuu hLsq hNum hGo hOp hTrap hExec hs₁ hAlloc hRecord hRedirected hDispatched
      hFront =>
    subst hs₁
    have hFirst : d.fetchRedirected = false := by
      by_contra hNot
      exact hNum (hEmpty (by simpa using hNot))
    rw [hFirst, Bool.false_or] at hRedirected
    have hInv : FetchInv cfg (atHead s).front := ⟨h.fetch.head, h.fetch.tail, h.fetch.num⟩
    obtain ⟨hFetch, hRed, hStay⟩ := executed_queue hInv hNum (dispatchOp op) x _ hRedirected
    obtain ⟨hArch, hHost, hOverlay, hTrace, hSpec, hRecover⟩ := executed_state (atHead s) (dispatchOp op) x
    obtain ⟨hHead', hTail', hNum', hQueue', hPred', hArch', hHost', hOverlay'⟩ :=
      Front.traced_consume (executed cfg (dispatchOp op) x (atHead s)).front _ ds _
    rw [← hFront] at hHead' hTail' hNum' hQueue' hPred' hArch' hHost' hOverlay'
    obtain ⟨-, hCons⟩ := h.fetch.consume hNum
    -- what is left of the queue was in it before
    have hText : ∀ r ∈ s'.front.queue cfg, FromText env.pf img r.regsPC r.IR := by
      intro r hr
      rw [hQueue'] at hr
      refine h.queue r ?_
      cases hOn : d'.fetchRedirected with
      | true => rw [(hRed hOn).2.1] at hr; cases hr
      | false =>
        show r ∈ (atHead s).front.queue cfg
        rw [(hStay hOn).2.2]
        exact List.mem_cons_of_mem _ hr
    have hFetch' : FetchInv cfg s'.front := by
      refine ⟨?_, ?_, ?_⟩
      · rw [hHead']
        exact hFetch.head
      · rw [hTail', hHead', hNum']
        exact hFetch.tail
      · rw [hNum']
        exact hFetch.num
    refine ⟨?_, fun hOn => hNum'.trans (hRed hOn).2.2⟩
    cases hMode : s.specMode with
    | true =>
      obtain ⟨hSame, hSameHost⟩ := execInst_wrong (s := atHead s) hMode hExec
      rw [Front.traced, if_pos (hSpec.trans hMode)] at hFront
      refine h.of_wrong hMode ?_ ?_ ?_ (hArch'.trans (hArch.trans hSame))
        (hHost'.trans (hHost.trans hSameHost)) hFetch' hText <;> rw [hFront]
      · exact hSpec.trans hMode
      · exact hTrace
      · exact hRecover
    | false =>
      obtain ⟨st, hSeq, hRuns, hClear, hChain⟩ := h.head_step hMode hNum hOp hExec
      have hOff : ¬(executed cfg (dispatchOp op) x (atHead s)).front.specMode = true := by
        rw [hSpec]
        simp [atHead, hMode]
      rw [Front.traced, if_neg hOff] at hFront
      have hTrace' : s'.front.trace = s.trace ++ [⟨(s.fetchData s.fetchHead).regsPC,
          (s.fetchData s.fetchHead).IR, x.nextPC, s.arch.zeroR0, s.host, x.arch, x.host⟩] := by
        rw [hFront]
        exact congrArg (· ++ _) hTrace
      refine ⟨hFetch', hText, fun r hr => ?_, fun _ => by rw [hTrace']; simp,
        ⟨x.arch, x.host, x.nextPC, x.nextPC + 8⟩, ?_, ?_, ?_, ?_⟩
      · rw [hTrace', List.mem_append, List.mem_singleton] at hr
        rcases hr with hr | rfl
        · exact h.trace r hr
        · exact h.queue (s.fetchData s.fetchHead) (by rw [hCons]; exact List.mem_cons_self)
      · rw [hTrace']
        exact hSeq.snoc hRuns
      · rw [hArch', hArch]
      · rw [hHost', hHost]
      · show if s'.front.specMode = true then s'.front.recoverPC = x.nextPC
          else s'.front.overlay.Clear ∧ Chain x.nextPC (s'.front.queue cfg) s'.front.fetchPredPC
        cases hMis : (decide ((executed cfg (dispatchOp op) x (atHead s)).predPC ≠ x.nextPC) &&
          !d'.fetchRedirected) with
        | true =>
          rw [hFront, hMis]
          rfl
        | false =>
          have hMode' : s'.front.specMode = false := by rw [hFront]; exact hMis
          rw [hMode', if_neg (by decide), hOverlay', hOverlay, hQueue', hPred']
          refine ⟨hClear, ?_⟩
          cases hOn : d'.fetchRedirected with
          | true =>
            obtain ⟨hNext, hNil, -⟩ := hRed hOn
            rw [hNil, hNext]
            rfl
          | false =>
            obtain ⟨hNext, hPredPC, hRest⟩ := hStay hOn
            rw [hOn, Bool.not_false, Bool.and_true, decide_eq_false_iff_not, not_not] at hMis
            have hPredPC : (executed cfg (dispatchOp op) x (atHead s)).predPC =
              (s.fetchData s.fetchHead).predPC := hPredPC
            rw [← (List.cons.inj (hCons.symm.trans hRest)).2, hNext, ← hMis, hPredPC]
            exact hChain

/-! ### The other stages -/

theorem Follows.fetchPush (h : Follows cfg img s.front) {r : FetchRec env} {pred : env.Pred}
    {caches : env.Caches} (hRoom : s.fetchNum < cfg.ruuIfqSize) (hPC : r.regsPC = s.fetchPredPC)
    (hIR : r.IR = instAt env.pf img.ld s.arch.mem s.fetchPredPC) :
    Follows cfg img (fetched cfg r pred caches s).front := by
  obtain ⟨hFetch, hQueue⟩ := @FetchInv.push env cfg s.front (fetched cfg r pred caches s).front h.fetch hRoom r
    rfl rfl rfl rfl
  refine ⟨hFetch, fun r' hr' hFixed => ?_, h.trace, h.mode, ?_⟩
  · rw [hQueue, List.mem_append, List.mem_singleton] at hr'
    rcases hr' with hr' | rfl
    · exact h.queue r' hr' hFixed
    · rw [hIR, ← hPC]
      exact instAt_congr h.text hFixed
  · obtain ⟨st, hSeq, hArch, hHost, hNow⟩ := h.now
    refine ⟨st, hSeq, hArch, hHost, ?_⟩
    show if s.specMode then s.recoverPC = st.regsPC else s.overlay.Clear ∧ Chain st.regsPC _ r.predPC
    change if s.specMode then s.recoverPC = st.regsPC else s.overlay.Clear ∧
      Chain st.regsPC (s.front.queue cfg) s.fetchPredPC at hNow
    split
    · rw [if_pos ‹_›] at hNow
      exact hNow
    · rw [if_neg ‹_›] at hNow
      rw [hQueue]
      refine ⟨hNow.1, Chain.push ?_⟩
      rw [hPC]
      exact hNow.2

theorem Follows.restart {f : Front env} (h : Follows cfg img f) (hOn : f.specMode = true) :
    Follows cfg img (f.restart cfg) := by
  obtain ⟨hFetch, hQueue⟩ := @FetchInv.empty env cfg (f.restart cfg) rfl rfl rfl
  obtain ⟨st, hSeq, hArch, hHost, hNow⟩ := h.now
  rw [if_pos hOn] at hNow
  refine ⟨hFetch, fun r hr => ?_, h.trace, fun hOff => (by cases hOff), st, hSeq, hArch, hHost, ?_⟩
  · rw [hQueue] at hr
    cases hr
  · rw [hQueue]
    exact ⟨fun _ => rfl, hNow⟩

theorem Follows.init : Follows cfg img (init env img).front := by
  obtain ⟨hFetch, hQueue⟩ := @FetchInv.empty env cfg (Outorder.init env img).front rfl rfl rfl
  refine ⟨hFetch, fun r hr => ?_, fun r hr => ?_, fun hOff => (by cases hOff), _, .nil, rfl, rfl,
    fun _ => rfl, ?_⟩
  · rw [hQueue] at hr
    cases hr
  · cases hr
  · rw [hQueue]
    rfl

theorem follows_reachable (h : Reachable cfg img s) : Follows cfg img s.front := by
  induction h with
  | init => exact Follows.init
  | @step s s' st hs hRun ih =>
    have hBase := base_reachable hs
    cases st with
    | sanity =>
      rw [sanity_frame.of_ok hRun]
      exact ih
    | commit =>
      rw [((ruuCommit_frame hBase).of_ok hRun).2.front]
      exact ih
    | releaseFu => cases hRun; exact ih
    | writeback =>
      obtain ⟨-, -, hSame | ⟨hOn, hRestart⟩⟩ := ruuWriteback_frame.of_ok hRun
      · rw [hSame]
        exact ih
      · rw [hRestart]
        exact ih.restart hOn
    | refresh =>
      rw [(lsqRefresh_frame.of_ok hRun).1]
      exact ih
    | issue =>
      rw [(ruuIssue_frame.of_ok hRun).1]
      exact ih
    | dispatch =>
      have hKeeps : Keeps AnyCheck (ruuDispatch cfg img.ld s) fun s' => Base cfg {} s' ∧
          ∃ d : DispatchLocals, Follows cfg img s'.front ∧ (d.fetchRedirected = true → s'.fetchNum = 0) :=
        ruuDispatch_base trivial hBase ⟨ih, fun hOn => by cases hOn⟩
          fun d s p _ _ hI hStep => hI.1.dispatch hI.2 hStep
      obtain ⟨-, d, hFollows, -⟩ := hKeeps.of_ok hRun
      exact hFollows
    | fetch =>
      have hKeeps : Keeps AnyCheck (fetchStage cfg img.ld s) fun s' => Follows cfg img s'.front :=
        fetchStage_keeps ih
          (fun s delay h => ⟨⟨h.fetch.head, h.fetch.tail, h.fetch.num⟩, h.queue, h.trace, h.mode, h.now⟩)
          (fun s caches delay h _ => ⟨⟨h.fetch.head, h.fetch.tail, h.fetch.num⟩, h.queue, h.trace, h.mode, h.now⟩)
          fun s r pred caches h _ hRoom hPC hIR => h.fetchPush hRoom hPC hIR
      exact hKeeps.of_ok hRun
    | tick => cases hRun; exact ih

end

/-! ### `sim-safe` -/

/-- What is assumed of a program: its instructions are aligned and inside the text segment, which
ends where the data segment begins, and their opcodes are valid. -/
def Proper (pf : Platform) (img : Image) (host : pf.Host) : Prop :=
  ∀ n st, Safe.runN pf img host n = .ok st → fetchable img.ld st.regsPC = true ∧
    st.regsPC < Segments.dataBase ∧
    ∃ op, (Safe.fetch pf.bigEndian st.arch.mem st.regsPC).decode = some op ∧ op ≠ .op_na

theorem safe_nextPC {host : pf.Host} : ∀ {n : Nat} {st : Safe.State pf},
    Safe.runN pf img host n = .ok st → st.nextPC = st.regsPC + 8 := by
  intro n
  cases n with
  | zero => intro st h; cases h; rfl
  | succ n =>
    intro st h
    obtain ⟨st₀, -, h⟩ := bind_eq_ok.mp h
    unfold Safe.step at h
    dsimp only at h
    split at h
    · cases h
    · cases h
    · obtain ⟨x, -, h⟩ := bind_eq_ok.mp h
      cases h
      rfl

/-- An instruction of a program is the one at its address. -/
theorem Runs.fetch
    (hr : Runs img.ld st r) (hSeq : Sequential img.ld (Safe.init env.pf img env.host) tr st)
    (hFetch : fetchable img.ld st.regsPC = true) (hLow : st.regsPC < Segments.dataBase)
    (hFrom : FromText env.pf img r.PC r.IR) :
    r.IR = Safe.fetch env.pf.bigEndian st.arch.mem st.regsPC := by
  have hFixed : Fixed img.ld st.regsPC := fun _ => hLow
  have hSame : instAt env.pf img.ld st.arch.mem st.regsPC = instAt env.pf img.ld img.arch.mem st.regsPC :=
    instAt_congr hSeq.text hFixed
  rw [hr.PC] at hFrom
  rw [hFrom hFixed, ← hSame, instAt, if_pos hFetch]
  rfl

/-- The sequential execution of a program is that of `sim-safe`. -/
theorem Sequential.safe (h : Sequential img.ld (Safe.init env.pf img env.host) tr st)
    (hProper : Proper env.pf img env.host) (hFloat : SameFloat env.pf.fpu)
    (hText : ∀ r ∈ tr, FromText env.pf img r.PC r.IR) :
    Safe.runN env.pf img env.host tr.length = .ok st := by
  induction h with
  | nil => rfl
  | @snoc tr st' r hSeq hr ih =>
    have hRun := ih fun r hr => hText r (List.mem_append_left _ hr)
    obtain ⟨hFetch, hLow, op, hOp, hValid⟩ := hProper _ _ hRun
    have hIR := hr.fetch hSeq hFetch hLow (hText r (by simp))
    obtain ⟨op', addr, hOp', hExec⟩ := hr.run
    rw [hIR, hOp] at hOp'
    cases hOp'
    rw [List.length_append]
    show (Safe.runN env.pf img env.host tr.length >>= fun s => Safe.step env.pf img.ld s) = _
    rw [hRun]
    show Safe.step env.pf img.ld st' = _
    unfold Safe.step
    dsimp only
    rw [show Safe.fetch env.pf.bigEndian st'.arch.zeroR0.mem st'.regsPC = r.IR from hIR.symm]
    have hStep : Safe.run env.pf img.ld r.IR st'.regsPC (op.expr (Safe.engine env.pf) r.IR)
        { arch := st'.arch.zeroR0, host := st'.host, addr := 0, nextPC := st'.nextPC } =
        .ok ⟨r.after, r.hostAfter, addr, r.nextPC⟩ := by
      rw [safe_nextPC hRun, ← hr.PC, ← hr.before, ← hr.hostBefore]
      exact (run_engine hFloat _ _ _ _ _).symm.trans hExec
    rw [← hIR] at hOp
    rw [hOp]
    cases op with
    | op_na => exact absurd rfl hValid
    | _ =>
      dsimp only
      rw [hStep]
      rfl

/-! ### The correct path -/

/-- **The correct path is the sequential execution.**  Instruction `i` of the trace is that of
`sim-safe`, and it finds and leaves the same state. -/
theorem correct_path {img : Image} {s : State env} (hProper : Proper env.pf img env.host)
    (hFloat : SameFloat env.pf.fpu) (h : Reachable cfg img s) :
    (∀ i r, s.trace[i]? = some r → ∃ st st', Safe.runN env.pf img env.host i = .ok st ∧
      Safe.runN env.pf img env.host (i + 1) = .ok st' ∧ r.PC = st.regsPC ∧ r.nextPC = st'.regsPC ∧
      r.IR = Safe.fetch env.pf.bigEndian st.arch.mem st.regsPC ∧
      r.before = st.arch.zeroR0 ∧ r.hostBefore = st.host ∧ r.after = st'.arch ∧
      r.hostAfter = st'.host) ∧
    (∀ r, s.trace[0]? = some r → r.PC = img.ld.progEntry) ∧
    ∀ i r r', s.trace[i]? = some r → s.trace[i + 1]? = some r' → r'.PC = r.nextPC := by
  have hFollows := follows_reachable h
  obtain ⟨st, hSeq, -⟩ := hFollows.now
  have hSeq : Sequential img.ld (Safe.init env.pf img env.host) s.trace st := hSeq
  have hTrace : ∀ i r, s.trace[i]? = some r → ∃ st st', Safe.runN env.pf img env.host i = .ok st ∧
      Safe.runN env.pf img env.host (i + 1) = .ok st' ∧ r.PC = st.regsPC ∧ r.nextPC = st'.regsPC ∧
      r.IR = Safe.fetch env.pf.bigEndian st.arch.mem st.regsPC ∧
      r.before = st.arch.zeroR0 ∧ r.hostBefore = st.host ∧ r.after = st'.arch ∧
      r.hostAfter = st'.host := by
    intro i r hr
    obtain ⟨st₁, hTake, hRuns, hLt⟩ := hSeq.take hr
    have hFrom : FromText env.pf img r.PC r.IR := hFollows.trace r (List.mem_of_getElem? hr)
    have hText : ∀ r' ∈ s.trace.take i ++ [r], FromText env.pf img r'.PC r'.IR := by
      intro r' hr'
      rw [List.mem_append, List.mem_singleton] at hr'
      rcases hr' with hr' | rfl
      · exact hFollows.trace r' (List.mem_of_mem_take hr')
      · exact hFrom
    have hLen : (s.trace.take i).length = i := List.length_take_of_le hLt.le
    have hRun := hTake.safe hProper hFloat fun r' hr' => hText r' (List.mem_append_left _ hr')
    have hNext := (hTake.snoc hRuns).safe hProper hFloat hText
    rw [hLen] at hRun
    rw [List.length_append, hLen] at hNext
    obtain ⟨hFetch, hLow, -⟩ := hProper i st₁ hRun
    exact ⟨st₁, r.next, hRun, hNext, hRuns.PC, rfl, hRuns.fetch hTake hFetch hLow hFrom, hRuns.before,
      hRuns.hostBefore, rfl, rfl⟩
  refine ⟨hTrace, fun r hr => ?_, fun i r r' hr hr' => ?_⟩
  · obtain ⟨st, -, hRun, -, hPC, -⟩ := hTrace 0 r hr
    cases hRun
    exact hPC
  · obtain ⟨st, st', hRun, hNext, -, hPC, -⟩ := hTrace i r hr
    obtain ⟨st₁, -, hRun', -, hPC', -⟩ := hTrace (i + 1) r' hr'
    rw [hNext] at hRun'
    cases hRun'
    rw [hPC, hPC']

/-- A jump to itself. -/
def selfLoop : Image := Image.ofInsts [⟨2, 0x100000⟩]

theorem selfLoop_proper : Proper Platform.bare selfLoop () := by
  have hLoop : ∀ n st, Safe.runN Platform.bare selfLoop () n = .ok st →
      st.arch.mem = selfLoop.arch.mem ∧ st.regsPC = Segments.textBase := by
    intro n
    induction n with
    | zero => intro st h; cases h; exact ⟨rfl, rfl⟩
    | succ n ih =>
      intro st h
      obtain ⟨s, hs, hStep⟩ := bind_eq_ok.mp h
      obtain ⟨hMem, hPC⟩ := ih s hs
      have hFetch : Safe.fetch false s.arch.zeroR0.mem s.regsPC = ⟨2, 0x100000⟩ := by
        rw [Arch.zeroR0_mem, hMem, hPC]
        decide +kernel
      have hNext : Safe.step Platform.bare selfLoop.ld s =
          .ok ⟨s.arch.zeroR0, s.host, jumpTarget s.regsPC ⟨2, 0x100000⟩,
            jumpTarget s.regsPC ⟨2, 0x100000⟩ + 8⟩ := by
        unfold Safe.step
        simp only [Platform.bare, hFetch]
        rfl
      rw [hNext] at hStep
      cases hStep
      refine ⟨hMem, ?_⟩
      show jumpTarget s.regsPC ⟨2, 0x100000⟩ = Segments.textBase
      rw [hPC]
      decide
  intro n st h
  obtain ⟨hMem, hPC⟩ := hLoop n st h
  rw [hMem, hPC]
  exact ⟨by decide, by decide, .jump, by decide +kernel, by decide⟩

/-- The jump is mis-predicted each time; ten cycles execute it twice. -/
theorem correct_path_selfLoop : ∃ s : State Env.bare, simMain Config.notTaken selfLoop 10 = .ok s ∧
    s.trace.length = 2 ∧ ∀ i r, s.trace[i]? = some r →
      ∃ st, Safe.runN Platform.bare selfLoop () i = .ok st ∧ r.PC = st.regsPC := by
  obtain ⟨s, hs, hLen⟩ : ∃ s : State Env.bare, simMain Config.notTaken selfLoop 10 = .ok s ∧
      (s.trace.length == 2) = true := exists_ok_of_any (by decide +kernel)
  have hFloat : SameFloat Fpu.none := ⟨fun _ h => (by cases h), fun _ h => (by cases h)⟩
  refine ⟨s, hs, by simpa using hLen, fun i r hr => ?_⟩
  obtain ⟨st, -, hRun, -, hPC, -⟩ := (@correct_path Env.bare Config.notTaken selfLoop s selfLoop_proper
    hFloat (reach_reachable (reach_simMain hs))).1 i r hr
  exact ⟨st, hRun, hPC⟩

end SimpleScalar.Outorder

import SimpleScalar.Outorder.Isolation

/-!
# Retirement

The instructions that enter the RUU on the correct path are those of the trace without the NOPs
(`recorded_reachable`), and the trace is the path of `sim-safe` (`Sequential.path`).

* `retired_path`: what has been retired and what is waiting on the correct path.
* `retired_comparable`: configuration, predictor and caches only decide how far a run gets.
-/

namespace SimpleScalar

/-- The addresses and words of the first `n` instructions. -/
def Safe.path (pf : Platform) (img : Image) (host : pf.Host) (n : Nat) : List (Word × Inst) :=
  (List.range n).filterMap fun i => (runN pf img host i).toOption.map fun s =>
    (s.regsPC, fetch pf.bigEndian s.arch.mem s.regsPC)

namespace Outorder

open Outcome

variable {env : Env} {cfg : Config} {img : Image} {s : State env}

/-- An instruction that gets a station. -/
def real (x : Word × Inst) : Bool := x.2.decode.any fun op => dispatchOp op ≠ .nop

def Dispatch.key (d : Dispatch) : Word × Inst := (d.PC, d.IR)

def TraceRec.key (r : TraceRec env) : Word × Inst := (r.PC, r.IR)

/-- The instructions that entered the RUU are those of the trace that get a station. -/
def Recorded (f : Front env) : Prop := f.dispatched.map Dispatch.key = (f.trace.map TraceRec.key).filter real

theorem Recorded.dispatch {ld : Segments} {d : DispatchLocals} {p : Option DispatchLocals × State env}
    (h : Recorded s.front) (hStep : DispatchStep cfg ld d s p) : Recorded p.2.front := by
  cases hStep with
  | stop => exact h
  | wait => exact h
  | @inst op x d' s₁ s₂ s' ds hRuu hLsq hNum hGo hOp hTrap hExec hs₁ hAlloc hRecord hRedirected hDispatched
      hFront =>
    have hSame : s₁.front.dispatched = s.dispatched ∧ s₁.front.trace = s.trace := by
      rw [hs₁, executed]
      split <;> exact ⟨rfl, rfl⟩
    show Recorded s'.front
    rw [hFront]
    unfold Front.traced Recorded
    split
    · show s₁.front.dispatched.map _ = (s₁.front.trace.map _).filter _
      rw [hSame.1, hSame.2]
      exact h
    · show (s₁.front.dispatched ++ ds).map Dispatch.key = ((s₁.front.trace ++ [_]).map TraceRec.key).filter real
      rw [hSame.1, hSame.2, List.map_append, List.map_append, List.filter_append,
        show s.dispatched.map Dispatch.key = (s.trace.map TraceRec.key).filter real from h,
        List.append_cancel_left_eq]
      refine hDispatched.trans ?_
      rw [List.map_singleton, List.filter_singleton]
      simp [TraceRec.key, real, hOp]

theorem recorded_reachable (h : Reachable cfg img s) : Recorded s.front := by
  induction h with
  | init => rfl
  | @step s s' st hs hRun ih =>
    have hBase := base_reachable hs
    cases st with
    | sanity => rwa [sanity_frame.of_ok hRun]
    | commit => rwa [((ruuCommit_frame hBase).of_ok hRun).2.front]
    | releaseFu => cases hRun; exact ih
    | writeback =>
      obtain ⟨-, -, hSame | ⟨-, hRestart⟩⟩ := ruuWriteback_frame.of_ok hRun
      · rwa [hSame]
      · rw [hRestart]
        exact ih
    | refresh => rwa [(lsqRefresh_frame.of_ok hRun).1]
    | issue => rwa [(ruuIssue_frame.of_ok hRun).1]
    | dispatch =>
      have hKeeps : Keeps AnyCheck (ruuDispatch cfg img.ld s) fun s' => Base cfg {} s' ∧
          ∃ _ : DispatchLocals, Recorded s'.front :=
        ruuDispatch_base trivial hBase ih fun d s p _ _ hI hStep => hI.dispatch hStep
      obtain ⟨-, -, hRecorded⟩ := hKeeps.of_ok hRun
      exact hRecorded
    | fetch =>
      have hKeeps : Keeps AnyCheck (fetchStage cfg img.ld s) fun s' => Recorded s'.front :=
        fetchStage_keeps ih (fun s delay h => h) (fun s caches delay h _ => h) fun s r pred caches h _ _ _ _ => h
      exact hKeeps.of_ok hRun
    | tick => cases hRun; exact ih

/-- The trace is the path of `sim-safe`. -/
theorem Sequential.path {tr : List (TraceRec env)} {st : Safe.State env.pf}
    (h : Sequential img.ld (Safe.init env.pf img env.host) tr st) (hProper : Proper env.pf img env.host)
    (hFloat : SameFloat env.pf.fpu) (hText : ∀ r ∈ tr, FromText env.pf img r.PC r.IR) :
    Safe.path env.pf img env.host tr.length = tr.map TraceRec.key := by
  induction h with
  | nil => rfl
  | @snoc tr st r hSeq hr ih =>
    have hBefore : ∀ r ∈ tr, FromText env.pf img r.PC r.IR := fun r hr => hText r (List.mem_append_left _ hr)
    have hRun := hSeq.safe hProper hFloat hBefore
    obtain ⟨hFetch, hLow, -⟩ := hProper _ _ hRun
    have hIR := hr.fetch hSeq hFetch hLow (hText r (by simp))
    rw [List.length_append, List.length_singleton, Safe.path, List.range_succ, List.filterMap_append,
      List.map_append, ← ih hBefore, List.filterMap_cons, hRun, List.map_singleton, TraceRec.key, hIR, hr.PC]
    rfl

/-- What has been retired and what is waiting, in terms of `sim-safe`. -/
theorem retired_eq (hProper : Proper env.pf img env.host) (hFloat : SameFloat env.pf.fpu) (h : Reachable cfg img s) :
    s.retired.map Dispatch.key ++ (settledEntries cfg s.rob).map Dispatch.key =
      (Safe.path env.pf img env.host s.trace.length).filter real := by
  have hHist := (base_reachable h).hist.eq
  rw [List.append_nil] at hHist
  have hFollows := follows_reachable h
  obtain ⟨st, hSeq, -⟩ := hFollows.now
  have hPath : Safe.path env.pf img env.host s.trace.length = _ := hSeq.path hProper hFloat hFollows.trace
  rw [hPath, ← List.map_append, hHist]
  exact recorded_reachable h

/-- A longer run has a longer path. -/
theorem path_le {pf : Platform} {host : pf.Host} {m n : Nat} (hLe : m ≤ n) :
    Safe.path pf img host m <+: Safe.path pf img host n := by
  obtain ⟨k, rfl⟩ := Nat.exists_eq_add_of_le hLe
  rw [Safe.path, Safe.path, List.range_add, List.filterMap_append]
  exact List.prefix_append ..

theorem noFloat : SameFloat Fpu.none := ⟨fun _ h => (by cases h), fun _ h => (by cases h)⟩

end Outorder
end SimpleScalar

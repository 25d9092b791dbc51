import SimpleScalar.Outorder.Writeback
import SimpleScalar.Outorder.Issue
import SimpleScalar.Outorder.Dispatch
import SimpleScalar.Outorder.Fetch
import SimpleScalar.Lib.Outcome

/-!
# The simulator loop

`sim_main` runs the stages of the pipeline in reverse order, once per cycle.  Two
notions of reachable state are used: `Reachable` closes the initial state under any
interleaving of stages, `Reach` follows the order of `sim_main` and remembers which
stages of the current cycle are still to come.

* `reach_reachable`: the second is the stricter one.
* `reach_simMain`: every state that iterations of the loop lead to is reached.
-/

namespace SimpleScalar.Outorder

variable {env : Env}

/-- The checks at the top of the loop. -/
def sanity (cfg : Config) (s : State env) : Except Stop (State env) :=
  if s.ruuNum < s.lsqNum then .error (.check .ruuNumLtLsqNum)
  else if (s.ruuHead + s.ruuNum) % cfg.ruuSize ≠ s.ruuTail then .error (.check .ruuWedged)
  else if (s.lsqHead + s.lsqNum) % cfg.lsqSize ≠ s.lsqTail then .error (.check .lsqWedged)
  else .ok s

inductive Stage where
  | sanity | commit | releaseFu | writeback | refresh | issue | dispatch | fetch | tick
  deriving DecidableEq, Repr

def runStage (cfg : Config) (ld : Segments) : Stage → State env → Except Stop (State env)
  | .sanity, s => sanity cfg s
  | .commit, s => ruuCommit cfg s
  | .releaseFu, s => .ok (ruuReleaseFu s)
  | .writeback, s => ruuWriteback cfg s
  | .refresh, s => lsqRefresh cfg s
  | .issue, s => ruuIssue cfg s
  | .dispatch, s => ruuDispatch cfg ld s
  | .fetch, s => fetchStage cfg ld s
  | .tick, s => .ok { s with simCycle := s.simCycle + 1 }

/-- The body of the loop of `sim_main`. -/
def cycle (cfg : Config) : List Stage :=
  [.sanity, .commit, .releaseFu, .writeback] ++
    (if cfg.bugcompatMode then [.dispatch, .refresh, .issue] else [.refresh, .issue, .dispatch]) ++
    [.fetch, .tick]

def runStages (cfg : Config) (ld : Segments) : List Stage → State env → Except Stop (State env)
  | [], s => .ok s
  | st :: sts, s => do
    let s ← runStage cfg ld st s
    runStages cfg ld sts s

/-- `n` iterations of the loop of `sim_main`. -/
def simMain (cfg : Config) (img : Image) : Nat → Except Stop (State env)
  | 0 => .ok (init env img)
  | n + 1 => do
    let s ← simMain cfg img n
    runStages cfg img.ld (cycle cfg) s

/-- States reached by any interleaving of stages. -/
inductive Reachable (cfg : Config) (img : Image) : State env → Prop where
  | init : Reachable cfg img (init env img)
  | step {s s' : State env} (st : Stage) (hs : Reachable cfg img s)
      (h : runStage cfg img.ld st s = .ok s') : Reachable cfg img s'

/-- States reached between the stages of `sim_main`, with the stages that are left of
the current iteration. -/
inductive Reach (cfg : Config) (img : Image) : List Stage → State env → Prop where
  | init : Reach cfg img (cycle cfg) (init env img)
  | step {st : Stage} {rest : List Stage} {s s' : State env} (hs : Reach cfg img (st :: rest) s)
      (h : runStage cfg img.ld st s = .ok s') : Reach cfg img rest s'
  | next {s : State env} (hs : Reach cfg img [] s) : Reach cfg img (cycle cfg) s

variable {cfg : Config} {img : Image}

variable {rest : List Stage}

theorem reach_reachable {s : State env} (h : Reach cfg img rest s) :
    Reachable cfg img s := by
  induction h with
  | init => exact .init
  | step _ hRun ih => exact .step _ ih hRun
  | next _ ih => exact ih

/-- States reached between the stages of `sim_main` by stages that all meet `C`. -/
inductive ReachWith (C : Stage → State env → Prop) (cfg : Config) (img : Image) :
    List Stage → State env → Prop where
  | init : ReachWith C cfg img (cycle cfg) (init env img)
  | step {st : Stage} {rest : List Stage} {s s' : State env}
      (hs : ReachWith C cfg img (st :: rest) s) (hC : C st s)
      (h : runStage cfg img.ld st s = .ok s') : ReachWith C cfg img rest s'
  | next {s : State env} (hs : ReachWith C cfg img [] s) : ReachWith C cfg img (cycle cfg) s

theorem ReachWith.reach {C : Stage → State env → Prop} {s : State env}
    (h : ReachWith C cfg img rest s) : Reach cfg img rest s := by
  induction h with
  | init => exact .init
  | step _ _ hRun ih => exact .step ih hRun
  | next _ ih => exact .next ih

theorem reach_runStages_append : ∀ {sts : List Stage} {s s' : State env},
    Reach cfg img (sts ++ rest) s → runStages cfg img.ld sts s = .ok s' → Reach cfg img rest s' := by
  intro sts
  induction sts with
  | nil => intro s s' hs h; cases h; exact hs
  | cons st sts ih =>
    intro s s' hs h
    simp only [runStages] at h
    cases hRun : runStage cfg img.ld st s with
    | error e => rw [hRun] at h; cases h
    | ok s₁ => rw [hRun] at h; exact ih (.step hs hRun) h

theorem reach_runStages {sts : List Stage} {s s' : State env} (hs : Reach cfg img sts s)
    (h : runStages cfg img.ld sts s = .ok s') : Reach cfg img [] s' :=
  reach_runStages_append (by rwa [List.append_nil]) h

/-- After `n` iterations the next one starts in a reached state. -/
theorem reach_simMain : ∀ {n : Nat} {s : State env}, simMain cfg img n = .ok s →
    Reach cfg img (cycle cfg) s := by
  intro n
  induction n with
  | zero => intro s h; cases h; exact .init
  | succ n ih =>
    intro s h
    simp only [simMain] at h
    cases hRun : (simMain cfg img n : Except Stop (State env)) with
    | error e => rw [hRun] at h; cases h
    | ok s₁ => rw [hRun] at h; exact .next (reach_runStages (ih hRun) h)

/-- `beq $0,$0,-1`, with a load and an addition after it. -/
def missedBranch : Image :=
  Image.ofInsts [⟨6, 0x0000ffff⟩, ⟨18, 0x1d020000⟩, ⟨55, 0x02020001⟩]

/-- Two cycles later the branch and the wrong path are in the RUU. -/
theorem missedBranch_runs : ∃ s : State Env.bare, simMain Config.notTaken missedBranch 2 = .ok s ∧
    (s.specMode && s.ruuNum == 3 && s.lsqNum == 1) = true :=
  Outcome.exists_ok_of_any (by decide +kernel)

end SimpleScalar.Outorder

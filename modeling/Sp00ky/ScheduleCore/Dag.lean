/-
  Workflow graphs (`packages/schedule-core/src/dag.rs`).

  Which steps may start is computed from the statuses of the step rows a pass has read: those that
  are blocked with every dependency successful. A failure dooms what depends on it, along the
  topological order.
-/
import Sp00ky.Ssp.Types
import Mathlib.Data.List.Nodup
import Mathlib.Data.List.Perm.Basic

namespace Sp00ky.ScheduleCore

open Ssp (Json)

/-- `StepStatus`. -/
inductive StepStatus where
  | blocked | ready | dispatched | success | failed | skipped
deriving DecidableEq, Repr

def StepStatus.isTerminal : StepStatus → Bool
  | .success | .failed | .skipped => true
  | .blocked | .ready | .dispatched => false

structure StepDef where
  name : String
  dependsOn : List String
  table : Option String
  path : String
  payload : Option Json
  maxRetries : Option Int
  retryStrategy : Option String
  timeout : Option Int

/-- `WorkflowDag`, validated: its steps in topological order. -/
structure WorkflowDag where
  steps : List StepDef
  nonempty : steps ≠ []
  nodup : (steps.map (·.name)).Nodup
  ordered : ∀ before step after, steps = before ++ step :: after →
    ∀ dep ∈ step.dependsOn, dep ∈ before.map (·.name)

/-- The statuses a pass has read. -/
abbrev Statuses := String → Option StepStatus

/-- Every dependency has succeeded. -/
def StepDef.satisfied (step : StepDef) (statuses : Statuses) : Bool :=
  step.dependsOn.all fun dep => statuses dep = some .success

namespace WorkflowDag

variable (dag : WorkflowDag)

def names : List String := dag.steps.map (·.name)

def step (name : String) : Option StepDef := dag.steps.find? fun s => s.name = name

theorem step_eq_some {dag : WorkflowDag} {name : String} {s : StepDef}
    (h : dag.step name = some s) : s ∈ dag.steps ∧ s.name = name :=
  ⟨List.mem_of_find?_eq_some h, by simpa using List.find?_some h⟩

/-- A step is found under its name. -/
theorem step_of_mem {dag : WorkflowDag} {s : StepDef} (h : s ∈ dag.steps) :
    dag.step s.name = some s := by
  obtain ⟨s', hs'⟩ : ∃ s', dag.step s.name = some s' :=
    Option.isSome_iff_exists.mp (List.find?_isSome.mpr ⟨s, h, by simp⟩)
  obtain ⟨hmem, hname⟩ := step_eq_some hs'
  rw [hs', List.inj_on_of_nodup_map dag.nodup hmem h hname]

def readySteps (statuses : Statuses) : List StepDef :=
  dag.steps.filter fun s => statuses s.name = some .blocked && s.satisfied statuses

/-- `doomed_steps`: each step that can never run with the dependency that dooms it. -/
def doomedSteps (statuses : Statuses) : List (String × String) :=
  dag.steps.foldl (fun doomed s =>
    if statuses s.name = some .blocked ∨ statuses s.name = some .ready then
      match s.dependsOn.find? fun dep => decide (dep ∈ doomed.map (·.1) ∨
          statuses dep = some .failed ∨ statuses dep = some .skipped) with
      | none => doomed
      | some blocker => doomed ++ [(s.name, blocker)]
    else doomed) []

end WorkflowDag

/-- `OnFailure`. -/
inductive OnFailure where
  | halt | continueIndependent
deriving DecidableEq, Repr

/-- What is frozen on a run: its graph, where its jobs go, and the order its step rows come in. -/
structure Workflow where
  dag : WorkflowDag
  onFailure : OnFailure
  targetTable : Option String
  input : Option Json
  failuresOnly : Bool
  rowOrder : List String
  rowOrder_perm : rowOrder.Perm dag.names

end Sp00ky.ScheduleCore

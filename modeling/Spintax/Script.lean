import Spintax.Document

/-!
# Spintax — edit scripts

A script is a list of steps: mutations, and `undo`, `redo` and `clearAll`. It
is run against a document from the first step to the last. A rejected step
leaves the document as it was; the run goes on after it, unless it is strict.
-/

namespace Spintax

/-- A step of a script. -/
inductive Step where
  | undo
  | redo
  | clearAll
  | edit (mutation : Mutation)
deriving DecidableEq

namespace Step

/-- What the step is, in a few words. -/
def describe : Step → String
  | .undo => "undo"
  | .redo => "redo"
  | .clearAll => "clearAll"
  | .edit m => m.name ++ " " ++ m.path.display

/-- Makes a step; the answer is whether it changed the document. -/
def perform (d : Document) : Step → Except EditError Bool × Document
  | .undo => d.undo.map .ok id
  | .redo => d.redo.map .ok id
  | .clearAll => d.clearAll.map (fun result => .ok result.changed) id
  | .edit m => (d.apply m).map (fun answer => answer.map EditResult.changed) id

end Step

/-- A step that was rejected: its place in the script, counted from one, and
the reason. -/
structure Rejection where
  number : Nat
  step : Step
  error : EditError
deriving DecidableEq

namespace Rejection

/-- The reason as a document gives it. -/
def reason (r : Rejection) : String :=
  "Mutation error: " ++ r.error.message

/-- The number of the step, and what it is. -/
def place (r : Rejection) : String :=
  Text.decimal r.number ++ " (" ++ r.step.describe ++ ")"

end Rejection

/-- How many steps of a run had which result. -/
structure Summary where
  applied : Nat
  unchanged : Nat
  rejected : Nat
deriving DecidableEq

/-- A run of a script. -/
structure ScriptRun where
  document : Document
  summary : Summary
  /-- The steps that were rejected, in order. -/
  rejections : List Rejection
  stopped : Bool
deriving DecidableEq

namespace ScriptRun

/-- One more step before a run, accepted. -/
def accept (changed : Bool) (run : ScriptRun) : ScriptRun :=
  let s := run.summary
  { run with
    summary :=
      if changed then { s with applied := s.applied + 1 }
      else { s with unchanged := s.unchanged + 1 } }

/-- One more step before a run, rejected. -/
def reject (r : Rejection) (run : ScriptRun) : ScriptRun :=
  { run with
    summary := { run.summary with rejected := run.summary.rejected + 1 }
    rejections := r :: run.rejections }

end ScriptRun

namespace Document

/-- Runs the steps of a script, of which the first is number `number`. -/
def runSteps (strict : Bool) (number : Nat) (d : Document) : List Step → ScriptRun
  | [] => ⟨d, ⟨0, 0, 0⟩, [], false⟩
  | step :: steps =>
    match step.perform d with
    | (.ok changed, d) => (runSteps strict (number + 1) d steps).accept changed
    -- the document after a rejected step is the one before it
    | (.error error, d) =>
      if strict then ⟨d, ⟨0, 0, 1⟩, [⟨number, step, error⟩], true⟩
      else (runSteps strict (number + 1) d steps).reject ⟨number, step, error⟩

def runScript (strict : Bool) (d : Document) (steps : List Step) : ScriptRun :=
  d.runSteps strict 1 steps

end Document

end Spintax

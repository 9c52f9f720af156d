/-
The stored form of histories and of violations.
-/
import SignalGraph.Check.Violation
import SignalGraph.Format.Graph
import SignalGraph.History

namespace SignalGraph

def StepRecord.toJson (r : StepRecord) : Json :=
  .record [("from", r.source.toJson), ("to", r.target.toJson), ("step", .nat r.step)]

def StepRecord.ofJson? (v : Json) : Option StepRecord := do
  match ← v.allFields? ["from", "to", "step"] with
  | [some source, some target, some step] =>
    return { source := ← StateId.ofJson? source, target := ← StateId.ofJson? target,
             step := ← step.natBelow? countBound }
  | _ => none

def History.toJson (h : History) : Json :=
  .record [("steps", .ofList StepRecord.toJson h.steps.toList)]

def History.ofJson? (v : Json) : Option History := do
  match ← v.allFields? ["steps"] with
  | [some steps] => return { steps := (← steps.list? StepRecord.ofJson?).toArray }
  | _ => none

namespace Violation

def toJson : Violation → Json
  | deadEnd state => .record [("DeadEnd", .record [("state", .str state)])]
  | notExhaustive state => .record [("NotExhaustive", .record [("state", .str state)])]
  | unreachable state => .record [("Unreachable", .record [("state", .str state)])]
  | shadowed state priority =>
    .record [("Shadowed", .record [("state", .str state), ("priority", .nat priority)])]

/-- The record of a variant that only names a state. -/
def stateOfJson? (body : Json) : Option String := do
  match ← body.fields? ["state"] with
  | [some state] => state.str?
  | _ => none

def ofJson? (v : Json) : Option Violation := do
  match ← v.variant? with
  | ("DeadEnd", body) => return deadEnd (← stateOfJson? body)
  | ("NotExhaustive", body) => return notExhaustive (← stateOfJson? body)
  | ("Unreachable", body) => return unreachable (← stateOfJson? body)
  | ("Shadowed", body) =>
    match ← body.fields? ["state", "priority"] with
    | [some state, some priority] =>
      return shadowed (← state.str?) (← priority.natBelow? countBound)
    | _ => none
  | _ => none

end Violation

end SignalGraph

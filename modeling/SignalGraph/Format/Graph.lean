/-
The stored form of graphs: each structure as a record of its fields, each inductive type
as a variant named for the constructor, handles as numbers.

Handles are numbers below `2 ^ 32` and priorities numbers below `2 ^ 64`. A state without
a default target stores `null` there, and may leave the field out.
-/
import SignalGraph.Fragment
import SignalGraph.Json.Printer
import SignalGraph.Json.Record
import SignalGraph.Program
import SignalGraph.Register

namespace SignalGraph

/-- Handles are stored in 32 bits. -/
def handleBound : Nat := 0x100000000

/-- Counts are stored in 64 bits. -/
def countBound : Nat := 0x10000000000000000

/-! ## Signals -/

def SignalId.toJson (s : SignalId) : Json := .nat s.index

def SignalId.ofJson? (v : Json) : Option SignalId := (v.natBelow? handleBound).map SignalId.mk

def SignalInfo.toJson (i : SignalInfo) : Json :=
  .record [("name", .str i.name), ("initial", .bool i.initial), ("constant", .bool i.constant)]

def SignalInfo.ofJson? (v : Json) : Option SignalInfo := do
  match ← v.allFields? ["name", "initial", "constant"] with
  | [some name, some initial, some constant] =>
    return { name := ← name.str?, initial := ← initial.bool?, constant := ← constant.bool? }
  | _ => none

def Register.toJson (r : Register) : Json :=
  .record [("name", .str r.name), ("bits", .ofList SignalId.toJson r.bits)]

def Register.ofJson? (v : Json) : Option Register := do
  match ← v.allFields? ["name", "bits"] with
  | [some name, some bits] =>
    return { name := ← name.str?, bits := ← bits.list? SignalId.ofJson? }
  | _ => none

/-! ## Guards -/

def Test.toJson (t : Test) : Json :=
  .record [("signal", t.signal.toJson), ("value", .bool t.value)]

def Test.ofJson? (v : Json) : Option Test := do
  match ← v.allFields? ["signal", "value"] with
  | [some signal, some value] =>
    return { signal := ← SignalId.ofJson? signal, value := ← value.bool? }
  | _ => none

def Clause.toJson (c : Clause) : Json := .record [("tests", .ofList Test.toJson c.tests)]

def Clause.ofJson? (v : Json) : Option Clause := do
  match ← v.allFields? ["tests"] with
  | [some tests] => return { tests := ← tests.list? Test.ofJson? }
  | _ => none

def Guard.toJson (g : Guard) : Json := .record [("clauses", .ofList Clause.toJson g.clauses)]

def Guard.ofJson? (v : Json) : Option Guard := do
  match ← v.allFields? ["clauses"] with
  | [some clauses] => return { clauses := ← clauses.list? Clause.ofJson? }
  | _ => none

/-! ## States -/

def StateId.toJson (q : StateId) : Json := .nat q.index

def StateId.ofJson? (v : Json) : Option StateId := (v.natBelow? handleBound).map StateId.mk

def Action.toJson : Action → Json
  | .drive signal value =>
    .record [("Drive", .record [("signal", signal.toJson), ("value", .bool value)])]
  | .copy src dst => .record [("Copy", .record [("src", src.toJson), ("dst", dst.toJson)])]

def Action.ofJson? (v : Json) : Option Action := do
  match ← v.variant? with
  | ("Drive", body) =>
    match ← body.fields? ["signal", "value"] with
    | [some signal, some value] => return .drive (← SignalId.ofJson? signal) (← value.bool?)
    | _ => none
  | ("Copy", body) =>
    match ← body.fields? ["src", "dst"] with
    | [some src, some dst] => return .copy (← SignalId.ofJson? src) (← SignalId.ofJson? dst)
    | _ => none
  | _ => none

def Transition.toJson (t : Transition) : Json :=
  .record [("source", t.source.toJson), ("target", t.target.toJson), ("guard", t.guard.toJson),
    ("priority", .nat t.priority)]

def Transition.ofJson? (v : Json) : Option Transition := do
  match ← v.allFields? ["source", "target", "guard", "priority"] with
  | [some source, some target, some guard, some priority] =>
    return { source := ← StateId.ofJson? source, target := ← StateId.ofJson? target,
             guard := ← Guard.ofJson? guard, priority := ← priority.natBelow? countBound }
  | _ => none

def StateNode.toJson (n : StateNode) : Json :=
  .record [("label", .str n.label), ("actions", .ofList Action.toJson n.actions),
    ("transitions", .ofList Transition.toJson n.transitions),
    ("default", .ofOption StateId.toJson n.defaultTarget)]

def StateNode.ofJson? (v : Json) : Option StateNode := do
  match ← v.allFields? ["label", "actions", "transitions", "default"] with
  | [some label, some actions, some transitions, defaultTarget] =>
    return { label := ← label.str?, actions := ← actions.list? Action.ofJson?,
             transitions := ← transitions.list? Transition.ofJson?,
             defaultTarget := ← (defaultTarget.getD .null).option? StateId.ofJson? }
  | _ => none

/-! ## Fragments and programs -/

def Fragment.toJson (f : Fragment) : Json :=
  .record [("entry", f.entry.toJson), ("exit", f.exit.toJson),
    ("states", .ofList StateId.toJson f.states)]

def Fragment.ofJson? (v : Json) : Option Fragment := do
  match ← v.allFields? ["entry", "exit", "states"] with
  | [some entry, some exit, some states] =>
    return { entry := ← StateId.ofJson? entry, exit := ← StateId.ofJson? exit,
             states := ← states.list? StateId.ofJson? }
  | _ => none

namespace Program

def toJson (p : Program) : Json :=
  .record [("signals", .ofList SignalInfo.toJson p.signals.toList),
    ("states", .ofList StateNode.toJson p.states.toList), ("entry", p.entry.toJson),
    ("exit", p.exit.toJson)]

def ofJson? (v : Json) : Option Program := do
  match ← v.allFields? ["signals", "states", "entry", "exit"] with
  | [some signals, some states, some entry, some exit] =>
    return { signals := (← signals.list? SignalInfo.ofJson?).toArray,
             states := (← states.list? StateNode.ofJson?).toArray,
             entry := ← StateId.ofJson? entry, exit := ← StateId.ofJson? exit }
  | _ => none

/-- The stored program as a text. -/
def toText (p : Program) : String := p.toJson.pretty

end Program

end SignalGraph

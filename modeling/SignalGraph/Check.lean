/-
The check of a program's graph.

Defects are listed state by state in the order of the table. A state out of reach is
listed as such and still looked at. Runs end at the exit and take none of its edges, so of
the exit nothing else is asked.
-/
import SignalGraph.Check.Reachability
import SignalGraph.Check.TruthTable
import SignalGraph.Check.Violation

namespace SignalGraph

/-- The defects of the edges that leave a state other than the exit. -/
def StateNode.edgeViolations (n : StateNode) : List Violation :=
  if n.isDeadEnd then [.deadEnd n.label]
  else
    (if n.defaultTarget.isNone && !coversAll n.transitions then [.notExhaustive n.label] else []) ++
      n.shadowed.map fun t => .shadowed n.label t.priority

namespace Program

/-- The defects of one state, given whether it is reachable. -/
def stateViolations (p : Program) (q : StateId) (n : StateNode) (reached : Bool) : List Violation :=
  (if reached then [] else [.unreachable n.label]) ++
    (if q = p.exit then [] else n.edgeViolations)

/-- The defects of the program's graph, in the order of its states. -/
def violations (p : Program) : List Violation :=
  let reached := p.reachable
  p.states.toList.zipIdx.flatMap fun (n, i) => p.stateViolations ⟨i⟩ n (reached.getD i false)

end Program

end SignalGraph

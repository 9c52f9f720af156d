/-
What can be wrong with the graph of a program.
-/
namespace SignalGraph

/-- A defect of a state, which is named by its label. -/
inductive Violation where
  /-- No edge leaves a state that is not the exit. -/
  | deadEnd (state : String)
  /-- Some valuation satisfies no guard of a state without a default target. -/
  | notExhaustive (state : String)
  /-- No path leads from the entry to the state. -/
  | unreachable (state : String)
  /-- Where the guard of a transition holds, an earlier one does. -/
  | shadowed (state : String) (priority : Nat)
deriving DecidableEq, Repr

namespace Violation

/-- The label of the state at fault. -/
def state : Violation → String
  | deadEnd state | notExhaustive state | unreachable state | shadowed state _ => state

def message : Violation → String
  | deadEnd state => s!"State '{state}' has no outgoing transition but is not the program exit"
  | notExhaustive state =>
    s!"State '{state}' has no default transition and its guards do not cover every input"
  | unreachable state => s!"State '{state}' is unreachable from the program entry"
  | shadowed state priority =>
    s!"Transition {priority} of state '{state}' can never fire past earlier guards"

end Violation

end SignalGraph

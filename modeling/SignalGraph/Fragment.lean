/-
Fragments: parts of a graph with one way in and one way out.
-/
import SignalGraph.State

namespace SignalGraph

/-- A part of a graph: where it is entered, where it is left, and its states. -/
structure Fragment where
  entry : StateId
  exit : StateId
  states : List StateId
deriving DecidableEq, Repr

namespace Fragment

/-- The fragment that is one state. -/
def single (q : StateId) : Fragment := ⟨q, q, [q]⟩

/-- The two fragments as one that is entered where the first is and left where the
second is. -/
def join (f g : Fragment) : Fragment := ⟨f.entry, g.exit, f.states ++ g.states⟩

end Fragment

end SignalGraph

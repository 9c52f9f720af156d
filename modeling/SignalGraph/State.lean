/-
States: the nodes of a graph.

A state has actions, which fire in order whenever it is entered, and the edges that
leave it: guarded transitions, of which the first whose guard holds is taken, and a
default target for when none does.
-/
import SignalGraph.Guard

namespace SignalGraph

/-- Handle of a state: its position in the table of states. -/
structure StateId where
  index : Nat
deriving DecidableEq, Repr

instance : ToString StateId where
  toString q := s!"q{q.index}"

/-- What entering a state does to one signal. -/
inductive Action where
  /-- Gives the signal a fixed value. -/
  | drive (signal : SignalId) (value : Bool)
  /-- Gives `dst` the value that `src` has at that moment. -/
  | copy (src dst : SignalId)
deriving DecidableEq, Repr

namespace Action

/-- The signal that the action writes. -/
def target : Action → SignalId
  | drive signal _ => signal
  | copy _ dst => dst

/-- The value that the action writes. -/
def value (v : Valuation) : Action → Bool
  | drive _ value => value
  | copy src _ => v src

/-- Fires the action on a table of values. A write past the end of the table is lost. -/
def fire (values : Array Bool) (a : Action) : Array Bool :=
  values.setIfInBounds a.target.index (a.value (.ofArray values))

end Action

/-- A guarded edge. -/
structure Transition where
  source : StateId
  target : StateId
  guard : Guard
  priority : Nat
deriving DecidableEq, Repr

/-- A state with its actions and the edges that leave it. -/
structure StateNode where
  label : String
  actions : List Action := []
  transitions : List Transition := []
  defaultTarget : Option StateId := none
deriving DecidableEq, Repr

namespace StateNode

/-- Whether no edge leaves the state. -/
def isDeadEnd (n : StateNode) : Bool := n.transitions.isEmpty && n.defaultTarget.isNone

/-- Where the edges of the state lead, the default last. -/
def successors (n : StateNode) : List StateId :=
  n.transitions.map Transition.target ++ n.defaultTarget.toList

/-- The state that follows: the target of the first transition whose guard holds, else
the default. -/
def next (n : StateNode) (v : Valuation) : Option StateId :=
  match n.transitions.find? (·.guard.holds v) with
  | some t => some t.target
  | none => n.defaultTarget

/-- Adds an action, which fires last. -/
def addAction (n : StateNode) (a : Action) : StateNode := { n with actions := n.actions ++ [a] }

/-- Adds a transition from the state itself, `source`, which is tried last. -/
def addTransition (n : StateNode) (source target : StateId) (guard : Guard) : StateNode :=
  { n with transitions := n.transitions ++ [⟨source, target, guard, n.transitions.length⟩] }

end StateNode

end SignalGraph

/-
Programs: finished graphs.

A program is the tables of signals and states with the state where runs start and the
state where they end. Programs can also be read from text, so the handles in one need
not be those of any entry of its tables.
-/
import SignalGraph.State

namespace SignalGraph

/-- A finished graph. -/
structure Program where
  signals : Array SignalInfo
  states : Array StateNode
  entry : StateId
  exit : StateId
deriving DecidableEq, Repr

namespace Program

def signal? (p : Program) (s : SignalId) : Option SignalInfo := p.signals[s.index]?

def state? (p : Program) (q : StateId) : Option StateNode := p.states[q.index]?

/-- The first signal of the name. -/
def signalNamed? (p : Program) (name : String) : Option SignalId :=
  (p.signals.findIdx? (·.name == name)).map SignalId.mk

/-- The handles of the states, in order. -/
def stateIds (p : Program) : List StateId := (List.range p.states.size).map StateId.mk

/-- What entering a state does; an unknown state does nothing. -/
def actions (p : Program) (q : StateId) : List Action :=
  match p.state? q with
  | some n => n.actions
  | none => []

/-- Where the edges of a state lead; an unknown state has none. -/
def successors (p : Program) (q : StateId) : List StateId :=
  match p.state? q with
  | some n => n.successors
  | none => []

end Program

end SignalGraph

/-
Histories: the transitions that a run has taken, in order.
-/
import SignalGraph.State

namespace SignalGraph

/-- A transition that was taken, and its number. -/
structure StepRecord where
  source : StateId
  target : StateId
  step : Nat
deriving DecidableEq, Repr

/-- The transitions that were taken, in order. -/
structure History where
  steps : Array StepRecord
deriving DecidableEq, Repr

namespace History

def empty : History := ⟨#[]⟩

def length (h : History) : Nat := h.steps.size

def isEmpty (h : History) : Bool := h.steps.isEmpty

/-- Adds a transition at the end. -/
def record (h : History) (r : StepRecord) : History := ⟨h.steps.push r⟩

/-- The states that the transitions lead through, the first one's source included. -/
def path (h : History) : List StateId :=
  match h.steps.toList with
  | [] => []
  | r :: rest => r.source :: (r :: rest).map StepRecord.target

/-- How many transitions led to the state. -/
def visits (h : History) (q : StateId) : Nat := h.steps.countP (·.target == q)

end History

end SignalGraph

/-
Which states a run could ever enter.

The search is breadth first: a queue of states still to look at, and a mark for each
state of the table that was looked at. It ends because the edges of a state enter the
queue once, when it is marked: every turn takes one from what is in the queue and what
can still enter it (`pendingEdges_set`).
-/
import SignalGraph.Program

namespace SignalGraph.Program

/-- The number of edges that leave states without a mark, for the marks of the states
from `i` on. -/
def pendingEdges (p : Program) : Nat → List Bool → Nat
  | _, [] => 0
  | i, seen :: rest => (if seen then 0 else (p.successors ⟨i⟩).length) + p.pendingEdges (i + 1) rest

theorem pendingEdges_set {p : Program} {i j : Nat} {seen : List Bool} (h : seen[j]? = some false) :
    p.pendingEdges i (seen.set j true) + (p.successors ⟨i + j⟩).length = p.pendingEdges i seen := by
  induction seen generalizing i j with
  | nil => cases h
  | cons s rest ih =>
    cases j with
    | zero =>
      cases h
      show 0 + p.pendingEdges (i + 1) rest + (p.successors ⟨i⟩).length =
        (p.successors ⟨i⟩).length + p.pendingEdges (i + 1) rest
      omega
    | succ j =>
      have := @ih (i + 1) j h
      rw [show i + (j + 1) = i + 1 + j by omega]
      show _ + p.pendingEdges (i + 1) (rest.set j true) + _ = _ + p.pendingEdges (i + 1) rest
      omega

/-- Marks the states of the queue and all that can be reached from them through states
without a mark. Unknown states are passed over. -/
def explore (p : Program) (queue : List StateId) (seen : Array Bool) : Array Bool :=
  match queue with
  | [] => seen
  | q :: rest =>
    if seen[q.index]? = some false then
      p.explore (rest ++ p.successors q) (seen.setIfInBounds q.index true)
    else p.explore rest seen
termination_by queue.length + p.pendingEdges 0 seen.toList
decreasing_by
  · rename_i h
    have := @pendingEdges_set p 0 q.index seen.toList (Array.getElem?_toList.trans h)
    rw [Nat.zero_add] at this
    change _ + (p.successors q).length = _ at this
    rw [Array.toList_setIfInBounds, List.length_append, List.length_cons]
    omega
  · rw [List.length_cons]
    omega

/-- Whether each state of the table can be reached from the entry. -/
def reachable (p : Program) : Array Bool := p.explore [p.entry] (.replicate p.states.size false)

end SignalGraph.Program

/-
Signals: the boolean variables that a graph reads and writes.

A signal is known by its position in the table of signals, so its handle is an
index, and a handle may lie past the end of a table: whoever holds a table decides
what that means. Reading values never fails, an unknown handle reads `false`.
-/
namespace SignalGraph

/-- Handle of a signal: its position in the table of signals. -/
structure SignalId where
  index : Nat
deriving DecidableEq, Repr

instance : ToString SignalId where
  toString s := s!"s{s.index}"

/-- What the table of signals says about one of them: its name, its value before
anything runs, and whether it keeps that value for good. -/
structure SignalInfo where
  name : String
  initial : Bool
  constant : Bool
deriving DecidableEq, Repr

/-- A value for every handle. -/
abbrev Valuation := SignalId → Bool

/-- The valuation of a table of values: handles past its end read `false`. -/
def Valuation.ofArray (values : Array Bool) : Valuation := fun s => values.getD s.index false

namespace SignalId

/-- Adds a handle to a strictly increasing list, which stays so. -/
def insert (s : SignalId) : List SignalId → List SignalId
  | [] => [s]
  | t :: rest =>
    if s.index < t.index then s :: t :: rest
    else if s = t then t :: rest
    else t :: insert s rest

/-- The handles of a list in increasing order, each once. -/
def sort (signals : List SignalId) : List SignalId := signals.foldr insert []

/-- Looks for a handle at the positions of an increasing list from `lo` to before `hi`, in the
middle first and then on the side where it must be. -/
def searchBetween (s : SignalId) (signals : List SignalId) (lo hi : Nat) (h : hi ≤ signals.length) : Option Nat :=
  if hlt : lo < hi then
    let mid := lo + (hi - lo) / 2
    have hmid : mid < signals.length := by omega
    if signals[mid] = s then some mid
    else if signals[mid].index < s.index then searchBetween s signals (mid + 1) hi h
    else searchBetween s signals lo mid (by omega)
  else none
termination_by hi - lo

/-- The position of a handle in an increasing list. -/
def search (s : SignalId) (signals : List SignalId) : Option Nat :=
  searchBetween s signals 0 signals.length (Nat.le_refl _)

end SignalId

end SignalGraph

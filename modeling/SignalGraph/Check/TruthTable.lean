/-
Truth tables of guards.

Whether guards cover every input, and whether one can still hold once others have
failed, is decided by trying the valuations of the signals that they read. These are in
increasing order, and a row of the table is a word: its bit `i` is the value of the
`i`-th signal, so a table is for fewer than 64 signals. Guards that read more than
`maxTableSignals` signals are left undecided.
-/
import SignalGraph.State
import SignalGraph.Word

namespace SignalGraph

/-- The largest number of signals that a table is made for. -/
def maxTableSignals : Nat := 12

/-- A row of the table for some signals, which are in increasing order. -/
structure Row where
  signals : List SignalId
  mask : Word
deriving DecidableEq, Repr

/-- The valuation of a row; a signal that the table is not about reads `false`. -/
def Row.valuation (r : Row) : Valuation := fun s =>
  match s.search r.signals with
  | some i => r.mask.bit i
  | none => false

/-- The rows of the table for some signals. -/
def rows (signals : List SignalId) : List Row :=
  (List.range (Nat.pow 2 signals.length)).map fun n => ⟨signals, .ofNat n⟩

/-- The signals that the guards of some transitions read, in increasing order. -/
def guardSignals (transitions : List Transition) : List SignalId :=
  SignalId.sort (transitions.flatMap fun t => t.guard.signals)

/-- Whether one of the guards holds. -/
def anyHolds (transitions : List Transition) (v : Valuation) : Bool :=
  transitions.any (·.guard.holds v)

/-- Whether the guards are known to cover every valuation. -/
def coversAll (transitions : List Transition) : Bool :=
  let signals := guardSignals transitions
  signals.length ≤ maxTableSignals && (rows signals).all fun r => anyHolds transitions r.valuation

/-- Whether the guard of `t` is known never to hold where no guard before it does. -/
def isShadowed (earlier : List Transition) (t : Transition) : Bool :=
  let signals := guardSignals (earlier ++ [t])
  signals.length ≤ maxTableSignals && !(rows signals).any fun r =>
    t.guard.holds r.valuation && !anyHolds earlier r.valuation

/-- The transitions of a state that are known never to be taken. -/
def StateNode.shadowed (n : StateNode) : List Transition :=
  (n.transitions.zipIdx.filter fun (t, k) => isShadowed (n.transitions.take k) t).map Prod.fst

end SignalGraph

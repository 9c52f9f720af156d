/-
Registers: named lists of signals, the lowest bit first.

Nothing keeps a register from repeating a signal or from holding a handle that no
table knows; the operations that care check.
-/
import SignalGraph.Signal
import SignalGraph.Word

namespace SignalGraph

/-- A named list of signals, the lowest bit first. -/
structure Register where
  name : String
  bits : List SignalId
deriving DecidableEq, Repr

namespace Register

def width (r : Register) : Nat := r.bits.length

def bit? (r : Register) (i : Nat) : Option SignalId := r.bits[i]?

/-- Whether the two registers share a signal. -/
def overlaps (r s : Register) : Bool := r.bits.any fun b => s.bits.contains b

/-- The number that a valuation puts into the register. -/
def value (r : Register) (v : Valuation) : Nat := r.bits.foldr (fun b n => (v b).toNat + 2 * n) 0

/-- The literal that a valuation puts into the lowest 64 bits of the register. -/
def word (r : Register) (v : Valuation) : Word := .ofBits ((r.bits.take 64).map v)

end Register

end SignalGraph

/-
Arithmetic in place, on the two's complement: what the adder yields is moved back into
the register that it came from.
-/
import SignalGraph.Block.Invert
import SignalGraph.Block.Ripple
import SignalGraph.Block.Transfer
import SignalGraph.Design.Compose

namespace SignalGraph.Block

open Design

/-- A register negated in place. -/
structure Complement where
  fragment : Fragment
  value : Register
  /-- The adder's copy of the result. -/
  sum : Register

/-- A difference, in the place of what was subtracted. -/
structure Difference where
  fragment : Fragment
  difference : Register

/-- A register that was added to in place, and the carry out of its highest bit. -/
structure Accumulator where
  fragment : Fragment
  value : Register
  carry : SignalId

/-- Negates a register: inverts it and adds one. -/
def complement (a : Register) : BuildM Complement := do
  let unit ← one a.width
  let inverted ← invert a
  let sum ← add a unit
  let back ← move sum.sum a
  let fragment ← sequence [inverted, sum.fragment, back]
  return ⟨fragment, a, sum.sum⟩

/-- Two registers that share no signal. -/
def requireDisjoint (op : Operation) (a b : Register) : BuildM Unit :=
  if a.overlaps b then throw (.operandAlias op) else return

/-- Puts `a - b` into `b`: negates it and adds `a`. -/
def subtract (a b : Register) : BuildM Difference := do
  requireSameWidth .subtract a b
  requireDisjoint .subtract a b
  let negated ← complement b
  let sum ← add a b
  let back ← move sum.sum b
  let fragment ← sequence [negated.fragment, sum.fragment, back]
  return ⟨fragment, b⟩

/-- Adds a register of the same width to `a`. -/
def accumulate (a b : Register) : BuildM Accumulator := do
  let sum ← add a b
  let back ← move sum.sum a
  let fragment ← chain sum.fragment back
  return ⟨fragment, a, sum.carry⟩

/-- Adds one; a carry is an overflow. -/
def increment (a : Register) : BuildM Accumulator := do
  let unit ← one a.width
  accumulate a unit

/-- Subtracts one by adding ones only; without a carry there was nothing to subtract from. -/
def decrement (a : Register) : BuildM Accumulator := do
  let ones ← minusOne a.width
  accumulate a ones

end SignalGraph.Block

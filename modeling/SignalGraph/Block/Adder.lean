/-
Adders of one bit.

The half adder branches on its two inputs and drives its outputs from where it got to;
the full adder is two of them, with the carry of either. Both clear what they may set, and
so may be entered again with what an earlier run left in their signals.
-/
import SignalGraph.Design.Wiring

namespace SignalGraph.Block

open Design

/-- An adder of one bit. -/
structure AdderCell where
  fragment : Fragment
  sum : SignalId
  carry : SignalId

/-- The half adder of one signal with itself: there is never a sum, and the carry is the
signal. -/
def halfAdderOfSame (scope : String) (a sum carry : SignalId) : BuildM AdderCell := do
  let entry ← freshState scope "entry"
  let carryCalc ← freshState scope "carry_calc"
  let exit ← freshState scope "exit"
  drive entry sum false
  drive entry carry false
  connectWhen entry carryCalc (.when a true)
  connect entry exit
  drive carryCalc carry true
  connect carryCalc exit
  return ⟨⟨entry, exit, [entry, carryCalc, exit]⟩, sum, carry⟩

/-- The half adder of two different signals. -/
def halfAdderOfDistinct (scope : String) (a b sum carry : SignalId) : BuildM AdderCell := do
  let entry ← freshState scope "entry"
  let sumCalc ← freshState scope "sum_calc"
  let carryCalc ← freshState scope "carry_calc"
  let exit ← freshState scope "exit"
  drive entry sum false
  drive entry carry false
  connectWhen entry sumCalc (.all [⟨a, true⟩, ⟨b, false⟩])
  connectWhen entry sumCalc (.all [⟨a, false⟩, ⟨b, true⟩])
  connectWhen entry carryCalc (.all [⟨a, true⟩, ⟨b, true⟩])
  connect entry exit
  drive sumCalc sum true
  connect sumCalc exit
  drive carryCalc carry true
  connect carryCalc exit
  return ⟨⟨entry, exit, [entry, sumCalc, carryCalc, exit]⟩, sum, carry⟩

/-- The half adder: `sum` is `a xor b` and `carry` is `a and b`. -/
def halfAdder (a b : SignalId) : BuildM AdderCell := do
  let scope ← reserveScope "ha"
  let sum ← freshSignal scope "sum"
  let carry ← freshSignal scope "carry"
  if a = b then halfAdderOfSame scope a sum carry else halfAdderOfDistinct scope a b sum carry

/-- The full adder: `sum` and `carry` are the two bits of `a + b + carryIn`. -/
def fullAdder (a b carryIn : SignalId) : BuildM AdderCell := do
  let scope ← reserveScope "fa"
  let sum ← freshSignal scope "sum"
  let carry ← freshSignal scope "carry"
  let entry ← freshState scope "entry"
  drive entry carry false
  let first ← halfAdder a b
  let second ← halfAdder first.sum carryIn
  let carryCalc ← freshState scope "carry_calc"
  let exit ← freshState scope "exit"
  connect entry first.fragment.entry
  connect first.fragment.exit second.fragment.entry
  connectWhen second.fragment.exit carryCalc (.any [[⟨first.carry, true⟩], [⟨second.carry, true⟩]])
  connect second.fragment.exit exit
  drive carryCalc carry true
  connect carryCalc exit
  copy exit second.sum sum
  let states := entry :: first.fragment.states ++ second.fragment.states ++ [carryCalc, exit]
  return ⟨⟨entry, exit, states⟩, sum, carry⟩

end SignalGraph.Block

/-
Inverting a register in place: each bit is tested, then cleared or set.
-/
import SignalGraph.Design.Wiring

namespace SignalGraph.Block

open Design

/-- The states that invert one bit: `test` leads to `clear` or to `set`. -/
structure InvertedBit where
  test : StateId
  clear : StateId
  set : StateId

/-- Makes the states that invert a bit. -/
def invertBit (scope : String) (bit : SignalId) (i : Nat) : BuildM InvertedBit := do
  let test ← freshState scope s!"test{i}"
  let clear ← freshState scope s!"clear{i}"
  let set ← freshState scope s!"set{i}"
  connectWhen test clear (.when bit true)
  connect test set
  drive clear bit false
  drive set bit true
  return ⟨test, clear, set⟩

/-- Leads from each of the states `last` through the bits to `exit`. -/
def linkBits (exit : StateId) (last : List StateId) : List InvertedBit → BuildM Unit
  | [] => last.forM (connect · exit)
  | bit :: rest => do
    last.forM (connect · bit.test)
    linkBits exit [bit.clear, bit.set] rest

/-- Inverts each bit of a register. -/
def invert (a : Register) : BuildM Fragment := do
  let scope ← reserveScope "flip"
  let entry ← freshState scope "entry"
  let bits ← a.bits.zipIdx.mapM fun (bit, i) => invertBit scope bit i
  let exit ← freshState scope "exit"
  linkBits exit [entry] bits
  return ⟨entry, exit, entry :: bits.flatMap (fun b => [b.test, b.clear, b.set]) ++ [exit]⟩

end SignalGraph.Block

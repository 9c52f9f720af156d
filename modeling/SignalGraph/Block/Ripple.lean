/-
Adders of registers: a full adder for each bit, the carry of one the carry into the next.
-/
import SignalGraph.Block.Adder

namespace SignalGraph.Block

open Design

/-- An adder of registers. -/
structure RippleAdder where
  fragment : Fragment
  sum : Register
  carry : SignalId
  /-- The full adders, the lowest bit first. -/
  stages : List AdderCell

/-- The signals that meet in one bit of a ripple adder. -/
structure BitSlice where
  a : SignalId
  b : SignalId
  sum : SignalId

/-- The bits of two registers and of their sum, as far as all three have them. -/
def bitSlices (a b sum : Register) : List BitSlice :=
  List.zipWith (fun (x, y) s => ⟨x, y, s⟩) (a.bits.zip b.bits) sum.bits

/-- A row of full adders: where it is left, the carry out of it, and its cells. -/
structure CarryChain where
  exit : StateId
  carry : SignalId
  stages : List AdderCell

/-- The full adders for some bits, entered from the state `last` and with the carry
`carryIn` into the first. -/
def carryChain (last : StateId) (carryIn : SignalId) : List BitSlice → BuildM CarryChain
  | [] => return ⟨last, carryIn, []⟩
  | bit :: rest => do
    let stage ← fullAdder bit.a bit.b carryIn
    copy stage.fragment.exit stage.sum bit.sum
    connect last stage.fragment.entry
    let chain ← carryChain stage.fragment.exit stage.carry rest
    return { chain with stages := stage :: chain.stages }

/-- The adder of two registers of the same width and a carry. -/
def addWithCarry (a b : Register) (carryIn : SignalId) : BuildM RippleAdder := do
  let scope ← reserveScope "add"
  let sum ← freshRegister scope "sum" a.width
  let carry ← freshSignal scope "carry"
  let entry ← freshState scope "entry"
  drive entry carry false
  let chain ← carryChain entry carryIn (bitSlices a b sum)
  let carrySet ← freshState scope "carry_set"
  let exit ← freshState scope "exit"
  connectWhen chain.exit carrySet (.when chain.carry true)
  connect chain.exit exit
  drive carrySet carry true
  connect carrySet exit
  let states := entry :: chain.stages.flatMap (·.fragment.states) ++ [carrySet, exit]
  return ⟨⟨entry, exit, states⟩, sum, carry, chain.stages⟩

/-- The signal, or else the constant `false`. -/
def signalOrZero : Option SignalId → BuildM SignalId
  | some s => return s
  | none => zeroSignal

/-- The adder of two registers of the same width: `sum` is `a + b + carryIn` in that width,
and `carry` what does not fit. Without `carryIn` nothing is carried in. -/
def add (a b : Register) (carryIn : Option SignalId := none) : BuildM RippleAdder := do
  requireSameWidth .add a b
  let carryIn ← signalOrZero carryIn
  addWithCarry a b carryIn

end SignalGraph.Block

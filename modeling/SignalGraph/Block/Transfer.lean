/-
Moving registers and loading literals, in one state each.
-/
import SignalGraph.Design.Wiring

namespace SignalGraph.Block

open Design

/-- Two registers that are the same or share no signal: copies are made one after the
other, and between others one would read what another wrote. -/
def requireCopyable (src dst : Register) : BuildM Unit :=
  if src.bits = dst.bits ∨ !src.overlaps dst then return else throw (.operandAlias .move)

/-- Copies a register to another of the same width. -/
def move (src dst : Register) : BuildM Fragment := do
  requireSameWidth .move src dst
  requireCopyable src dst
  let scope ← reserveScope "mov"
  let state ← freshState scope "copy"
  (src.bits.zip dst.bits).forM fun (s, t) => copy state s t
  return .single state

/-- Gives a signal a value. -/
def loadSignal (signal : SignalId) (value : Bool) : BuildM Fragment := do
  let scope ← reserveScope "ld"
  let state ← freshState scope "drive"
  drive state signal value
  return .single state

/-- Gives a register a literal that fits. -/
def loadRegister (r : Register) (value : Word) : BuildM Fragment := do
  requireFits value r.width
  let scope ← reserveScope "ld"
  let state ← freshState scope "drive"
  r.bits.zipIdx.forM fun (bit, i) => drive state bit (value.bit i)
  return .single state

end SignalGraph.Block

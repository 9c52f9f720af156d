/-
Why a step of a design is refused.
-/
import SignalGraph.Check.Violation
import SignalGraph.Fragment
import SignalGraph.Word

namespace SignalGraph

/-- The blocks that are particular about pairs of registers. -/
inductive Operation where
  | add
  | subtract
  | move
deriving DecidableEq, Repr

instance : ToString Operation where
  toString
    | .add => "ADD"
    | .subtract => "SUB"
    | .move => "MOV"

/-- Why a step of construction is refused. -/
inductive BuildError where
  /-- A signal of the name exists. -/
  | signalCollision (name : String)
  | unknownSignal (signal : SignalId)
  | unknownState (state : StateId)
  /-- A register needs a bit. -/
  | zeroWidth (name : String)
  | widthMismatch (op : Operation) (left right : Nat)
  /-- The registers share signals. -/
  | operandAlias (op : Operation)
  /-- The signal keeps its value. -/
  | constantWrite (name : String)
  /-- The state of the label has a default target. -/
  | duplicateDefault (state : String)
  | literalOverflow (value : Word) (width : Nat)
  /-- Nothing to put in sequence. -/
  | emptySequence
  /-- The finished graph has defects. -/
  | invalid (violations : List Violation)
deriving DecidableEq, Repr

def BuildError.message : BuildError → String
  | signalCollision name => s!"Signal name '{name}' is already in use"
  | unknownSignal signal => s!"Signal {signal} does not belong to this context"
  | unknownState state => s!"State {state} does not belong to this context"
  | zeroWidth name => s!"Register '{name}' must have at least one bit"
  | widthMismatch op left right => s!"{op} operands differ in width ({left} vs {right})"
  | operandAlias op => s!"{op} operands must not share signals"
  | constantWrite name => s!"Constant signal '{name}' cannot be written"
  | duplicateDefault state => s!"State '{state}' already has a default transition"
  | literalOverflow value width => s!"Literal {value} does not fit in {width} bits"
  | emptySequence => "Cannot sequence an empty list of fragments"
  | invalid violations =>
    "Synthesized graph failed validation with " ++ toString violations.length ++ " violation(s)"

end SignalGraph

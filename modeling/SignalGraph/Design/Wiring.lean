/-
States of a design, their actions and their edges.

Every handle is checked before anything is changed, so that what a design's tables hold
refers to what they hold.
-/
import SignalGraph.Design.Basic

namespace SignalGraph.Design

/-! ## Checks -/

/-- A signal of the table. -/
def requireSignal (s : SignalId) : BuildM SignalInfo := fun d =>
  match d.signal? s with
  | some info => .ok info d
  | none => .error (.unknownSignal s) d

/-- A signal of the table that is not constant. -/
def requireWritable (s : SignalId) : BuildM Unit := do
  let info ← requireSignal s
  if info.constant then throw (.constantWrite info.name) else return

/-- Two registers of the same width. -/
def requireSameWidth (op : Operation) (a b : Register) : BuildM Unit :=
  if a.width = b.width then return else throw (.widthMismatch op a.width b.width)

/-- A literal that can be written in so many bits. -/
def requireFits (value : Word) (width : Nat) : BuildM Unit :=
  if value.fits width then return else throw (.literalOverflow value width)

/-- A state of the table. -/
def requireState (q : StateId) : BuildM StateNode := fun d =>
  match d.state? q with
  | some node => .ok node d
  | none => .error (.unknownState q) d

/-- A state of the table without a default target. -/
def requireNoDefault (q : StateId) : BuildM Unit := do
  let node ← requireState q
  if node.defaultTarget.isSome then throw (.duplicateDefault node.label) else return

/-! ## States, actions and edges -/

/-- Makes a state without actions and edges. -/
def createState (label : String) : BuildM StateId :=
  modifyGet fun d => (⟨d.states.size⟩, { d with states := d.states.push { label } })

/-- Makes the state for a role in a scope. -/
def freshState (scope role : String) : BuildM StateId := createState (scopedName scope role)

/-- Changes a state that exists. -/
def updateState (q : StateId) (change : StateNode → StateNode) : BuildM Unit := do
  let _ ← requireState q
  modify fun d => { d with states := d.states.modify q.index change }

/-- Lets a state drive a signal. -/
def drive (state : StateId) (signal : SignalId) (value : Bool) : BuildM Unit := do
  requireWritable signal
  updateState state (·.addAction (.drive signal value))

/-- Lets a state copy a signal to another. -/
def copy (state : StateId) (src dst : SignalId) : BuildM Unit := do
  let _ ← requireSignal src
  requireWritable dst
  updateState state (·.addAction (.copy src dst))

/-- Gives a state its default target. -/
def connect (source target : StateId) : BuildM Unit := do
  let _ ← requireState target
  requireNoDefault source
  updateState source fun n => { n with defaultTarget := some target }

/-- Gives a state one more guarded edge, which is tried last. -/
def connectWhen (source target : StateId) (guard : Guard) : BuildM Unit := do
  let _ ← requireState target
  guard.signals.forM fun s => discard (requireSignal s)
  updateState source (·.addTransition source target guard)

end SignalGraph.Design

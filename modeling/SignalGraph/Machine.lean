/-
Machines: programs in execution.

A machine holds a value for each signal of its program and the state that it is in. The
first step also enters the entry, that is, fires its actions; after that each step takes
one transition and enters where it leads. Steps run in `MachineM`: a step that fails says
why, and keeps what it had done before.
-/
import SignalGraph.History
import SignalGraph.Program
import SignalGraph.Register
import SignalGraph.Settings

namespace SignalGraph

/-- Why an operation on a machine is refused. -/
inductive RunError where
  /-- No edge of the state can be taken. -/
  | deadEnd (state : String)
  | stepLimit (limit : Nat)
  | unknownSignal (signal : SignalId)
  /-- The signal keeps its value. -/
  | constantWrite (name : String)
  | valueTooWide (value : Word) (width : Nat)
deriving DecidableEq, Repr

def RunError.message : RunError → String
  | deadEnd state => s!"No transition available from state '{state}'"
  | stepLimit limit => s!"Step limit ({limit}) exceeded before reaching the exit state"
  | unknownSignal signal => s!"Signal {signal} is not part of this program"
  | constantWrite name => s!"Constant signal '{name}' cannot be set"
  | valueTooWide value width => s!"Value {value} does not fit in {width} bits"

/-- A program in execution. -/
structure Machine where
  program : Program
  settings : RunSettings
  values : Array Bool
  current : StateId
  /-- Whether the entry was entered. -/
  started : Bool
  history : History
  /-- The number of the last transition that was taken. -/
  steps : Nat

/-- An operation on a machine. -/
abbrev MachineM := EStateM RunError Machine

/-- What a step did. -/
inductive StepResult where
  | moved (target : StateId)
  | halted
deriving DecidableEq, Repr

namespace Machine

/-- A machine before its first step: signals have their initial values. -/
def new (p : Program) (settings : RunSettings := {}) : Machine :=
  { program := p, settings, values := p.signals.map SignalInfo.initial, current := p.entry,
    started := false, history := .empty, steps := 0 }

def valuation (m : Machine) : Valuation := .ofArray m.values

def isHalted (m : Machine) : Bool := m.started && m.current == m.program.exit

/-- The literal in the lowest 64 bits of a register. -/
def readRegister (m : Machine) (r : Register) : Word := r.word m.valuation

/-- Back to the entry, with the values that signals have. -/
def restart (m : Machine) : Machine :=
  { m with current := m.program.entry, started := false, history := .empty, steps := 0 }

/-! ## Writing -/

/-- Writes a signal that is not constant. -/
def setSignal (s : SignalId) (value : Bool) : MachineM Unit := fun m =>
  match m.program.signal? s with
  | none => .error (.unknownSignal s) m
  | some info =>
    if info.constant then .error (.constantWrite info.name) m
    else .ok () { m with values := m.values.setIfInBounds s.index value }

/-- Writes a literal that fits, bit by bit from the lowest. -/
def setRegister (r : Register) (value : Word) : MachineM Unit :=
  if value.fits r.width then r.bits.zipIdx.forM fun (bit, i) => setSignal bit (value.bit i)
  else throw (.valueTooWide value r.width)

/-! ## Running -/

/-- Fires the actions of a state. -/
def enter (q : StateId) (m : Machine) : Machine :=
  { m with values := (m.program.actions q).foldl Action.fire m.values }

/-- Enters the entry, unless that was done. -/
def start (m : Machine) : Machine :=
  if m.started then m else { m with started := true }.enter m.current

/-- The state that follows the current one. -/
def next (m : Machine) : Except RunError StateId :=
  match m.program.state? m.current with
  | none => .error (.deadEnd (toString m.current))
  | some node =>
    match node.next m.valuation with
    | none => .error (.deadEnd node.label)
    | some target => .ok target

/-- Takes a transition to a state: counts and records it, and enters the state. -/
def moveTo (target : StateId) (m : Machine) : Machine :=
  { m with
    current := target
    history := m.history.record ⟨m.current, target, m.steps + 1⟩
    steps := m.steps + 1 }.enter target

/-- Takes one transition, or finds that the exit is reached. -/
def step : MachineM StepResult := fun m =>
  let m := m.start
  if m.current = m.program.exit then .ok .halted m
  else
    match m.next with
    | .error e => .error e m
    | .ok target => .ok (.moved target) (m.moveTo target)

/-- Takes steps until the exit is reached, and counts their transitions from `taken` on.
When none is allowed any more, one further step tells whether the exit was reached. If it
takes a transition instead, the run has failed, and the machine is where that led. -/
def runFor (limit : Nat) : (allowed taken : Nat) → MachineM Nat
  | 0, taken => fun m =>
    match step m with
    | .ok .halted m => .ok taken m
    | .ok (.moved _) m => .error (.stepLimit limit) m
    | .error e m => .error e m
  | allowed + 1, taken => fun m =>
    match step m with
    | .ok .halted m => .ok taken m
    | .ok (.moved _) m => runFor limit allowed (taken + 1) m
    | .error e m => .error e m

/-- Takes steps until the exit is reached, and counts their transitions. -/
def run : MachineM Nat := fun m => runFor m.settings.maxSteps m.settings.maxSteps 0 m

end Machine

end SignalGraph

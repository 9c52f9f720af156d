/-
Designs: graphs under construction.

A design is the tables of signals and states made so far. Signals have different names,
and `names` finds them by name. Steps of construction run in `BuildM`: a step that fails
says why, and leaves what it had made before the fault.
-/
import SignalGraph.Design.Error
import SignalGraph.Register
import SignalGraph.Settings
import Std.Data.TreeMap

namespace SignalGraph

/-- What tells constant registers apart. -/
inductive ConstantKey where
  /-- A literal in some number of bits. -/
  | literal (value : Word) (width : Nat)
  /-- Ones only, more of them than a literal has. -/
  | ones (width : Nat)
deriving DecidableEq, Repr

/-- The name of a constant register. -/
def ConstantKey.name : ConstantKey → String
  | literal value width => "const." ++ value.hex ++ ".w" ++ toString width
  | ones width => "const.ones.w" ++ toString width

/-- A graph under construction. -/
structure Design where
  settings : DesignSettings
  signals : Array SignalInfo := #[]
  names : Std.TreeMap String SignalId := {}
  states : Array StateNode := #[]
  /-- How many scopes were reserved. -/
  scopes : Nat := 0
  /-- The constant `false`, once it was asked for. -/
  zero : Option SignalId := none
  /-- The constant registers made so far, the last first. -/
  constants : List (ConstantKey × Register) := []

/-- A step of construction. -/
abbrev BuildM := EStateM BuildError Design

namespace Design

def new (settings : DesignSettings := {}) : Design := { settings }

def signal? (d : Design) (s : SignalId) : Option SignalInfo := d.signals[s.index]?

def signalNamed? (d : Design) (name : String) : Option SignalId := d.names[name]?

def state? (d : Design) (q : StateId) : Option StateNode := d.states[q.index]?

/-! ## Signals and registers -/

/-- Makes a signal under a name that is not in use. -/
def addSignal (name : String) (initial constant : Bool) : BuildM SignalId := fun d =>
  if d.names.contains name then .error (.signalCollision name) d
  else
    let s : SignalId := ⟨d.signals.size⟩
    .ok s { d with signals := d.signals.push ⟨name, initial, constant⟩, names := d.names.insert name s }

/-- Makes the signals `name[i]`, `name[i + 1]`, … of a register, as many as are told. The
width may be more than could ever be made: a name in use stops it. -/
def addBitsFrom (name : String) (initial : Nat → Bool) (constant : Bool) (i : Nat) :
    (count : Nat) → BuildM (List SignalId)
  | 0 => return []
  | count + 1 => do
    let bit ← addSignal s!"{name}[{i}]" (initial i) constant
    let rest ← addBitsFrom name initial constant (i + 1) count
    return bit :: rest

/-- Makes the signals of a register, the lowest bit first. -/
def addBits (name : String) (width : Nat) (initial : Nat → Bool) (constant : Bool) :
    BuildM Register := do
  let bits ← addBitsFrom name initial constant 0 width
  return ⟨name, bits⟩

/-- Makes a signal that can be written and starts as `false`. -/
def createSignal (name : String) : BuildM SignalId := addSignal name false false

/-- Makes a register of new signals, at least one. -/
def createRegister (name : String) (width : Nat) : BuildM Register :=
  if width = 0 then throw (.zeroWidth name) else addBits name width (fun _ => false) false

/-- Makes a register of the width that the settings give. -/
def createDefaultRegister (name : String) : BuildM Register := do
  createRegister name (← get).settings.registerWidth

/-! ## Scopes -/

/-- Reserves a scope for the names of one block. -/
def reserveScope (kind : String) : BuildM String :=
  modifyGet fun d => (kind ++ toString d.scopes, { d with scopes := d.scopes + 1 })

/-- The name for a role in a scope. -/
def scopedName (scope role : String) : String := scope ++ "." ++ role

/-- Makes a signal for a role in a scope. -/
def freshSignal (scope role : String) : BuildM SignalId := createSignal (scopedName scope role)

/-- Makes a register for a role in a scope. -/
def freshRegister (scope role : String) (width : Nat) : BuildM Register :=
  createRegister (scopedName scope role) width

/-! ## Constants -/

/-- Makes the constant `false`, and keeps it for the next time. -/
def addZero : BuildM SignalId := do
  let s ← addSignal "const.zero" false true
  modify fun d => { d with zero := some s }
  return s

/-- The constant `false`. -/
def zeroSignal : BuildM SignalId := fun d =>
  match d.zero with
  | some s => .ok s d
  | none => addZero d

/-- Makes the constant register of a key, and keeps it for the next time. -/
def addConstant (key : ConstantKey) (width : Nat) (bit : Nat → Bool) : BuildM Register := do
  let r ← addBits key.name width bit true
  modify fun d => { d with constants := (key, r) :: d.constants }
  return r

/-- The constant register of a key, which is made if it is not there. -/
def constantOr (key : ConstantKey) (make : BuildM Register) : BuildM Register := fun d =>
  match d.constants.lookup key with
  | some r => .ok r d
  | none => make d

/-- The constant register that holds a literal. -/
def constantRegister (value : Word) (width : Nat) : BuildM Register :=
  let key := ConstantKey.literal value width
  constantOr key <|
    if width = 0 then throw (.zeroWidth key.name)
    else if value.fits width then addConstant key width value.bit
    else throw (.literalOverflow value width)

/-- The constant register that holds one. -/
def one (width : Nat) : BuildM Register := constantRegister 1 width

/-- The constant register that holds ones only. -/
def minusOne (width : Nat) : BuildM Register :=
  if width ≤ 64 then constantRegister (.ones (max width 1)) width
  else constantOr (.ones width) (addConstant (.ones width) width fun _ => true)

end Design

end SignalGraph

/-
Settings of designs and of runs.
-/
namespace SignalGraph

/-- Settings of a design: the width of registers made without one, and whether a program
is checked before it is handed out. -/
structure DesignSettings where
  registerWidth : Nat := 8
  validateOnFinish : Bool := true
deriving DecidableEq, Repr

/-- Settings of a machine: how many transitions one run may take. -/
structure RunSettings where
  maxSteps : Nat := 100000
deriving DecidableEq, Repr

/-- Why settings are refused. -/
inductive SettingsError where
  /-- The text is not JSON, or not of the settings' form. -/
  | malformed
  | zeroWidth
  | zeroStepLimit
deriving DecidableEq, Repr

def SettingsError.message : SettingsError → String
  | malformed => "Settings could not be read"
  | zeroWidth => "Register width must be at least 1 bit"
  | zeroStepLimit => "Step limit must be at least 1"

/-- Refuses a register width of zero. -/
def DesignSettings.validate (s : DesignSettings) : Except SettingsError DesignSettings :=
  if s.registerWidth = 0 then .error .zeroWidth else .ok s

/-- Refuses a step limit of zero. -/
def RunSettings.validate (s : RunSettings) : Except SettingsError RunSettings :=
  if s.maxSteps = 0 then .error .zeroStepLimit else .ok s

end SignalGraph

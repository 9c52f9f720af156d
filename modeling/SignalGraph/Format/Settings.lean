/-
The stored form of settings, and settings read from a text.

A field that is missing takes its default. A text is read as a whole, form and all, before
its values are looked at: only well-formed settings can be refused for a zero.
-/
import SignalGraph.Format.Graph
import SignalGraph.Json.Parser
import SignalGraph.Settings

namespace SignalGraph

namespace DesignSettings

def toJson (s : DesignSettings) : Json :=
  .record [("register_width", .nat s.registerWidth), ("validate_on_finish", .bool s.validateOnFinish)]

def ofJson? (v : Json) : Option DesignSettings := do
  match ← v.fields? ["register_width", "validate_on_finish"] with
  | [width, validate] =>
    let defaults : DesignSettings := {}
    return { registerWidth := ← Json.fieldOr defaults.registerWidth (Json.natBelow? countBound) width,
             validateOnFinish := ← Json.fieldOr defaults.validateOnFinish Json.bool? validate }
  | _ => none

/-- The settings that a text holds. -/
def ofText (text : String) : Except SettingsError DesignSettings :=
  match (Json.parse? text).bind ofJson? with
  | some s => s.validate
  | none => .error .malformed

end DesignSettings

namespace RunSettings

def toJson (s : RunSettings) : Json := .record [("max_steps", .nat s.maxSteps)]

def ofJson? (v : Json) : Option RunSettings := do
  match ← v.fields? ["max_steps"] with
  | [limit] =>
    let defaults : RunSettings := {}
    return { maxSteps := ← Json.fieldOr defaults.maxSteps (Json.natBelow? countBound) limit }
  | _ => none

/-- The settings that a text holds. -/
def ofText (text : String) : Except SettingsError RunSettings :=
  match (Json.parse? text).bind ofJson? with
  | some s => s.validate
  | none => .error .malformed

end RunSettings

end SignalGraph

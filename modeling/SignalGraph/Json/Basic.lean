/-
JSON values, as far as records of graphs need them.

The only numbers that a record holds are natural numbers. All other numerals are one
value here: they can be read past, and nothing else. A string literal may escape half of
a surrogate pair without the other half; it is then well formed but spells no text, and
can be read past too. Objects keep their fields in order, repeated names included.
-/
namespace SignalGraph

/-- What a string literal spells; `none` for one with an unpaired surrogate. -/
abbrev Text := Option String

inductive Json where
  | null
  | bool (b : Bool)
  | nat (n : Nat)
  /-- A numeral with a sign, a fraction or an exponent. -/
  | number
  | text (t : Text)
  | arr (items : List Json)
  | obj (fields : List (Text × Json))

namespace Json

/-- A string. -/
def str (s : String) : Json := text (some s)

/-- An object whose names are texts. -/
def record (fields : List (String × Json)) : Json := obj (fields.map fun (name, v) => (some name, v))

/-- An array of values that `write` makes of items. -/
def ofList (write : α → Json) (items : List α) : Json := arr (items.map write)

/-- A value that `write` makes, or `null`. -/
def ofOption (write : α → Json) : Option α → Json
  | some a => write a
  | none => null

def bool? : Json → Option Bool
  | bool b => some b
  | _ => none

def str? : Json → Option String
  | text t => t
  | _ => none

/-- A natural number below `bound`. -/
def natBelow? (bound : Nat) : Json → Option Nat
  | nat n => if n < bound then some n else none
  | _ => none

/-- An array, each item read by `read`. -/
def list? (read : Json → Option α) : Json → Option (List α)
  | arr items => items.mapM read
  | _ => none

/-- `null`, or a value read by `read`. -/
def option? (read : Json → Option α) : Json → Option (Option α)
  | null => some none
  | v => (read v).map some

end Json

end SignalGraph

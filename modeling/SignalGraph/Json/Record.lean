/-
Reading records from JSON values.

A record is an object, in which each of its fields stands at most once, in any order and
among others, which are passed over; or it is the array of its fields in order. A variant
of several is an object with one field, which names the variant and holds its record.
-/
import SignalGraph.Json.Basic

namespace SignalGraph.Json

/-- The only value of a name in an object: `some none` if there is none, and `none` if
there are several. -/
def uniqueField? (fields : List (Text × Json)) (name : String) : Option (Option Json) :=
  match fields.filter fun f => f.1 == some name with
  | [] => some none
  | [f] => some (some f.2)
  | _ => none

/-- The values of a record's fields, `none` for those that are missing. In an array those
at the end may be. -/
def fields? (names : List String) : Json → Option (List (Option Json))
  | obj fields =>
    if fields.all fun f => f.1.isSome then names.mapM (uniqueField? fields) else none
  | arr items =>
    if items.length ≤ names.length then
      some (items.map some ++ List.replicate (names.length - items.length) none)
    else none
  | _ => none

/-- The values of a record's fields, where an array may leave none out. -/
def allFields? (names : List String) : Json → Option (List (Option Json))
  | arr items => if items.length = names.length then some (items.map some) else none
  | v => fields? names v

/-- A field that may be missing. -/
def fieldOr (default : α) (read : Json → Option α) : Option Json → Option α
  | none => some default
  | some v => read v

/-- The name of a variant and its record. -/
def variant? : Json → Option (String × Json)
  | obj [(some name, obj fields)] => some (name, obj fields)
  | _ => none

end SignalGraph.Json

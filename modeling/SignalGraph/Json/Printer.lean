/-
The text of JSON values: on one line, or laid out over lines with an indent of two.

Quotation marks, backslashes and control characters are escaped, the common controls by a
letter; all other characters are written as they are. The values that stand for many
texts are written as one of them: a number that is not natural as `-0`, and a string
literal that spells no text as one with an unpaired surrogate.

Everything is written in front of the characters that follow it, `tail`, so that a long
text is put together once.
-/
import SignalGraph.Json.Basic

namespace SignalGraph

/-- A character of a string literal, the escape of one that cannot stand there. -/
def escapeChar (c : Char) : List Char :=
  if c = '"' then ['\\', '"']
  else if c = '\\' then ['\\', '\\']
  else if c = '\x08' then ['\\', 'b']
  else if c = '\x0c' then ['\\', 'f']
  else if c = '\n' then ['\\', 'n']
  else if c = '\r' then ['\\', 'r']
  else if c = '\t' then ['\\', 't']
  else if c.toNat < 0x20 then
    ['\\', 'u', '0', '0', Nat.digitChar (c.toNat / 16), Nat.digitChar (c.toNat % 16)]
  else [c]

/-- A string literal that spells the text. -/
def writeText (t : Text) (tail : List Char) : List Char :=
  '"' :: (match t with
    | some s => s.toList.flatMap escapeChar
    | none => ['\\', 'u', 'd', '8', '0', '0']) ++ '"' :: tail

/-- How the parts of arrays and objects are set apart. -/
inductive Layout where
  /-- All on one line, without blanks. -/
  | line
  /-- Each item and each field on a line of its own. -/
  | lines

namespace Layout

/-- What stands before a part at a depth. -/
def gap : Layout → Nat → List Char → List Char
  | line, _, tail => tail
  | lines, depth, tail => '\n' :: List.replicate (2 * depth) ' ' ++ tail

/-- What stands between a name and its value. -/
def colon : Layout → List Char → List Char
  | line, tail => ':' :: tail
  | lines, tail => ':' :: ' ' :: tail

end Layout

namespace Json

mutual

/-- The value at a depth. Empty arrays and objects stay on their line. -/
def write (l : Layout) (depth : Nat) : Json → List Char → List Char
  | null, tail => "null".toList ++ tail
  | bool b, tail => (if b then "true" else "false").toList ++ tail
  | nat n, tail => (toString n).toList ++ tail
  | number, tail => "-0".toList ++ tail
  | text t, tail => writeText t tail
  | arr [], tail => '[' :: ']' :: tail
  | arr (v :: rest), tail =>
    '[' :: l.gap (depth + 1) (write l (depth + 1) v
      (writeItems l (depth + 1) rest (l.gap depth (']' :: tail))))
  | obj [], tail => '\x7b' :: '\x7d' :: tail
  | obj ((name, v) :: rest), tail =>
    '\x7b' :: l.gap (depth + 1) (writeText name (l.colon (write l (depth + 1) v
      (writeFields l (depth + 1) rest (l.gap depth ('\x7d' :: tail))))))

/-- The items after the first. -/
def writeItems (l : Layout) (depth : Nat) : List Json → List Char → List Char
  | [], tail => tail
  | v :: rest, tail => ',' :: l.gap depth (write l depth v (writeItems l depth rest tail))

/-- The fields after the first. -/
def writeFields (l : Layout) (depth : Nat) : List (Text × Json) → List Char → List Char
  | [], tail => tail
  | (name, v) :: rest, tail =>
    ',' :: l.gap depth (writeText name (l.colon (write l depth v (writeFields l depth rest tail))))

end

/-- The text of the value on one line. -/
def compact (v : Json) : String := String.ofList (v.write .line 0 [])

/-- The text of the value over lines. -/
def pretty (v : Json) : String := String.ofList (v.write .lines 0 [])

end Json

end SignalGraph

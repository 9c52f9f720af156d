/-
The value that a sequence of tokens denotes.

Tokens are read one at a time against a stack of the arrays and objects that are open, so
that no nesting is too deep. After any token it is known what may follow.
-/
import SignalGraph.Json.Token

namespace SignalGraph

/-- An array or object that is open while a value in it is read. Lists hold what it has so
far, the last first. -/
inductive Frame where
  | arr (items : List Json)
  | obj (fields : List (Text × Json)) (name : Text)

/-- What may follow the tokens read so far. -/
inductive Expect where
  /-- A value. -/
  | value
  /-- The first value of an array, or its end. -/
  | firstItem
  /-- The first name in an object, or its end. -/
  | firstName
  /-- A name in an object that has the fields. -/
  | name (fields : List (Text × Json))
  /-- The colon after a name. -/
  | colon (fields : List (Text × Json)) (name : Text)
  /-- What closes or goes on after a value. -/
  | after (v : Json)

structure Parse where
  stack : List Frame
  expect : Expect

namespace Parse

def start : Parse := ⟨[], .value⟩

/-- Reads a token where a value is expected. -/
def value? (stack : List Frame) : Token → Option Parse
  | .null => some ⟨stack, .after .null⟩
  | .bool b => some ⟨stack, .after (.bool b)⟩
  | .nat n => some ⟨stack, .after (.nat n)⟩
  | .number => some ⟨stack, .after .number⟩
  | .text t => some ⟨stack, .after (.text t)⟩
  | .openArr => some ⟨.arr [] :: stack, .firstItem⟩
  | .openObj => some ⟨stack, .firstName⟩
  | .closeArr | .closeObj | .comma | .colon => none

/-- Reads a token after a value: the value joins the array or object that is open, which
goes on or ends. -/
def after? (v : Json) : List Frame → Token → Option Parse
  | .arr items :: stack, .comma => some ⟨.arr (v :: items) :: stack, .value⟩
  | .arr items :: stack, .closeArr => some ⟨stack, .after (.arr (v :: items).reverse)⟩
  | .obj fields name :: stack, .comma => some ⟨stack, .name ((name, v) :: fields)⟩
  | .obj fields name :: stack, .closeObj => some ⟨stack, .after (.obj ((name, v) :: fields).reverse)⟩
  | _, _ => none

/-- Reads one token. -/
def step? (p : Parse) (t : Token) : Option Parse :=
  match p.expect, t with
  | .value, t => value? p.stack t
  | .firstItem, .closeArr => some ⟨p.stack.tail, .after (.arr [])⟩
  | .firstItem, t => value? p.stack t
  | .firstName, .closeObj => some ⟨p.stack, .after (.obj [])⟩
  | .firstName, .text name => some ⟨p.stack, .colon [] name⟩
  | .name fields, .text name => some ⟨p.stack, .colon fields name⟩
  | .colon fields name, .colon => some ⟨.obj fields name :: p.stack, .value⟩
  | .after v, t => after? v p.stack t
  | _, _ => none

/-- The value read, if the tokens ended here. -/
def finish? (p : Parse) : Option Json :=
  match p.stack, p.expect with
  | [], .after v => some v
  | _, _ => none

end Parse

namespace Json

def ofTokens? (tokens : List Token) : Option Json :=
  (tokens.foldlM Parse.step? Parse.start).bind Parse.finish?

/-- The value that a text denotes. -/
def parse? (s : String) : Option Json := (Token.scan? s.toList).bind ofTokens?

end Json

end SignalGraph

/-
Numerals of JSON: an optional minus sign, digits without a leading zero, and optionally
a fraction and an exponent.

`natValue` reads the numerals of natural numbers, `isNumeral` recognises all. The
grammar is cut off from the left: each function returns what follows its part.
-/
namespace SignalGraph.Numeral

/-- The digits of a natural number: no leading zero but for zero itself. -/
def isNat : List Char → Bool
  | [] => false
  | ['0'] => true
  | c :: cs => c != '0' && (c :: cs).all Char.isDigit

/-- The number that digits denote. -/
def natValue (cs : List Char) : Nat := cs.foldl (fun n c => 10 * n + (c.toNat - '0'.toNat)) 0

def afterSign : List Char → List Char
  | '-' :: cs => cs
  | cs => cs

/-- After one digit or more. -/
def afterDigits? : List Char → Option (List Char)
  | c :: cs => if c.isDigit then some (cs.dropWhile Char.isDigit) else none
  | [] => none

/-- After the whole part, which is zero or does not begin with it. -/
def afterWhole? : List Char → Option (List Char)
  | '0' :: cs => some cs
  | cs => afterDigits? cs

def afterFraction? : List Char → Option (List Char)
  | '.' :: cs => afterDigits? cs
  | cs => some cs

def afterExponentSign : List Char → List Char
  | '+' :: cs => cs
  | '-' :: cs => cs
  | cs => cs

def afterExponent? : List Char → Option (List Char)
  | 'e' :: cs => afterDigits? (afterExponentSign cs)
  | 'E' :: cs => afterDigits? (afterExponentSign cs)
  | cs => some cs

def isNumeral (cs : List Char) : Bool :=
  (afterWhole? (afterSign cs) >>= afterFraction? >>= afterExponent?) == some []

/-- The characters that numerals are made of. -/
def isNumeralChar (c : Char) : Bool := c.isDigit || c ∈ ['-', '+', '.', 'e', 'E']

end SignalGraph.Numeral

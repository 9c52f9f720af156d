/-
The tokens of a JSON text.

A text is read one character at a time. Between two tokens there may be blanks and need
not be: a word or a numeral goes on as long as its characters do. No rule of the grammar
puts two words or numerals next to each other, so nothing is lost by reading the longest.

In a string literal every character stands for its code point and an escape `\uXXXX` for
its code unit; when the literal ends, pairs of surrogate units are joined.
-/
import SignalGraph.Json.Basic
import SignalGraph.Json.Numeral

namespace SignalGraph

inductive Token where
  | openArr
  | closeArr
  | openObj
  | closeObj
  | comma
  | colon
  | null
  | bool (b : Bool)
  | nat (n : Nat)
  | number
  | text (t : Text)
deriving DecidableEq, Repr

namespace Token

def ofPunctuation? : Char → Option Token
  | '[' => some openArr
  | ']' => some closeArr
  | '\x7b' => some openObj
  | '\x7d' => some closeObj
  | ',' => some comma
  | ':' => some colon
  | _ => none

def ofWord? : List Char → Option Token
  | ['n', 'u', 'l', 'l'] => some null
  | ['t', 'r', 'u', 'e'] => some (bool true)
  | ['f', 'a', 'l', 's', 'e'] => some (bool false)
  | _ => none

def ofNumeral? (cs : List Char) : Option Token :=
  if Numeral.isNat cs then some (nat (Numeral.natValue cs))
  else if Numeral.isNumeral cs then some number
  else none

end Token

/-! ## String literals -/

/-- A code unit that begins a surrogate pair. -/
def isHighSurrogate (code : Nat) : Bool := 0xD800 ≤ code && code < 0xDC00

/-- A code unit that ends a surrogate pair. -/
def isLowSurrogate (code : Nat) : Bool := 0xDC00 ≤ code && code < 0xE000

/-- The code point of a surrogate pair. -/
def joinSurrogates (high low : Nat) : Nat := 0x10000 + 0x400 * (high - 0xD800) + (low - 0xDC00)

/-- The characters that code points and units spell, or `none` if a surrogate has no
partner. -/
def charsOfCodes? : List Nat → Option (List Char)
  | [] => some []
  | [code] => if isHighSurrogate code || isLowSurrogate code then none else some [Char.ofNat code]
  | high :: low :: rest =>
    if isHighSurrogate high && isLowSurrogate low then
      (charsOfCodes? rest).map (Char.ofNat (joinSurrogates high low) :: ·)
    else if isHighSurrogate high || isLowSurrogate high then none
    else (charsOfCodes? (low :: rest)).map (Char.ofNat high :: ·)

def Text.ofCodes (codes : List Nat) : Text := (charsOfCodes? codes).map String.ofList

/-- The code point of an escape of one character. -/
def escapedCode? : Char → Option Nat
  | '"' => some 0x22
  | '\\' => some 0x5C
  | '/' => some 0x2F
  | 'b' => some 0x08
  | 'f' => some 0x0C
  | 'n' => some 0x0A
  | 'r' => some 0x0D
  | 't' => some 0x09
  | _ => none

def hexDigit? (c : Char) : Option Nat :=
  if c.isDigit then some (c.toNat - '0'.toNat)
  else if 'a' ≤ c && c ≤ 'f' then some (c.toNat - 'a'.toNat + 10)
  else if 'A' ≤ c && c ≤ 'F' then some (c.toNat - 'A'.toNat + 10)
  else none

/-! ## Reading a text -/

/-- What the characters read last belong to. Lists hold what was read of it, the last
first. -/
inductive ScanMode where
  | blank
  | word (chars : List Char)
  | numeral (chars : List Char)
  | text (codes : List Nat)
  /-- In a string literal, after a backslash. -/
  | escape (codes : List Nat)
  /-- In a string literal, after `\u` and some of its four digits. -/
  | codeUnit (codes : List Nat) (digits value : Nat)

/-- The tokens read so far, the last first, and what was read since. -/
structure Scan where
  tokens : List Token
  mode : ScanMode

def isBlank (c : Char) : Bool := c ∈ [' ', '\t', '\n', '\r']

def isWordChar (c : Char) : Bool := 'a' ≤ c && c ≤ 'z'

namespace Scan

def start : Scan := ⟨[], .blank⟩

/-- The tokens read, if the text ended here. -/
def finish? (s : Scan) : Option (List Token) :=
  match s.mode with
  | .blank => some s.tokens
  | .word chars => (Token.ofWord? chars.reverse).map (· :: s.tokens)
  | .numeral chars => (Token.ofNumeral? chars.reverse).map (· :: s.tokens)
  | .text _ | .escape _ | .codeUnit .. => none

/-- Reads a character that is not part of the token before it. -/
def begin? (tokens : List Token) (c : Char) : Option Scan :=
  if isBlank c then some ⟨tokens, .blank⟩
  else if c = '"' then some ⟨tokens, .text []⟩
  else if isWordChar c then some ⟨tokens, .word [c]⟩
  else if Numeral.isNumeralChar c then some ⟨tokens, .numeral [c]⟩
  else (Token.ofPunctuation? c).map fun t => ⟨t :: tokens, .blank⟩

/-- Reads one character. -/
def step? (s : Scan) (c : Char) : Option Scan :=
  match s.mode with
  | .blank => begin? s.tokens c
  | .word chars =>
    if isWordChar c then some { s with mode := .word (c :: chars) }
    else s.finish?.bind (begin? · c)
  | .numeral chars =>
    if Numeral.isNumeralChar c then some { s with mode := .numeral (c :: chars) }
    else s.finish?.bind (begin? · c)
  | .text codes =>
    if c = '"' then some ⟨.text (.ofCodes codes.reverse) :: s.tokens, .blank⟩
    else if c = '\\' then some { s with mode := .escape codes }
    else if c.toNat < 0x20 then none
    else some { s with mode := .text (c.toNat :: codes) }
  | .escape codes =>
    if c = 'u' then some { s with mode := .codeUnit codes 0 0 }
    else (escapedCode? c).map fun code => { s with mode := .text (code :: codes) }
  | .codeUnit codes digits value =>
    (hexDigit? c).map fun d =>
      if digits = 3 then { s with mode := .text ((16 * value + d) :: codes) }
      else { s with mode := .codeUnit codes (digits + 1) (16 * value + d) }

end Scan

/-- The tokens of a text. -/
def Token.scan? (cs : List Char) : Option (List Token) :=
  ((cs.foldlM Scan.step? Scan.start).bind Scan.finish?).map List.reverse

end SignalGraph

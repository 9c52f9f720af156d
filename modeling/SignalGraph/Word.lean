/-
Words of 64 bits, the literals that registers are loaded with and read as.

A register may be wider than a word. Its bits from 64 on then belong to no bit of the
word and stand for `false`, so every word fits in 64 or more bits.
-/
namespace SignalGraph

/-- A literal: a natural number below `2 ^ 64`. -/
abbrev Word := UInt64

namespace Word

/-- Bit `i` of the literal, `false` from 64 on. -/
def bit (value : Word) (i : Nat) : Bool := value.toNat.testBit i

/-- Whether the literal can be written in `width` bits. -/
def fits (value : Word) (width : Nat) : Bool := value.toNat >>> width == 0

/-- The literal of `width` ones, for a width from 1 to 64. -/
def ones (width : Nat) : Word := .ofNat (Nat.pow 2 width - 1)

/-- The literal with the bits of a list of at most 64, the lowest first. -/
def ofBits (bits : List Bool) : Word := .ofNat (bits.foldr (fun b n => b.toNat + 2 * n) 0)

/-- The literal in hexadecimal, in lower case. -/
def hex (value : Word) : String := "0x" ++ String.ofList (Nat.toDigits 16 value.toNat)

end Word

end SignalGraph

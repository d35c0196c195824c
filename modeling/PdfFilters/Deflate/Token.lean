import PdfFilters.Deflate.Alphabet

/-!
# Data as bytes and copies

A `Token` is a byte, or a copy of bytes that stand some distance back. A copy may reach into what
it is itself putting out, so that a distance of one repeats the last byte. `Token.expand` says
what a token adds to the data before it.

In compressed data a token is one symbol, or two for a copy, each with the extra bits that pick a
number from the range of its symbol.
-/

namespace PdfFilters

/-- A byte, or a copy of `length` bytes that start `distance` back. -/
inductive Token where
  | byte (value : UInt8)
  | copy (length distance : Nat)
  deriving DecidableEq

/-- Repeat the byte that stands `distance` before the end, so many times. -/
def copyBack (distance : Nat) : (length : Nat) → Array UInt8 → Array UInt8
  | 0, data => data
  | length + 1, data => copyBack distance length (data.push (data.getD (data.size - distance) 0))

namespace Token

/-- The data with what the token stands for at the end. -/
def expand (data : Array UInt8) : Token → Array UInt8
  | .byte value => data.push value
  | .copy length distance => copyBack distance length data

/-- The shortest copy. -/
def minLength : Nat := 3

/-- The longest copy. -/
def maxLength : Nat := 258

/-- The greatest distance of a copy. -/
def maxDistance : Nat := 32768

/-- The symbol for a byte or for the length of a copy. -/
def literalSymbol : Token → Nat
  | .byte value => value.toNat
  | .copy length _ => 257 + slotOf lengthSlots length

/-- The symbol for the distance of a copy. -/
def distanceSymbol? : Token → Option Nat
  | .byte _ => none
  | .copy _ distance => some (slotOf distanceSlots distance)

end Token

end PdfFilters

/-!
# How a compressed stream is written down

Compressed data are a sequence of bits, and each byte holds eight of them, the first in its lowest
place. A number of fixed width (`field`) is written lowest bit first as well; a code word
(`codeWord`) is written highest bit first.

The checksum of a stream is two sums modulo 65521 (`Adler`): of the bytes, starting from one, and of
all values that the first sum goes through. It is written as four bytes, the second sum before the
first and the higher byte of each before the lower.
-/

namespace PdfFilters

/-! ## Bits in bytes, lowest first -/

/-- The lowest `width` bits of a number, lowest first. -/
def field (width value : Nat) : List Bool := (List.range width).map value.testBit

/-- The lowest `width` bits of a number, highest first. -/
def codeWord (width value : Nat) : List Bool := (field width value).reverse

/-- The number whose bits, lowest first, these are. -/
def numberOf : List Bool → Nat
  | [] => 0
  | bit :: rest => bit.toNat + 2 * numberOf rest

/-- The bits of a byte. -/
def bitsOfByte (byte : UInt8) : List Bool := field 8 byte.toNat

/-- The bits of some bytes. -/
def bitsOf (bytes : List UInt8) : List Bool := bytes.flatMap bitsOfByte

/-- Pack bits into bytes; the last byte is filled up with zeros. -/
def packBits (bits : List Bool) : List UInt8 :=
  match bits with
  | [] => []
  | bit :: rest =>
    UInt8.ofNat (numberOf ((bit :: rest).take 8)) :: packBits ((bit :: rest).drop 8)
  termination_by bits.length
  decreasing_by simp only [List.length_drop, List.length_cons]; omega

/-- How many bits are missing to the border of a byte. -/
def padding (count : Nat) : Nat := (8 - count % 8) % 8

/-! ## The checksum -/

/-- The two running sums of the checksum. -/
structure Adler where
  bytes : Nat := 1
  sums : Nat := 0
  deriving DecidableEq

namespace Adler

/-- The modulus of both sums, the greatest prime below `2 ^ 16`. -/
def modulus : Nat := 65521

/-- Add one byte. -/
def add (sum : Adler) (byte : UInt8) : Adler :=
  let bytes := (sum.bytes + byte.toNat) % modulus
  ⟨bytes, (sum.sums + bytes) % modulus⟩

/-- The checksum of some bytes. -/
def ofArray (bytes : Array UInt8) : Adler := bytes.foldl add {}

/-- The checksum as it is written. -/
def encoded (sum : Adler) : List UInt8 :=
  [sum.sums / 256, sum.sums, sum.bytes / 256, sum.bytes].map UInt8.ofNat

end Adler

end PdfFilters

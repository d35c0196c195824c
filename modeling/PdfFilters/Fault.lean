/-!
# What can go wrong in a stream filter

A `Fault` is a cause, not a text: each constructor carries what a caller may want to branch on,
and `Fault.message` is the only place where the wording lives. Malformed encoded data is split
further into `Flaw`s, one for each way in which one of the codecs can find its input broken.

`Fault.isUnsupported` separates the one harmless kind (this library does not run that filter, or
not in that direction) from all the others, which mean that the stream or the sink is bad.
-/

namespace PdfFilters

/-- Which way data passes through a filter. -/
inductive Direction where
  /-- From plain bytes to encoded stream data. -/
  | encode
  /-- From encoded stream data back to plain bytes. -/
  | decode
  deriving DecidableEq

/-- A direction named as an activity, as messages show it. -/
def Direction.activity : Direction → String
  | .encode => "encoding"
  | .decode => "decoding"

/-- One hexadecimal digit, in lower case. -/
def lowerHexDigit (n : Nat) : Char :=
  if n < 10 then Char.ofNat (0x30 + n) else Char.ofNat (0x61 + (n - 10))

/-- A byte as messages show it: `0x` and two lower-case hexadecimal digits. -/
def byteText (b : UInt8) : String :=
  "0x" ++ String.ofList [lowerHexDigit (b.toNat / 16), lowerHexDigit (b.toNat % 16)]

/-- The ways in which encoded data can be malformed. -/
inductive Flaw where
  /-- A byte that is neither a hexadecimal digit, nor blank, nor the end mark. -/
  | notHexDigit (byte : UInt8)
  /-- A byte that has no place in base-85 text. -/
  | notBase85 (byte : UInt8)
  /-- The abbreviation of a zero group stands inside another group. -/
  | zeroInsideGroup
  /-- A base-85 group that stands for a number of more than 32 bits. -/
  | groupTooLarge (value : Nat)
  /-- The first half of the end mark is followed by something else than its second half. -/
  | brokenEndMark (byte : UInt8)
  /-- The data stop in the middle of the end mark. -/
  | openEndMark
  /-- A code that is not in the table, with no string before it that could define it. -/
  | codeOutside (code entries : Nat)
  /-- A code whose table entry is missing or stands for no string. -/
  | codeWithoutEntry (code : Nat)
  /-- A flaw that somebody else found, in their words. -/
  | described (text : String)
  deriving DecidableEq

/-- The wording of a flaw. -/
def Flaw.message : Flaw → String
  | .notHexDigit b => "invalid hex digit " ++ byteText b
  | .notBase85 b => "invalid character " ++ byteText b
  | .zeroInsideGroup => "'z' inside a group"
  | .groupTooLarge value => "group value " ++ toString value ++ " exceeds 32 bits"
  | .brokenEndMark b => "expected '>' after '~', found " ++ byteText b
  | .openEndMark => "stream ends after '~'"
  | .codeOutside code entries =>
    "code " ++ toString code ++ " is outside the table of " ++ toString entries ++ " entries"
  | .codeWithoutEntry code => "code " ++ toString code ++ " has no table entry"
  | .described text => text

/-- Why a filter operation failed. -/
inductive Fault where
  /-- The sink refused bytes; the reason is the sink's own. -/
  | sink (reason : String)
  /-- The filter is unknown, or is not implemented in this direction. -/
  | unsupported (filter : String) (direction : Direction)
  /-- The filter's input is malformed at this offset. -/
  | malformed (filter : String) (offset : Nat) (flaw : Flaw)
  /-- A predictor, or a row tag, that does not exist. -/
  | unknownPredictor (value : Int)
  /-- The compressed data were refused while inflating. -/
  | inflating (detail : String)
  /-- The data could not be compressed. -/
  | deflating (detail : String)
  /-- A buffer of this many bytes could not be had. -/
  | outOfMemory (requested : Nat)
  /-- A call came in a state that does not allow it. -/
  | wrongState (expected found : String)
  /-- An entry of the parameter dictionary has an unusable value. -/
  | badParameter (key : String) (value : Int)
  deriving DecidableEq

namespace Fault

/-- The wording of a fault. -/
def message : Fault → String
  | .sink reason => "I/O error: " ++ reason
  | .unsupported filter direction => filter ++ " does not support " ++ direction.activity
  | .malformed filter offset flaw =>
    "Value out of range in " ++ filter ++ " at offset " ++ toString offset ++ ": " ++ flaw.message
  | .unknownPredictor value => "Invalid predictor: " ++ toString value
  | .inflating detail => "Flate decoding error: " ++ detail
  | .deflating detail => "Flate encoding error: " ++ detail
  | .outOfMemory requested =>
    "Out of memory: could not reserve " ++ toString requested ++ " bytes"
  | .wrongState expected found =>
    "Invalid filter state: expected " ++ expected ++ ", found " ++ found
  | .badParameter key value => "Invalid decode parameter /" ++ key ++ ": " ++ toString value

/-- Whether the fault only says that something is not implemented, and nothing about the data. -/
def isUnsupported : Fault → Bool
  | .unsupported _ _ => true
  | _ => false

end Fault

end PdfFilters

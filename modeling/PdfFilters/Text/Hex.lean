import PdfFilters.Catalogue
import PdfFilters.Scan

/-!
# Hexadecimal text

Every byte is written as two digits. Reading skips blanks, takes digits of either case, ends at
the mark `>`, and supplies a zero for a missing last digit.

`Hex` is what a reader remembers between blocks: the first digit of a pair, whether the end mark
has come, and how many bytes it has looked at.
-/

namespace PdfFilters

/-- The state of a reader of hexadecimal text. -/
structure Hex where
  /-- The first digit of a pair whose second one has not come yet. -/
  high : Option UInt8 := none
  /-- The end mark has been seen. -/
  finished : Bool := false
  /-- Bytes read so far, the end mark and what follows it not counted. -/
  offset : Nat := 0
  deriving DecidableEq

namespace Hex

/-- A reader before its first byte. -/
def idle : Hex := {}

/-- The end mark, `>`. -/
def endMark : UInt8 := 0x3E

/-- The bytes that are skipped: null, backspace, tab, line feed, form feed, carriage return and
space. -/
def isBlank (byte : UInt8) : Bool :=
  byte = 0x00 ∨ byte = 0x08 ∨ byte = 0x09 ∨ byte = 0x0A ∨ byte = 0x0C ∨ byte = 0x0D ∨ byte = 0x20

/-- The value of a digit of either case. -/
def digit? (byte : UInt8) : Option UInt8 :=
  if 0x30 ≤ byte ∧ byte ≤ 0x39 then some (byte - 0x30)
  else if 0x41 ≤ byte ∧ byte ≤ 0x46 then some (byte - 0x41 + 10)
  else if 0x61 ≤ byte ∧ byte ≤ 0x66 then some (byte - 0x61 + 10)
  else none

/-- The digit, in upper case, that stands for a value below 16. -/
def digit (value : UInt8) : UInt8 :=
  if value < 10 then value + 0x30 else value - 10 + 0x41

/-- Read one byte. -/
def step (reader : Hex) (byte : UInt8) : Hex × Except Fault (List UInt8) :=
  if reader.finished then (reader, .ok [])
  else if byte = endMark then ({ reader with finished := true }, .ok [])
  else
    let offset := reader.offset
    -- A byte is counted even if it turns out to be wrong; the fault names its own offset.
    let reader := { reader with offset := offset + 1 }
    if isBlank byte then (reader, .ok [])
    else
      match digit? byte, reader.high with
      | none, _ => (reader, .error (.malformed Kind.asciiHex.name offset (.notHexDigit byte)))
      | some value, none => ({ reader with high := some value }, .ok [])
      | some value, some high => ({ reader with high := none }, .ok [high * 16 + value])

/-- Read a block. -/
def decodeBlock (reader : Hex) (block : List UInt8) (sink : Sink) : Reply Hex :=
  scanBlock step reader block sink

/-- End the text: a digit left over is the high half of a last byte. A sink that refuses that byte
leaves the rest of the state as it was. -/
def endDecode (reader : Hex) (sink : Sink) : Reply Hex :=
  match reader.high with
  | none => ⟨idle, sink, .ok ()⟩
  | some high =>
    match sink.write [high * 16] with
    | (sink, .ok ()) => ⟨idle, sink, .ok ()⟩
    | (sink, .error fault) => ⟨{ reader with high := none }, sink, .error fault⟩

/-- The two digits of a byte. -/
def encodeByte (byte : UInt8) : List UInt8 := [digit (byte / 16), digit (byte % 16)]

/-- Write a block as digits. Nothing has to be remembered for the next one. -/
def encodeBlock (reader : Hex) (block : List UInt8) (sink : Sink) : Reply Hex :=
  let (sink, result) := sink.write (block.flatMap encodeByte)
  ⟨reader, sink, result⟩

/-- End the text. No end mark is written. -/
def endEncode (_ : Hex) (sink : Sink) : Reply Hex := ⟨idle, sink, .ok ()⟩

end Hex

end PdfFilters

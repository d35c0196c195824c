import PdfFilters.Catalogue
import PdfFilters.Scan

/-!
# Base-85 text

Four bytes, read as one number with the first byte highest, are written as five digits from `!`
(0) to `u` (84); a group of four zero bytes is written as `z`. A last group of `n` bytes, fewer
than four, takes `n + 1` digits. The text ends with `~>`.

Reading skips blanks. A last group of `n` digits, at least two, stands for `n - 1` bytes: its
missing digits are read as the greatest digit, so that the kept bytes come out as they went in.

`Base85` is what is remembered between blocks. Writing and reading use the same number and the
same count for the group they are in the middle of.
-/

namespace PdfFilters

/-- The state of a writer or a reader of base-85 text. -/
structure Base85 where
  /-- The number that the current group has come to so far. -/
  group : Nat := 0
  /-- Bytes (writing) or digits (reading) in the current group. -/
  count : Nat := 0
  /-- The first half of the end mark has been read. -/
  halfEnded : Bool := false
  /-- The end mark has been read. -/
  finished : Bool := false
  /-- Bytes read so far, those after the end mark not counted. -/
  offset : Nat := 0
  deriving DecidableEq

namespace Base85

/-- Nothing begun. -/
def idle : Base85 := {}

/-- The weight of each digit of a group, the first digit first. -/
def weights : List Nat := [52200625, 614125, 7225, 85, 1]

/-- The greatest number that four bytes hold. -/
def maxGroup : Nat := 0xFFFFFFFF

/-- The digit zero, `!`. -/
def zeroDigit : UInt8 := 0x21

/-- The greatest digit, `u`. -/
def lastDigit : UInt8 := 0x75

/-- The abbreviation of a zero group, `z`. -/
def zeroGroup : UInt8 := 0x7A

/-- The first half of the end mark, `~`. -/
def tilde : UInt8 := 0x7E

/-- The second half of the end mark, `>`. -/
def closing : UInt8 := 0x3E

/-- The bytes that are skipped: null, backspace, tab, line feed, form feed, carriage return, space
and delete. -/
def isBlank (byte : UInt8) : Bool :=
  byte = 0x00 ∨ byte = 0x08 ∨ byte = 0x09 ∨ byte = 0x0A ∨ byte = 0x0C ∨ byte = 0x0D ∨ byte = 0x20
    ∨ byte = 0x7F

/-- The five digits of a number of at most 32 bits, the highest first. -/
def digits (value : Nat) : List UInt8 :=
  weights.map fun weight => UInt8.ofNat (value / weight % 85) + zeroDigit

/-- The four bytes of a number of at most 32 bits, the highest first. -/
def bytes (value : Nat) : List UInt8 :=
  [value >>> 24, value >>> 16, value >>> 8, value].map UInt8.ofNat

/-- The fault of a text that is malformed at the current offset. -/
def fault (reader : Base85) (flaw : Flaw) : Fault :=
  .malformed Kind.ascii85.name reader.offset flaw

/-- The four bytes of a group, if its number has no more than 32 bits. -/
def bytes? (reader : Base85) (value : Nat) : Except Fault (List UInt8) :=
  if value ≤ maxGroup then .ok (bytes value) else .error (reader.fault (.groupTooLarge value))

/-- Read one digit of a group; the fifth completes it. -/
def readDigit (reader : Base85) (digit : Nat) : Base85 × Except Fault (List UInt8) :=
  let group := reader.group + digit * weights.getD reader.count 0
  if reader.count + 1 = 5 then
    match reader.bytes? group with
    | .ok produced => ({ reader with group := 0, count := 0, offset := reader.offset + 1 }, .ok produced)
    -- The group stays as it is, so the end of the text finds it too large once more.
    | .error fault => ({ reader with group, count := 5 }, .error fault)
  else
    ({ reader with group, count := reader.count + 1, offset := reader.offset + 1 }, .ok [])

/-- Read one byte. -/
def step (reader : Base85) (byte : UInt8) : Base85 × Except Fault (List UInt8) :=
  let next := { reader with offset := reader.offset + 1 }
  if reader.finished then (reader, .ok [])
  else if reader.halfEnded then
    if byte = closing then ({ next with halfEnded := false, finished := true }, .ok [])
    else (reader, .error (reader.fault (.brokenEndMark byte)))
  else if zeroDigit ≤ byte ∧ byte ≤ lastDigit then reader.readDigit (byte - zeroDigit).toNat
  else if byte = zeroGroup then
    if reader.count = 0 then (next, .ok [0, 0, 0, 0])
    else (reader, .error (reader.fault .zeroInsideGroup))
  else if byte = tilde then ({ next with halfEnded := true }, .ok [])
  else if isBlank byte then (next, .ok [])
  else (reader, .error (reader.fault (.notBase85 byte)))

/-- Read a block. -/
def decodeBlock (reader : Base85) (block : List UInt8) (sink : Sink) : Reply Base85 :=
  scanBlock step reader block sink

/-- The number of an incomplete group, its missing digits read as the greatest digit. -/
def paddedGroup (reader : Base85) : Nat :=
  (weights.drop reader.count).foldl (fun group weight => group + 84 * weight) reader.group

/-- End the text: write the bytes of an incomplete last group. A last group of a single digit
stands for nothing. -/
def endDecode (reader : Base85) (sink : Sink) : Reply Base85 :=
  if reader.halfEnded then ⟨reader, sink, .error (reader.fault .openEndMark)⟩
  else if reader.count ≤ 1 then ⟨idle, sink, .ok ()⟩
  else
    match reader.bytes? reader.paddedGroup with
    | .error fault => ⟨reader, sink, .error fault⟩
    | .ok last =>
      match sink.write (last.take (reader.count - 1)) with
      | (sink, .ok ()) => ⟨idle, sink, .ok ()⟩
      | (sink, .error fault) => ⟨reader, sink, .error fault⟩

/-- The text of a group of so many bytes. -/
def groupText (group count : Nat) : List UInt8 :=
  let value := group % (maxGroup + 1)
  if count = 4 ∧ value = 0 then [zeroGroup] else (digits value).take (count + 1)

/-- Write one byte into the current group; the fourth completes it. -/
def encodeStep (writer : Base85) (byte : UInt8) : Base85 × Except Fault (List UInt8) :=
  let group := writer.group ||| byte.toNat <<< (24 - 8 * writer.count)
  if writer.count + 1 = 4 then ({ writer with group := 0, count := 0 }, .ok (groupText group 4))
  else ({ writer with group, count := writer.count + 1 }, .ok [])

/-- Write a block as digits. -/
def encodeBlock (writer : Base85) (block : List UInt8) (sink : Sink) : Reply Base85 :=
  scanBlock encodeStep writer block sink

/-- End the text: write an incomplete last group and the end mark. A sink that refuses them does
not get the group again. -/
def endEncode (writer : Base85) (sink : Sink) : Reply Base85 :=
  let last := if writer.count = 0 then [] else groupText writer.group writer.count
  match sink.write (last ++ [tilde, closing]) with
  | (sink, .ok ()) => ⟨idle, sink, .ok ()⟩
  | (sink, .error fault) => ⟨{ writer with group := 0, count := 0 }, sink, .error fault⟩

end Base85

end PdfFilters

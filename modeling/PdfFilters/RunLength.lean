import PdfFilters.Catalogue
import PdfFilters.Scan

/-!
# Runs

Data in runs, each behind a length byte: a length `n` below 128 is followed by `n + 1` bytes that
stand for themselves, a length `n` above 128 by one byte that stands for `257 - n` copies, and 128
ends the data. No input is wrong: data that stop inside a run have lost the rest of it, and what
follows the end is not looked at.

`RunLength` is the place inside a run at which a reader stands. `Run` is a whole run and `Run.code`
its encoded form.
-/

namespace PdfFilters

/-- Where a reader of runs stands. -/
inductive RunLength where
  /-- Before a length byte. -/
  | length
  /-- Inside a literal run, with so many bytes to go. -/
  | literal (left : Nat)
  /-- Before the byte that is to be put out so many times. -/
  | copies (count : Nat)
  /-- After the end of the data. -/
  | done
  deriving DecidableEq

namespace RunLength

/-- Before the first run. -/
def idle : RunLength := .length

/-- The length byte that ends the data. -/
def endOfData : UInt8 := 128

/-- Where a reader stands after this length byte. -/
def afterLength (byte : UInt8) : RunLength :=
  if byte = endOfData then .done
  else if byte < endOfData then .literal (byte.toNat + 1)
  -- Lengths beyond the mark count downwards, from 128 copies to two.
  else .copies (257 - byte.toNat)

/-- Read one byte. -/
def step (reader : RunLength) (byte : UInt8) : RunLength × Except Fault (List UInt8) :=
  match reader with
  | .length => (afterLength byte, .ok [])
  | .literal left => (if left ≤ 1 then .length else .literal (left - 1), .ok [byte])
  | .copies count => (.length, .ok (List.replicate count byte))
  | .done => (.done, .ok [])

/-- Read a block. -/
def decodeBlock (reader : RunLength) (block : List UInt8) (sink : Sink) : Reply RunLength :=
  scanBlock step reader block sink

/-- End the data, which may be anywhere. -/
def endDecode (_ : RunLength) (sink : Sink) : Reply RunLength := ⟨idle, sink, .ok ()⟩

end RunLength

/-- A run: bytes that stand for themselves, or a byte and how often it occurs. -/
inductive Run where
  | literal (bytes : List UInt8)
  | copies (count : Nat) (byte : UInt8)
  deriving DecidableEq

namespace Run

/-- Whether the run fits behind one length byte. -/
def Fits : Run → Prop
  | .literal bytes => 1 ≤ bytes.length ∧ bytes.length ≤ 128
  | .copies count _ => 2 ≤ count ∧ count ≤ 128

/-- The bytes that the run stands for. -/
def content : Run → List UInt8
  | .literal bytes => bytes
  | .copies count byte => List.replicate count byte

/-- The encoded form of a run: its length byte, and its bytes or its one byte. -/
def code : Run → List UInt8
  | .literal bytes => UInt8.ofNat (bytes.length - 1) :: bytes
  | .copies count byte => [UInt8.ofNat (257 - count), byte]

end Run

end PdfFilters

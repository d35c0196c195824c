import PdfFilters.Fault
import PdfFilters.Parameters

/-!
# The standard filters

The ten filters that a document may name, with their full and abbreviated names, and what this
library does with each: five have a codec here, three of those also encode, and two of them may
carry rows that went through a predictor.

`Kind.ofName?` finds a filter by either of its names. Names are compared letter by letter, case
included.
-/

namespace PdfFilters

/-- A filter of the standard. -/
inductive Kind where
  | asciiHex
  | ascii85
  | lzw
  | flate
  | runLength
  | ccittFax
  | jbig2
  | dct
  | jpx
  | crypt
  deriving DecidableEq

namespace Kind

/-- All the standard filters, in the order in which the standard lists them. -/
def all : List Kind :=
  [.asciiHex, .ascii85, .lzw, .flate, .runLength, .ccittFax, .jbig2, .dct, .jpx, .crypt]

/-- The full name. -/
def name : Kind → String
  | .asciiHex => "ASCIIHexDecode"
  | .ascii85 => "ASCII85Decode"
  | .lzw => "LZWDecode"
  | .flate => "FlateDecode"
  | .runLength => "RunLengthDecode"
  | .ccittFax => "CCITTFaxDecode"
  | .jbig2 => "JBIG2Decode"
  | .dct => "DCTDecode"
  | .jpx => "JPXDecode"
  | .crypt => "Crypt"

/-- The short name that inline images may use, where the filter has one. -/
def abbreviation? : Kind → Option String
  | .asciiHex => some "AHx"
  | .ascii85 => some "A85"
  | .lzw => some "LZW"
  | .flate => some "Fl"
  | .runLength => some "RL"
  | .ccittFax => some "CCF"
  | .dct => some "DCT"
  | .jbig2 | .jpx | .crypt => none

/-- Whether there is a codec for the filter here. -/
def isImplemented : Kind → Bool
  | .asciiHex | .ascii85 | .lzw | .flate | .runLength => true
  | .ccittFax | .jbig2 | .dct | .jpx | .crypt => false

/-- Whether the filter runs in this direction: each codec decodes, and three of them encode. -/
def supports : Kind → Direction → Bool
  | kind, .decode => kind.isImplemented
  | .asciiHex, .encode | .ascii85, .encode | .flate, .encode => true
  | _, .encode => false

/-- Whether the filter's parameters may ask for a predictor. -/
def acceptsPredictor : Kind → Bool
  | .lzw | .flate => true
  | _ => false

/-- The filter with this full or short name, given with its solidus or without. -/
def ofName? (name : String) : Option Kind :=
  let bare := bareName name
  all.find? fun kind => kind.name == bare || kind.abbreviation? == some bare

/-- Every filter is found by its full name. -/
theorem ofName?_name (kind : Kind) : ofName? kind.name = some kind := by
  cases kind <;> decide +kernel

/-- The filter with this name, or the fault that a stream naming it ends in. -/
def ofName (name : String) : Except Fault Kind :=
  match ofName? name with
  | some kind => .ok kind
  | none => .error (.unsupported name .decode)

end Kind

end PdfFilters

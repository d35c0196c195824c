import PdfFilters.Fault
import PdfFilters.Rows.Layout

/-!
# Variable-width codes

A `CodeSpace` fixes how codes are numbered and how wide they are. The first half of the codes of
the smallest width are single bytes; the next two reset the table and end the data; the ones after
that are for strings met on the way. Codes grow by a bit when the table reaches a threshold: the
first size that the old width cannot number, or one entry earlier if the width changes early.

Streams use one of two spaces, `CodeSpace.early` and `CodeSpace.late`, told apart by an entry of
the parameter dictionary.
-/

namespace PdfFilters

/-- How codes are numbered, and when they get wider. -/
structure CodeSpace where
  /-- The width of the first codes. -/
  minBits : Nat
  /-- The greatest width. -/
  maxBits : Nat
  /-- Codes grow one table entry before they have to. -/
  earlyChange : Bool
  minBits_pos : 0 < minBits := by decide
  deriving DecidableEq

namespace CodeSpace

/-- Codes of 9 to 12 bits that grow one entry early. -/
def early : CodeSpace := { minBits := 9, maxBits := 12, earlyChange := true }

/-- Codes of 9 to 12 bits that grow when they have to. -/
def late : CodeSpace := { minBits := 9, maxBits := 12, earlyChange := false }

/-- The space that a stream uses if it says nothing else. -/
def standard : CodeSpace := early

/-- The space that the dictionary entries ask for. -/
def ofPrediction (prediction : Prediction) : Except Fault CodeSpace :=
  if prediction.earlyChange = 1 then .ok early
  else if prediction.earlyChange = 0 then .ok late
  else .error (.badParameter "EarlyChange" prediction.earlyChange)

/-- The code that resets the table. -/
def clearCode (space : CodeSpace) : Nat := 1 <<< (space.minBits - 1)

/-- The code that ends the data. -/
def endCode (space : CodeSpace) : Nat := space.clearCode + 1

/-- The first code that is given to a string met on the way. -/
def firstCode (space : CodeSpace) : Nat := space.endCode + 1

/-- The number of entries that a table can have. -/
def tableLimit (space : CodeSpace) : Nat := 1 <<< space.maxBits

/-- The table size at which codes of this width get wider. -/
def threshold (space : CodeSpace) (width : Nat) : Nat :=
  (1 <<< width) - (if space.earlyChange then 1 else 0)

end CodeSpace

/-- For each width that a table can have, the mask that keeps a code of that width. -/
def codeMasks : List Nat := [9, 10, 11, 12].map fun width => (1 <<< width) - 1

end PdfFilters

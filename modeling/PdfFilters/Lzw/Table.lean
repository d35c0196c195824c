import PdfFilters.Lzw.CodeSpace

/-!
# The table of strings

A `StringTable` lists the strings that codes stand for, and knows the width of the codes that
number it. It starts with the single bytes, and with two empty strings in the places of the codes
that stand for no string. Strings are added until the table is full, and the width grows with it
at the thresholds of the code space.
-/

namespace PdfFilters

/-- The strings that codes stand for, and the width of a code. -/
structure StringTable where
  strings : Array (List UInt8)
  width : Nat
  width_pos : 0 < width

namespace StringTable

/-- The strings at the start: every byte on its own, and nothing for the two codes after them. -/
def initialStrings : Array (List UInt8) :=
  (((List.range 256).map fun n => [UInt8.ofNat n]) ++ [[], []]).toArray

/-- The table at the start of the data and after every reset. -/
def initial (space : CodeSpace) : StringTable :=
  { strings := initialStrings, width := space.minBits, width_pos := space.minBits_pos }

/-- The number of entries. -/
def size (table : StringTable) : Nat := table.strings.size

/-- The entry for a code. -/
def get? (table : StringTable) (code : Nat) : Option (List UInt8) := table.strings[code]?

/-- Whether there is no room for another entry. -/
def isFull (space : CodeSpace) (table : StringTable) : Bool := space.tableLimit ≤ table.size

/-- The table with a string added, and the width grown if a threshold is reached. A full table
stays as it is. -/
def push (space : CodeSpace) (table : StringTable) (string : List UInt8) : StringTable :=
  if table.isFull space then table
  else
    match table with
    | ⟨strings, width, width_pos⟩ =>
      let strings := strings.push string
      if width < space.maxBits ∧ space.threshold width ≤ strings.size then
        ⟨strings, width + 1, Nat.succ_pos width⟩
      else ⟨strings, width, width_pos⟩

end StringTable

end PdfFilters

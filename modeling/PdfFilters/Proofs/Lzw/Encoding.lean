import PdfFilters.Lzw.Decoder
import PdfFilters.Proofs.Bits

/-!
# Encodings with variable-width codes

An encoder keeps a table of strings. It starts with the single bytes, and after each code it assigns
the string of that code with the next byte of the data to the next free code (`assign`). Which string
it looks up is up to it, as long as the data go on with that string, and so is when it resets its
table. `LzwEncoding` is the relation between such an encoder, the data that it has still to encode,
and the bits that it puts out.

The width of a code depends on how many codes have been put out since the last reset, and not on the
table: the decoder has to know it (`codeWidth`).
-/

namespace PdfFilters

/-- The number of entries that a full table has. -/
def fullTable : Nat := 4096

/-- The first code that is assigned. -/
def firstAssigned : Nat := 258

/-- How wide a code is after so many codes for strings since the last reset: 9 bits, and one more for
each threshold that the table of a decoder has reached. Codes may grow `early` entries before they
have to. -/
def codeWidth (early count : Nat) : Nat :=
  9 + [512 - early, 1024 - early, 2048 - early].countP
    (· ≤ min fullTable (firstAssigned + (count - 1)))

/-- The string that a code stands for, given those that have been assigned to codes. -/
def stringOf? (assigned : List (List UInt8)) (code : Nat) : Option (List UInt8) :=
  if code < 256 then some [UInt8.ofNat code]
  else if code < firstAssigned then none
  else assigned[code - firstAssigned]?

/-- Assign a string with the next byte to the next code, if there is a next byte and a code left. -/
def assign (assigned : List (List UInt8)) (string rest : List UInt8) : List (List UInt8) :=
  match rest with
  | [] => assigned
  | next :: _ =>
    if firstAssigned + assigned.length < fullTable then assigned ++ [string ++ [next]]
    else assigned

/-- At most one string is assigned, and only if there is a code left. -/
theorem length_assign (assigned : List (List UInt8)) (string rest : List UInt8) :
    (assign assigned string rest).length = assigned.length
      ∨ (firstAssigned + assigned.length < fullTable
        ∧ (assign assigned string rest).length = assigned.length + 1) := by
  cases rest with
  | nil => exact .inl rfl
  | cons next rest =>
    rw [assign]
    split
    next room => exact .inr ⟨room, by rw [List.length_append, List.length_singleton]⟩
    next => exact .inl rfl

/-- What an encoder may put out for its data. It is given by the strings that it has assigned and by
the number of codes for strings that it has put out since the last reset. -/
inductive LzwEncoding (early : Nat) :
    (assigned : List (List UInt8)) → (count : Nat) → (data : List UInt8) → List Bool → Prop
  /-- At the end of the data it says so. -/
  | finish {assigned : List (List UInt8)} {count : Nat} :
    LzwEncoding early assigned count [] (codeWord (codeWidth early count) 257)
  /-- It may reset its table at any time. -/
  | clear {assigned : List (List UInt8)} {count : Nat} {data : List UInt8} {bits : List Bool} :
    LzwEncoding early [] 0 data bits →
    LzwEncoding early assigned count data (codeWord (codeWidth early count) 256 ++ bits)
  /-- It may put out the code of any string with which the data go on. -/
  | string {assigned : List (List UInt8)} {count code : Nat} {string rest : List UInt8}
    {bits : List Bool} :
    stringOf? assigned code = some string → string ≠ [] →
    LzwEncoding early (assign assigned string rest) (count + 1) rest bits →
    LzwEncoding early assigned count (string ++ rest)
      (codeWord (codeWidth early count) code ++ bits)

/-- The four widths, and the tables that have them. -/
theorem codeWidth_cases {early : Nat} (small : early ≤ 1) (count : Nat) :
    let size := min fullTable (firstAssigned + (count - 1))
    (codeWidth early count = 9 ∧ size < 512 - early)
      ∨ (codeWidth early count = 10 ∧ 512 - early ≤ size ∧ size < 1024 - early)
      ∨ (codeWidth early count = 11 ∧ 1024 - early ≤ size ∧ size < 2048 - early)
      ∨ (codeWidth early count = 12 ∧ 2048 - early ≤ size) := by
  intro size
  have width : codeWidth early count
      = 9 + ((((0 + if 2048 - early ≤ size then 1 else 0)
        + if 1024 - early ≤ size then 1 else 0) + if 512 - early ≤ size then 1 else 0)) := by
    simp only [codeWidth, List.countP_cons, List.countP_nil, decide_eq_true_eq, size]
  rw [width]
  split <;> split <;> split <;> omega

/-- The code space in which codes grow so many entries early. -/
structure CodeSpace.Grows (space : CodeSpace) (early : Nat) : Prop where
  minBits_eq : space.minBits = 9
  maxBits_eq : space.maxBits = 12
  early_eq : (if space.earlyChange then 1 else 0) = early

namespace CodeSpace.Grows

variable {space : CodeSpace} {early : Nat}

theorem early_le (grows : space.Grows early) : early ≤ 1 := by
  have := grows.early_eq
  split at this <;> omega

theorem clearCode_eq (grows : space.Grows early) : space.clearCode = 256 := by
  rw [clearCode, grows.minBits_eq]
  rfl

theorem endCode_eq (grows : space.Grows early) : space.endCode = 257 := by
  rw [endCode, grows.clearCode_eq]

theorem tableLimit_eq (grows : space.Grows early) : space.tableLimit = fullTable := by
  rw [tableLimit, grows.maxBits_eq]
  rfl

theorem threshold_eq (grows : space.Grows early) (width : Nat) :
    space.threshold width = (1 <<< width) - early := by
  rw [threshold, grows.early_eq]

/-- A table with one more entry has wider codes if it reaches the threshold of its width. -/
theorem codeWidth_succ (grows : space.Grows early) {count : Nat} (some : 0 < count)
    (room : firstAssigned + (count - 1) < fullTable) :
    codeWidth early (count + 1) =
      if codeWidth early count < space.maxBits
        ∧ space.threshold (codeWidth early count) ≤ firstAssigned + (count - 1) + 1
      then codeWidth early count + 1 else codeWidth early count := by
  have small := grows.early_le
  rw [grows.maxBits_eq, grows.threshold_eq]
  have here := codeWidth_cases small count
  have there := codeWidth_cases small (count + 1)
  have size : min fullTable (firstAssigned + (count + 1 - 1))
      = min fullTable (firstAssigned + (count - 1)) + 1 := by omega
  have size' : min fullTable (firstAssigned + (count - 1)) = firstAssigned + (count - 1) := by omega
  simp only [size, size'] at here there
  -- Thresholds are further apart than one entry, so at most one of them is reached by it.
  rcases here with ⟨width, _⟩ | ⟨width, _, _⟩ | ⟨width, _, _⟩ | ⟨width, _⟩ <;>
    rw [width] <;> simp only [Nat.one_shiftLeft] <;> split <;> omega

end CodeSpace.Grows

theorem nine_le_codeWidth (early count : Nat) : 9 ≤ codeWidth early count := Nat.le_add_right _ _

/-- The codes that are in use fit into their width. -/
theorem lt_codeWidth {early count code : Nat} (small : early ≤ 1)
    (used : code ≤ firstAssigned + (count - 1)) (below : code < fullTable) :
    code < 1 <<< codeWidth early count := by
  unfold fullTable firstAssigned at *
  have cases := codeWidth_cases small count
  unfold fullTable firstAssigned at cases
  rcases cases with ⟨width, _⟩ | ⟨width, _, _⟩ | ⟨width, _, _⟩ | ⟨width, _⟩ <;>
    rw [width, Nat.one_shiftLeft] <;> omega

end PdfFilters

import PdfFilters.Lzw.Decoder
import PdfFilters.Proofs.Cut
import PdfFilters.Proofs.Lzw.BitQueue

/-!
# Reading codes from a list of bits

The decoder reads codes from a queue that it loads from its bytes. What it reads are the codes of one
list of bits: those in the queue, and then those of the bytes. `readBits` reads codes from such a
list, as long as there are bits enough, and says where it stopped (`Reading`).

Bits that come later are read from where the earlier ones stopped (`readBits_append`). So a decoder
that reads the codes of a list reads the same in pieces as at once.
-/

namespace PdfFilters

namespace Book

/-- What reading one code emits. -/
def reading (space : CodeSpace) (book : Book) (bits code : Nat) : Emission Book :=
  match book.string bits code with
  | .error fault => .quiet (.error fault)
  | .ok string =>
    ⟨string, (book.addition? space bits string).map fun addition =>
      book.advance space addition code⟩

theorem emits_read (space : CodeSpace) (book : Book) (bits code : Nat) :
    Emits (fun sink => (book.read space bits code sink).outcome) (book.reading space bits code) := by
  intro sink
  simp only [read, reading]
  cases book.string bits code with
  | error fault => exact (sink.absorb_quiet _).symm
  | ok string =>
    dsimp only
    rw [Sink.absorb]
    cases sink.write string with
    | mk next answer =>
      cases answer with
      | error fault => rfl
      | ok _ => cases book.addition? space bits string <;> rfl

/-- Adding to the table makes codes at most as wide as the code space lets them be. -/
theorem width_advance {space : CodeSpace} {book : Book} (narrow : book.table.width ≤ space.maxBits)
    (addition : Option (List UInt8)) (code : Nat) :
    (book.advance space addition code).table.width ≤ space.maxBits := by
  obtain ⟨table, previous⟩ := book
  cases addition with
  | none => exact narrow
  | some string =>
    show (table.push space string).width ≤ space.maxBits
    rw [StringTable.push]
    split
    · exact narrow
    · simp only
      split
      next grows => exact grows.1
      next => exact narrow

/-- Reading a code keeps codes narrow. -/
theorem width_reading {space : CodeSpace} {book next : Book} {bits code : Nat}
    (narrow : book.table.width ≤ space.maxBits)
    (read : (book.reading space bits code).result = .ok next) :
    next.table.width ≤ space.maxBits := by
  rw [reading] at read
  split at read
  · cases read
  · next string _ =>
    simp only at read
    cases added : book.addition? space bits string with
    | error fault => rw [added] at read; cases read
    | ok addition =>
      rw [added] at read
      cases read
      exact width_advance narrow addition code

end Book

/-- Where reading codes from a list of bits stopped: what is known then, how many bits were taken,
the bits that are left, and whether the code that ends the data has been read. -/
structure Reading where
  book : Book
  taken : Nat
  bits : List Bool
  finished : Bool

theorem Book.drop_code_lt {book : Book} {bits : List Bool}
    (long : book.table.width ≤ bits.length) :
    (bits.drop book.table.width).length < bits.length := by
  have := book.table.width_pos
  rw [List.length_drop]
  omega

/-- Read codes from a list of bits, as long as there are bits enough for the next one. -/
def readBits (space : CodeSpace) (book : Book) (taken : Nat) (bits : List Bool) :
    Emission Reading :=
  let width := book.table.width
  if short : bits.length < width then .quiet (.ok ⟨book, taken, bits, false⟩)
  else
    have := book.drop_code_lt (Nat.le_of_not_lt short)
    let code := highNumberOf (bits.take width)
    if code = space.clearCode then
      readBits space (.initial space) (taken + width) (bits.drop width)
    else if code = space.endCode then .quiet (.ok ⟨book, taken + width, [], true⟩)
    else
      (book.reading space (taken + width) code).andThen fun next =>
        readBits space next (taken + width) (bits.drop width)
  termination_by bits.length
  decreasing_by all_goals assumption

/-- Read on with bits that come later. After the end of the data they are not looked at. -/
def Reading.resume (space : CodeSpace) (reading : Reading) (more : List Bool) : Emission Reading :=
  if reading.finished then .quiet (.ok reading)
  else readBits space reading.book reading.taken (reading.bits ++ more)

theorem readBits_of_short {space : CodeSpace} {book : Book} {bits : List Bool}
    (short : bits.length < book.table.width) (taken : Nat) :
    readBits space book taken bits = .quiet (.ok ⟨book, taken, bits, false⟩) := by
  rw [readBits, dif_pos short]

theorem readBits_of_long {space : CodeSpace} {book : Book} {bits : List Bool}
    (long : book.table.width ≤ bits.length) (taken : Nat) :
    readBits space book taken bits =
      if highNumberOf (bits.take book.table.width) = space.clearCode then
        readBits space (.initial space) (taken + book.table.width) (bits.drop book.table.width)
      else if highNumberOf (bits.take book.table.width) = space.endCode then
        .quiet (.ok ⟨book, taken + book.table.width, [], true⟩)
      else
        (book.reading space (taken + book.table.width)
            (highNumberOf (bits.take book.table.width))).andThen fun next =>
          readBits space next (taken + book.table.width) (bits.drop book.table.width) := by
  rw [readBits, dif_neg (Nat.not_lt.mpr long)]

/-- Bits that come later are read from where the earlier ones stopped. -/
theorem readBits_append (space : CodeSpace) (book : Book) (taken : Nat) (bits more : List Bool) :
    readBits space book taken (bits ++ more)
      = (readBits space book taken bits).andThen fun reading => reading.resume space more := by
  by_cases short : bits.length < book.table.width
  · -- Nothing is read before the later bits have come, and then all of them are.
    rw [readBits_of_short short]
    rfl
  · have long : book.table.width ≤ bits.length := Nat.le_of_not_lt short
    -- The first code is read from the earlier bits alone, and fewer of them are left.
    have := book.drop_code_lt long
    rw [readBits_of_long (by rw [List.length_append]; omega), readBits_of_long long,
      List.take_append_of_le_length long, List.drop_append_of_le_length long]
    split
    · exact readBits_append space _ _ _ more
    · split
      · rfl
      · rw [Emission.andThen_assoc]
        congr 1
        funext next
        exact readBits_append space next _ _ more
  termination_by bits.length
  decreasing_by all_goals assumption

/-- Reading on twice is reading on with all the bits. -/
theorem Reading.resume_append (space : CodeSpace) (reading : Reading) (first second : List Bool) :
    (reading.resume space first).andThen (·.resume space second)
      = reading.resume space (first ++ second) := by
  obtain ⟨book, taken, bits, finished⟩ := reading
  cases finished with
  | true => rfl
  | false =>
    show (readBits space book taken (bits ++ first)).andThen _
      = readBits space book taken (bits ++ (first ++ second))
    rw [← List.append_assoc, readBits_append space book taken (bits ++ first)]

end PdfFilters

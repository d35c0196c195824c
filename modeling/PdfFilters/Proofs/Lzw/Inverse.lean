import PdfFilters.Deflate.Engine
import PdfFilters.Proofs.Lzw.Encoding
import PdfFilters.Proofs.Session

/-!
# Decoding inverts every encoding

The decoder learns the table of the encoder one entry later, because an entry ends with the first
byte of the string that comes next. `Book.Follows` is this relation between the two: the encoder has
assigned what the decoder knows, and what comes of the last string and the next byte of the data.
A code keeps it up (`exists_reading_of_follows`), also the one code that the decoder does not know
yet: its string is the last one with its own first byte behind it.

So the decoder reads back the data of any encoding (`readBits_of_encoding`), whatever comes behind
it in the stream (`run_of_encoding`).
-/

namespace PdfFilters

variable {space : CodeSpace} {early : Nat}

theorem StringTable.isFull_iff (grows : space.Grows early) {table : StringTable} :
    table.isFull space = true ↔ fullTable ≤ table.size := by
  rw [isFull, grows.tableLimit_eq, decide_eq_true_eq]

theorem StringTable.push_of_room {table : StringTable} (room : ¬ table.isFull space = true)
    (string : List UInt8) :
    (table.push space string).strings = table.strings.push string
      ∧ (table.push space string).width =
        if table.width < space.maxBits ∧ space.threshold table.width ≤ table.size + 1
        then table.width + 1 else table.width := by
  obtain ⟨strings, width, positive⟩ := table
  rw [push, if_neg room]
  simp only [size, Array.size_push]
  split
  next grown => exact ⟨rfl, (if_pos grown).symm⟩
  next short => exact ⟨rfl, (if_neg short).symm⟩

namespace Book

/-- The decoder knows these strings, after so many codes for strings. -/
structure Knows (book : Book) (early count : Nat) (known : List (List UInt8)) : Prop where
  strings_eq : book.table.strings.toList = StringTable.initialStrings.toList ++ known
  width_eq : book.table.width = codeWidth early count
  size_eq : firstAssigned + known.length = min fullTable (firstAssigned + (count - 1))

/-- The decoder is one entry behind the encoder, which has still to encode the data. -/
inductive Follows (early : Nat) (data : List UInt8) (book : Book) :
    (assigned : List (List UInt8)) → (count : Nat) → Prop
  /-- After a reset neither has any strings but the single bytes. -/
  | reset : book.Knows early 0 [] → book.previous = none → Follows early data book [] 0
  /-- After a code the encoder has assigned its string with the next byte. -/
  | code {known : List (List UInt8)} {count code : Nat} {first : UInt8} {rest : List UInt8} :
    book.Knows early (count + 1) known → book.previous = some code →
    stringOf? known code = some (first :: rest) →
    Follows early data book (assign known (first :: rest) data) (count + 1)

namespace Knows

variable {book : Book} {count : Nat} {known : List (List UInt8)}

theorem length_initialStrings : StringTable.initialStrings.toList.length = firstAssigned := by
  simp [StringTable.initialStrings, firstAssigned]

theorem size_table (knows : book.Knows early count known) :
    book.table.size = firstAssigned + known.length := by
  rw [StringTable.size, ← Array.length_toList, knows.strings_eq, List.length_append,
    length_initialStrings]

/-- Looking a code up in the table, when the code stands for a string. -/
theorem get?_eq (knows : book.Knows early count known) {code : Nat} (string : code ≠ 256)
    (string' : code ≠ 257) : book.table.get? code = stringOf? known code := by
  rw [StringTable.get?, ← Array.getElem?_toList, knows.strings_eq, stringOf?]
  by_cases byte : code < 256
  · rw [if_pos byte, List.getElem?_append_left (by rw [length_initialStrings, firstAssigned]; omega)]
    simp [StringTable.initialStrings, List.getElem?_append, byte]
  · have later : firstAssigned ≤ code := by
      rw [firstAssigned]
      omega
    rw [if_neg byte, if_neg (Nat.not_lt.mpr later),
      List.getElem?_append_right (by rw [length_initialStrings]; exact later),
      length_initialStrings]

theorem isFull_iff (grows : space.Grows early) (knows : book.Knows early count known) :
    book.table.isFull space = true ↔ fullTable ≤ firstAssigned + known.length := by
  rw [StringTable.isFull_iff grows, knows.size_table]

/-- Adding a string to a table with room. -/
theorem push (grows : space.Grows early) (knows : book.Knows early (count + 1) known)
    (room : firstAssigned + known.length < fullTable) (string : List UInt8) (code : Nat) :
    (book.advance space (some string) code).Knows early (count + 2) (known ++ [string]) := by
  have notFull : ¬ book.table.isFull space = true := by
    rw [knows.isFull_iff grows]
    exact Nat.not_le.mpr room
  have size := knows.size_eq
  have used : firstAssigned + known.length = firstAssigned + (count + 1 - 1) := by omega
  have width := grows.codeWidth_succ (Nat.succ_pos count) (used ▸ room)
  obtain ⟨strings, wider⟩ := StringTable.push_of_room notFull string
  refine ⟨?_, ?_, ?_⟩
  · show (book.table.push space string).strings.toList = _
    rw [strings, Array.toList_push, knows.strings_eq, List.append_assoc]
  · show (book.table.push space string).width = _
    rw [wider, knows.size_table, knows.width_eq, used, width]
  · rw [List.length_append, List.length_singleton]
    omega

/-- Where the table is full, or the first code has only been read, nothing is added. -/
theorem keep (knows : book.Knows early count known)
    (same : count = 0 ∨ fullTable ≤ firstAssigned + known.length) (code : Nat) :
    (book.advance space none code).Knows early (count + 1) known := by
  have size := knows.size_eq
  have sizes : min fullTable (firstAssigned + (count + 1 - 1))
      = min fullTable (firstAssigned + (count - 1)) := by omega
  refine ⟨knows.strings_eq, ?_, ?_⟩
  · show book.table.width = _
    rw [knows.width_eq, codeWidth, codeWidth, sizes]
  · rw [sizes]
    exact size

end Knows

theorem entry_eq {book : Book} {bits code : Nat} {first : UInt8} {rest : List UInt8}
    (found : book.table.get? code = some (first :: rest)) :
    book.entry bits code = .ok (first, rest) := by
  rw [entry, found]

theorem reading_eq {book : Book} {bits code : Nat} {string : List UInt8}
    {addition : Option (List UInt8)} (meaning : book.string bits code = .ok string)
    (added : book.addition? space bits string = .ok addition) :
    book.reading space bits code = ⟨string, .ok (book.advance space addition code)⟩ := by
  rw [reading, meaning]
  dsimp only
  rw [added]
  rfl

/-- The codes that reset the table and end the data stand for no string. -/
theorem ne_of_stringOf? {assigned : List (List UInt8)} {code : Nat} {string : List UInt8}
    (found : stringOf? assigned code = some string) : code ≠ 256 ∧ code ≠ 257 := by
  constructor
  · rintro rfl
    cases found
  · rintro rfl
    cases found

/-- A string that is known by one of two lists is known by the first, or is the last one. -/
theorem stringOf?_concat {known : List (List UInt8)} {last string : List UInt8} {code : Nat}
    (found : stringOf? (known ++ [last]) code = some string) :
    stringOf? known code = some string
      ∨ (stringOf? known code = none ∧ string = last) := by
  rw [stringOf?] at found ⊢
  by_cases byte : code < 256
  · rw [if_pos byte] at found ⊢
    exact .inl found
  · rw [if_neg byte] at found ⊢
    by_cases early : code < firstAssigned
    · rw [if_pos early] at found
      cases found
    · rw [if_neg early] at found ⊢
      by_cases old : code - firstAssigned < known.length
      · rw [List.getElem?_append_left old] at found
        exact .inl found
      · rw [List.getElem?_append_right (Nat.le_of_not_lt old)] at found
        obtain ⟨_, same⟩ := List.getElem?_eq_some_iff.mp found
        rw [List.getElem_singleton] at same
        exact .inr ⟨List.getElem?_eq_none (Nat.le_of_not_lt old), same.symm⟩

theorem lt_of_stringOf? {assigned : List (List UInt8)} {code : Nat} {string : List UInt8}
    (found : stringOf? assigned code = some string) : code < firstAssigned + assigned.length := by
  rw [stringOf?] at found
  unfold firstAssigned at *
  split at found
  · omega
  · split at found
    · cases found
    · obtain ⟨used, -⟩ := List.getElem?_eq_some_iff.mp found
      omega

/-- A code keeps the decoder one entry behind. -/
theorem exists_reading_of_follows (grows : space.Grows early) {book : Book}
    {assigned : List (List UInt8)} {count code : Nat} {string rest : List UInt8}
    (follows : book.Follows early (string ++ rest) assigned count)
    (found : stringOf? assigned code = some string) (some : string ≠ []) (bits : Nat) :
    ∃ next, book.reading space bits code = ⟨string, .ok next⟩
      ∧ next.Follows early rest (assign assigned string rest) (count + 1) := by
  obtain ⟨apart, apart'⟩ := ne_of_stringOf? found
  obtain ⟨head, tail, rfl⟩ := List.exists_cons_of_ne_nil some
  cases follows with
  | reset knows fresh =>
    -- There is no earlier string that the first byte could belong to.
    have meaning : book.string bits code = .ok (head :: tail) := by
      rw [string, knows.get?_eq apart apart', found]
    have added : book.addition? space bits (head :: tail) = .ok none := by
      rw [addition?, fresh]
    exact ⟨_, reading_eq meaning added, .code (knows.keep (.inl rfl) code) rfl found⟩
  | @code known count previous first other knows read entry =>
    have last : ∀ bits, book.entry bits previous = .ok (first, other) := fun bits =>
      entry_eq ((knows.get?_eq (ne_of_stringOf? entry).1 (ne_of_stringOf? entry).2).trans entry)
    by_cases room : firstAssigned + known.length < fullTable
    · -- The entry that the encoder has assigned already is defined now.
      have assigned : assign known (first :: other) (head :: tail ++ rest)
          = known ++ [first :: (other ++ [head])] := by
        rw [List.cons_append, assign, if_pos room, List.cons_append]
      rw [assigned] at found ⊢
      have meaning : book.string bits code = .ok (head :: tail) := by
        rw [string, knows.get?_eq apart apart', read]
        rcases stringOf?_concat found with known | ⟨unknown, same⟩
        · rw [known]
        · -- The encoder uses the entry that it has just made, which starts like the last string.
          rw [unknown, same]
          obtain rfl := (List.cons.inj same).1
          simp only [last]
          rfl
      have notFull : ¬ book.table.isFull space = true := by
        rw [knows.isFull_iff grows]
        exact Nat.not_le.mpr room
      have added : book.addition? space bits (head :: tail)
          = .ok (.some (first :: (other ++ [head]))) := by
        rw [addition?, read]
        dsimp only
        rw [if_neg notFull, last]
        rfl
      exact ⟨_, reading_eq meaning added, .code (knows.push grows room _ code) rfl found⟩
    · -- With a full table neither of them makes an entry, and they stay level.
      have assigned : assign known (first :: other) (head :: tail ++ rest) = known := by
        rw [List.cons_append, assign, if_neg room]
      rw [assigned] at found ⊢
      have meaning : book.string bits code = .ok (head :: tail) := by
        rw [string, knows.get?_eq apart apart', found]
      have added : book.addition? space bits (head :: tail) = .ok none := by
        rw [addition?, read]
        dsimp only
        rw [if_pos ((knows.isFull_iff grows).mpr (Nat.le_of_not_lt room))]
      exact ⟨_, reading_eq meaning added,
        .code (knows.keep (.inr (Nat.le_of_not_lt room)) code) rfl found⟩

end Book

/-- Reading a code that stands before other bits. -/
theorem readBits_codeWord {book : Book} {code : Nat} (fits : code < 1 <<< book.table.width)
    (taken : Nat) (bits : List Bool) :
    readBits space book taken (codeWord book.table.width code ++ bits) =
      if code = space.clearCode then
        readBits space (.initial space) (taken + book.table.width) bits
      else if code = space.endCode then
        .quiet (.ok ⟨book, taken + book.table.width, [], true⟩)
      else
        (book.reading space (taken + book.table.width) code).andThen fun next =>
          readBits space next (taken + book.table.width) bits := by
  have length := length_codeWord book.table.width code
  rw [readBits_of_long (by rw [List.length_append, length]; omega), List.take_left' length,
    List.drop_left' length, highNumberOf_codeWord, Nat.mod_eq_of_lt fits]

theorem knows_initial (grows : space.Grows early) : (Book.initial space).Knows early 0 [] := by
  refine ⟨?_, ?_, rfl⟩
  · rw [List.append_nil]
    rfl
  · show space.minBits = _
    rw [grows.minBits_eq]
    have size := codeWidth_cases grows.early_le 0
    simp only [fullTable, firstAssigned] at size
    have := grows.early_le
    omega

namespace Book.Follows

variable {data : List UInt8} {book : Book} {assigned : List (List UInt8)} {count : Nat}

theorem width_eq (follows : book.Follows early data assigned count) :
    book.table.width = codeWidth early count := by
  cases follows with
  | reset knows _ => exact knows.width_eq
  | code knows _ _ => exact knows.width_eq

/-- The codes that the encoder may use fit into their width. -/
theorem fits (grows : space.Grows early) (follows : book.Follows early data assigned count)
    {code : Nat} {string : List UInt8} (found : stringOf? assigned code = some string) :
    code < 1 <<< book.table.width := by
  rw [follows.width_eq]
  have used := lt_of_stringOf? found
  cases follows with
  | reset _ _ =>
    rw [List.length_nil] at used
    exact lt_codeWidth grows.early_le (by omega) (by unfold firstAssigned fullTable at *; omega)
  | @code known count _ _ _ knows _ _ =>
    have size := knows.size_eq
    -- The encoder may be one entry ahead, so its newest code is the size of the table at most.
    have full : firstAssigned ≤ fullTable := by decide
    refine lt_codeWidth grows.early_le ?_ ?_ <;>
      rcases length_assign known _ data with length | ⟨room, length⟩ <;>
      rw [length] at used <;> omega

/-- So do the codes that reset the table and end the data. -/
theorem marker_fits (follows : book.Follows early data assigned count) {code : Nat}
    (marker : code < 512) : code < 1 <<< book.table.width := by
  refine Nat.lt_of_lt_of_le marker ?_
  rw [follows.width_eq, Nat.one_shiftLeft]
  show 2 ^ 9 ≤ 2 ^ codeWidth early count
  exact Nat.pow_le_pow_right Nat.two_pos (nine_le_codeWidth early count)

end Book.Follows

/-- The decoder reads back the data of an encoding, and comes to its end. -/
theorem readBits_of_encoding (grows : space.Grows early) {assigned : List (List UInt8)}
    {count : Nat} {data : List UInt8} {bits : List Bool}
    (encoding : LzwEncoding early assigned count data bits) {book : Book}
    (follows : book.Follows early data assigned count) (taken : Nat) (more : List Bool) :
    ∃ last, readBits space book taken (bits ++ more) = ⟨data, .ok last⟩ := by
  induction encoding generalizing book taken with
  | finish =>
    rw [← follows.width_eq, readBits_codeWord (follows.marker_fits (by decide)),
      if_neg (by rw [grows.clearCode_eq]; decide), if_pos grows.endCode_eq.symm]
    exact ⟨_, rfl⟩
  | @clear _ _ data bits _ ih =>
    rw [← follows.width_eq, List.append_assoc, readBits_codeWord (follows.marker_fits (by decide)),
      if_pos grows.clearCode_eq.symm]
    exact ih (.reset (knows_initial grows) rfl) _
  | @string _ _ code string rest bits found some _ ih =>
    obtain ⟨apart, apart'⟩ := Book.ne_of_stringOf? found
    rw [← follows.width_eq, List.append_assoc, readBits_codeWord (follows.fits grows found),
      if_neg (by rw [grows.clearCode_eq]; exact apart),
      if_neg (by rw [grows.endCode_eq]; exact apart')]
    obtain ⟨next, read, onward⟩ := Book.exists_reading_of_follows grows follows found some
      (taken + book.table.width)
    obtain ⟨last, ended⟩ := ih onward (taken + book.table.width)
    rw [read, Emission.andThen_ok, ended]
    exact ⟨last, rfl⟩

/-- The session that parameters without a predictor ask for. -/
theorem exists_openSession_of_plain {parameters : Option Parameters} (small : early ≤ 1)
    (asked : (Prediction.ofParameters parameters).earlyChange = early)
    (plain : (Prediction.ofParameters parameters).isActive = false) :
    ∃ space : CodeSpace, space.Grows early
      ∧ Lzw.openSession parameters = .ok ⟨.start space, none⟩ := by
  rcases Nat.le_one_iff_eq_zero_or_eq_one.mp small with rfl | rfl
  · refine ⟨.late, ⟨rfl, rfl, rfl⟩, ?_⟩
    simp only [Lzw.openSession, CodeSpace.ofPrediction, asked, plain]
    rfl
  · refine ⟨.early, ⟨rfl, rfl, rfl⟩, ?_⟩
    simp only [Lzw.openSession, CodeSpace.ofPrediction, asked, plain]
    rfl

/-- Decoding gives the data of any encoding back, with whatever comes behind it to fill the last byte
and after it. -/
theorem run_of_encoding [Host] {data : List UInt8} {bits : List Bool}
    (encoding : LzwEncoding early [] 0 data bits) {stream : List UInt8}
    (written : bits <+: highBitsOf stream) {parameters : Option Parameters} (small : early ≤ 1)
    (asked : (Prediction.ofParameters parameters).earlyChange = early)
    (plain : (Prediction.ofParameters parameters).isActive = false) (state : Lzw) :
    ((Filter.lzw state).run .decode parameters stream).2 = .ok data := by
  obtain ⟨space, grows, opened⟩ := exists_openSession_of_plain small asked plain
  obtain ⟨more, split⟩ := written
  obtain ⟨last, read⟩ := readBits_of_encoding grows encoding
    (.reset (knows_initial grows) rfl) 0 more
  have narrow : space.IsNarrow := by
    rw [CodeSpace.IsNarrow, grows.minBits_eq, grows.maxBits_eq]
    decide
  have sound := LzwDecoder.isSound_start narrow
  have begun : (Filter.lzw state).begin .decode parameters
      = (Codec.lzwReading.filter (.start space), .ok ()) := by
    simp only [Filter.begin, Lzw.beginDecode, opened]
    rfl
  have alike := LzwDecoder.decoded_alike narrow sound.2 stream
  have whole : (LzwDecoder.start space).reading.resume space (highBitsOf stream)
      = readBits space (.initial space) 0 (bits ++ more) := by
    rw [split]
    rfl
  rw [whole, read] at alike
  cases decoded : (LzwDecoder.start space).decoded stream with
  | mk bytes result =>
    rw [decoded] at alike
    cases alike with
    | ok shows =>
      rw [Session.run_of_begin .lzwReading sound begun decoded rfl, List.append_nil]

/-- Three equal bytes: the second code is the one that the decoder does not know yet. -/
theorem run_of_encoding_again :
    ((Filter.lzw .idle).run .decode none [0x20, 0xC0, 0xA0, 0x27, 0xFF]).2 = .ok [65, 65, 65] := by
  have last : LzwEncoding 1 [[65, 65]] 2 [] (codeWord (codeWidth 1 2) 257) := .finish
  have second : LzwEncoding 1 [[65, 65]] 1 ([65, 65] ++ [])
      (codeWord (codeWidth 1 1) 258 ++ codeWord (codeWidth 1 2) 257) :=
    .string rfl (by decide) last
  have first : LzwEncoding 1 [] 0 ([65] ++ [65, 65])
      (codeWord (codeWidth 1 0) 65
        ++ (codeWord (codeWidth 1 1) 258 ++ codeWord (codeWidth 1 2) 257)) :=
    .string rfl (by decide) second
  exact run_of_encoding first (by decide) (by decide) rfl rfl .idle

end PdfFilters

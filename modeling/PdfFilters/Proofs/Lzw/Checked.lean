import PdfFilters.Proofs.Lzw.Invariant

/-!
# Decoding with machine words and unguarded lookups

A decoder in a machine keeps its bits in a word of 32 bits and counts them in a byte; it looks the
mask of a code up by its width, and the first byte of a string without asking whether there is one.
`LzwDecoder.feedChecked` does all this and has no answer where the machine would have none: where
bits would be shifted out of the word, where a count would not fit, or where a lookup would miss.

In every state that a decoder can come to it has the answer of `LzwDecoder.feed`
(`LzwDecoder.steady_feedAll`), because the table and the register are as they should be.
-/

namespace PdfFilters

namespace BitQueue

/-- Load bytes into a word of 32 bits, whose bits are counted in a byte. -/
def loadChecked (queue : BitQueue) : List UInt8 → Option (BitQueue × List UInt8)
  | [] => some (queue, [])
  | byte :: rest =>
    if queue.count ≤ 16 then
      if queue.value <<< 8 < 1 <<< 32 ∧ queue.count + 8 < 1 <<< 8 then
        loadChecked { queue with
          value := queue.value <<< 8 ||| byte.toNat, count := queue.count + 8 } rest
      else none
    else some (queue, byte :: rest)

/-- Take a code with the mask of its width, and count the bits taken up to a limit. -/
def takeChecked (limit : Nat) (queue : BitQueue) (width : Nat) :
    Option (Option (Nat × BitQueue)) :=
  if queue.count < width then some none
  else
    let left := queue.count - width
    if 9 ≤ width ∧ left < 32 ∧ queue.taken + width < limit then
      codeMasks[width - 9]?.map fun mask =>
        some (queue.value >>> left &&& mask,
          { value := queue.value &&& (1 <<< left) - 1, count := left, taken := queue.taken + width })
    else none

variable {queue : BitQueue}

/-- Shifting a byte in is adding it to the number. -/
theorem shiftLeft_or (value : Nat) (byte : UInt8) :
    value <<< 8 ||| byte.toNat = value * 256 + byte.toNat := by
  rw [← Nat.shiftLeft_add_eq_or_of_lt byte.toNat_lt, Nat.shiftLeft_eq]

/-- There is always room for a byte where one is loaded. -/
theorem loadChecked_eq (tidy : queue.IsTidy) (bytes : List UInt8) :
    queue.loadChecked bytes = some (queue.load bytes) := by
  induction bytes generalizing queue with
  | nil => rfl
  | cons byte rest ih =>
    rw [loadChecked, load]
    by_cases room : queue.count ≤ 16
    · have small : queue.value <<< 8 < 1 <<< 32 := by
        have le : 2 ^ queue.count ≤ 2 ^ 16 := Nat.pow_le_pow_right Nat.two_pos room
        rw [IsTidy, Nat.one_shiftLeft] at tidy
        rw [Nat.shiftLeft_eq, Nat.one_shiftLeft]
        omega
      have counted : queue.count + 8 < 1 <<< 8 := by
        rw [Nat.one_shiftLeft]
        omega
      rw [if_pos room, if_pos ⟨small, counted⟩, if_pos room, shiftLeft_or]
      exact ih (isTidy_push tidy byte)
    · rw [if_neg room, if_neg room]

/-- The masks are those of the widths that a table can have. -/
theorem codeMasks_eq {width : Nat} (low : 9 ≤ width) (high : width ≤ 12) :
    codeMasks[width - 9]? = some ((1 <<< width) - 1) := by
  rcases (by omega : width = 9 ∨ width = 10 ∨ width = 11 ∨ width = 12) with rfl | rfl | rfl | rfl <;>
    rfl

/-- Masking what is there already changes nothing. -/
theorem takeChecked_eq (tidy : queue.IsTidy) (few : queue.count ≤ 24) {width : Nat}
    (low : 9 ≤ width) (high : width ≤ 12) {limit : Nat}
    (counted : queue.taken + queue.count < limit) :
    queue.takeChecked limit width = some (queue.take? width) := by
  rw [takeChecked, take?]
  by_cases short : queue.count < width
  · rw [if_pos short, if_pos short]
  · have fits : queue.value >>> (queue.count - width) < 2 ^ width := by
      rw [IsTidy, Nat.one_shiftLeft, ← Nat.sub_add_cancel (Nat.le_of_not_lt short),
        Nat.pow_add] at tidy
      rw [Nat.shiftRight_eq_div_pow]
      exact Nat.div_lt_of_lt_mul tidy
    rw [if_neg short, if_neg short]
    dsimp only
    rw [if_pos ⟨low, by omega, by omega⟩, codeMasks_eq low high]
    simp only [Nat.one_shiftLeft, Nat.and_two_pow_sub_one_eq_mod, Nat.mod_eq_of_lt fits,
      Option.map_some]

theorem count_of_loadChecked {queue loaded : BitQueue} {bytes rest : List UInt8}
    (load : queue.loadChecked bytes = some (loaded, rest)) :
    loaded.count + 8 * rest.length = queue.count + 8 * bytes.length := by
  induction bytes generalizing queue with
  | nil =>
    cases load
    rfl
  | cons byte bytes ih =>
    rw [loadChecked] at load
    split at load
    · split at load
      · have := ih load
        simp only [List.length_cons] at this ⊢
        omega
      · cases load
    · cases load
      rfl

theorem count_of_takeChecked {queue left : BitQueue} {limit width code : Nat}
    (take : queue.takeChecked limit width = some (some (code, left))) :
    left.count + width = queue.count := by
  rw [takeChecked] at take
  split at take
  · cases take
  · dsimp only at take
    split at take
    · obtain ⟨mask, -, same⟩ := Option.map_eq_some_iff.mp take
      cases same
      dsimp only
      omega
    · cases take

end BitQueue

namespace Book

/-- The whole entry of a code that was read before. -/
def wholeEntry (book : Book) (bits code : Nat) : Except Fault (List UInt8) :=
  match book.table.get? code with
  | none => .error (fault bits (.codeWithoutEntry code))
  | some string =>
    if string = [] then .error (fault bits (.codeWithoutEntry code)) else .ok string

/-- The string that a code stands for, with the first byte of the string before looked up. -/
def stringChecked (book : Book) (bits code : Nat) : Option (Except Fault (List UInt8)) :=
  match book.table.get? code, book.previous with
  | some string, _ => some (.ok string)
  | none, some previous =>
    match book.wholeEntry bits previous with
    | .error fault => some (.error fault)
    | .ok before => before[0]?.map fun first => .ok (before ++ [first])
  | none, none => some (.error (fault bits (.codeOutside code book.table.size)))

/-- What is added to the table, with the first byte of the string looked up. -/
def additionChecked (space : CodeSpace) (book : Book) (bits : Nat) (string : List UInt8) :
    Option (Except Fault (Option (List UInt8))) :=
  match book.previous with
  | none => some (.ok none)
  | some previous =>
    if book.table.isFull space then some (.ok none)
    else
      match book.wholeEntry bits previous with
      | .error fault => some (.error fault)
      | .ok before => string[0]?.map fun first => .ok (some (before ++ [first]))

/-- Decode one code. -/
def readChecked (space : CodeSpace) (book : Book) (bits code : Nat) (sink : Sink) :
    Option (Reply Book) :=
  match book.stringChecked bits code with
  | none => none
  | some (.error fault) => some ⟨book, sink, .error fault⟩
  | some (.ok string) =>
    match sink.write string with
    | (sink, .error fault) => some ⟨book, sink, .error fault⟩
    | (sink, .ok ()) =>
      match book.additionChecked space bits string with
      | none => none
      | some (.error fault) => some ⟨book, sink, .error fault⟩
      | some (.ok addition) => some ⟨book.advance space addition code, sink, .ok ()⟩

variable {space : CodeSpace} {early : Nat} {book : Book}

theorem wholeEntry_eq (bits code : Nat) :
    book.wholeEntry bits code = (book.entry bits code).map fun (first, rest) => first :: rest := by
  rw [wholeEntry, entry]
  cases book.table.get? code with
  | none => rfl
  | some string => cases string <;> rfl

/-- The string before has a first byte, because an empty one is refused. -/
theorem stringChecked_eq (bits code : Nat) :
    book.stringChecked bits code = some (book.string bits code) := by
  rw [stringChecked, Book.string]
  cases book.table.get? code with
  | some string => rfl
  | none =>
    cases book.previous with
    | none => rfl
    | some previous =>
      simp only [wholeEntry_eq]
      cases book.entry bits previous <;> rfl

/-- A string has a first byte. -/
theorem additionChecked_eq {string : List UInt8} (filled : string ≠ []) (bits : Nat) :
    book.additionChecked space bits string = some (book.addition? space bits string) := by
  obtain ⟨head, tail, rfl⟩ := List.exists_cons_of_ne_nil filled
  rw [additionChecked, addition?]
  cases book.previous with
  | none => rfl
  | some previous =>
    simp only [wholeEntry_eq]
    split
    · rfl
    · cases book.entry bits previous <;> rfl

theorem readChecked_eq (built : book.table.IsBuilt early) {code : Nat} (apart : code ≠ 256)
    (apart' : code ≠ 257) (bits : Nat) (sink : Sink) :
    book.readChecked space bits code sink = some (book.read space bits code sink) := by
  rw [readChecked, read, stringChecked_eq]
  cases meaning : book.string bits code with
  | error fault => rfl
  | ok string =>
    dsimp only
    rw [additionChecked_eq (string_ne_nil built apart apart' meaning)]
    rcases sink.write string with ⟨rest, fault | done⟩
    · rfl
    · cases book.addition? space bits string <;> rfl

end Book

namespace LzwDecoder

/-- Decode all codes that are complete. -/
def readCodesChecked (limit : Nat) (space : CodeSpace) (book : Book) (queue : BitQueue)
    (bytes : List UInt8) (sink : Sink) : Option (Reply LzwDecoder) :=
  match hload : queue.loadChecked bytes with
  | none => none
  | some (loaded, rest) =>
    match htake : loaded.takeChecked limit book.table.width with
    | none => none
    | some none => some ⟨{ space, book, queue := loaded }, sink, .ok ()⟩
    | some (some (code, left)) =>
      have : left.count + 8 * rest.length < queue.count + 8 * bytes.length := by
        have := BitQueue.count_of_loadChecked hload
        have := BitQueue.count_of_takeChecked htake
        have := book.table.width_pos
        omega
      if code = space.clearCode then readCodesChecked limit space (.initial space) left rest sink
      else if code = space.endCode then
        some ⟨{ space, book, queue := left, finished := true }, sink, .ok ()⟩
      else
        match book.readChecked space left.taken code sink with
        | none => none
        | some ⟨next, sink, .ok ()⟩ => readCodesChecked limit space next left rest sink
        | some ⟨next, sink, .error fault⟩ =>
          some ⟨{ space, book := next, queue := left }, sink, .error fault⟩
  termination_by queue.count + 8 * bytes.length

/-- Decode a block. -/
def feedChecked (limit : Nat) (decoder : LzwDecoder) (block : List UInt8) (sink : Sink) :
    Option (Reply LzwDecoder) :=
  match decoder with
  | ⟨space, book, queue, true⟩ => some ⟨⟨space, book, queue, true⟩, sink, .ok ()⟩
  | ⟨space, book, queue, false⟩ => readCodesChecked limit space book queue block sink

variable {space : CodeSpace} {early limit : Nat}

section Step

variable {book : Book} {queue : BitQueue} {bytes : List UInt8} {loaded : BitQueue × List UInt8}

theorem readCodesChecked_of_none (load : queue.loadChecked bytes = some loaded)
    (missing : loaded.1.takeChecked limit book.table.width = some none) (sink : Sink) :
    readCodesChecked limit space book queue bytes sink
      = some ⟨{ space, book, queue := loaded.1 }, sink, .ok ()⟩ := by
  rw [readCodesChecked]
  split
  next none =>
    rw [none] at load
    cases load
  next found =>
    rw [found] at load
    cases load
    split
    next none =>
      rw [none] at missing
      cases missing
    next => rfl
    next found =>
      rw [found] at missing
      cases missing

theorem readCodesChecked_of_some (load : queue.loadChecked bytes = some loaded) {code : Nat}
    {left : BitQueue} (took : loaded.1.takeChecked limit book.table.width = some (some (code, left)))
    (sink : Sink) :
    readCodesChecked limit space book queue bytes sink =
      if code = space.clearCode then
        readCodesChecked limit space (.initial space) left loaded.2 sink
      else if code = space.endCode then
        some ⟨{ space, book, queue := left, finished := true }, sink, .ok ()⟩
      else
        match book.readChecked space left.taken code sink with
        | none => none
        | some ⟨next, sink, .ok ()⟩ => readCodesChecked limit space next left loaded.2 sink
        | some ⟨next, sink, .error fault⟩ =>
          some ⟨{ space, book := next, queue := left }, sink, .error fault⟩ := by
  rw [readCodesChecked]
  split
  next none =>
    rw [none] at load
    cases load
  next found =>
    rw [found] at load
    cases load
    split
    next none =>
      rw [none] at took
      cases took
    next none =>
      rw [none] at took
      cases took
    next found =>
      rw [found] at took
      cases took
      rfl

end Step

/-- The checked loop has the answer of the loop. -/
theorem readCodesChecked_eq (grows : space.Grows early) {book : Book}
    (built : book.table.IsBuilt early) {queue : BitQueue} (low : queue.count ≤ 24)
    (tidy : queue.IsTidy) (bytes : List UInt8)
    (counted : queue.taken + queue.count + 8 * bytes.length < limit) (sink : Sink) :
    readCodesChecked limit space book queue bytes sink
      = some (readCodes space book queue bytes sink) := by
  obtain ⟨least, most⟩ := built.width_bounds
  have load := BitQueue.loadChecked_eq tidy bytes
  have take : (queue.load bytes).1.takeChecked limit book.table.width
      = some ((queue.load bytes).1.take? book.table.width) := by
    obtain ⟨tidy', -, taken, -⟩ := BitQueue.bits_load tidy bytes
    have moved := BitQueue.load_count queue bytes
    exact BitQueue.takeChecked_eq tidy' (BitQueue.count_load_le low bytes) least most (by omega)
  rw [readCodes_eq]
  rcases BitQueue.load_take?_cases tidy low bytes most with
    ⟨none, -⟩ | ⟨code, left, took, tidy', low', total, kept⟩
  · rw [none] at take
    rw [readCodesChecked_of_none load take]
    simp only [none]
  · have shorter := BitQueue.load_take?_shortens took book.table.width_pos
    rw [← kept] at counted
    rw [took] at take
    rw [readCodesChecked_of_some load take]
    simp only [took]
    split
    · exact readCodesChecked_eq grows (StringTable.isBuilt_initial grows) low' tidy' _ counted sink
    · split
      · rfl
      · next string string' =>
        rw [grows.clearCode_eq] at string
        rw [grows.endCode_eq] at string'
        have built' := book.isBuilt_read grows built string string' left.taken sink
        rw [Book.readChecked_eq built string string']
        rcases read : book.read space left.taken code sink with ⟨next, rest, fault | done⟩
        · rfl
        · rw [read] at built'
          exact readCodesChecked_eq grows built' low' tidy' _ counted rest
  termination_by queue.count + 8 * bytes.length
  decreasing_by all_goals assumption

variable {decoder : LzwDecoder} {fed : Nat}

theorem IsSteady.feedChecked_eq (steady : decoder.IsSteady early fed) (block : List UInt8)
    (sink : Sink) (counted : 8 * (fed + block.length) < limit) :
    decoder.feedChecked limit block sink = some (decoder.feed block sink) := by
  have total := Nat.lt_of_le_of_lt (steady.counted block) counted
  obtain ⟨space, book, queue, ended⟩ := decoder
  obtain ⟨grows, built, low, tidy, -⟩ := steady
  cases ended with
  | true => rfl
  | false => exact readCodesChecked_eq grows built low tidy block total sink

/-- Whatever a decoder has been fed, its table and its register are as they should be: strings are short,
a block that is taken is used up, and a machine has an answer to the next block. The bits that have
been taken are counted, up to any limit that is more than eight for each byte. -/
theorem steady_feedAll (grows : space.Grows early) (feeds : List (List UInt8 × Sink)) :
    let decoder := (start space).feedAll feeds
    decoder.IsSteady early (bytesOf feeds)
      ∧ (∀ code string, firstAssigned ≤ code → decoder.book.table.get? code = some string →
        2 ≤ string.length ∧ string.length ≤ code - 256)
      ∧ ∀ block sink,
        HasUsed (decoder.queue.taken + decoder.queue.count + 8 * block.length)
          (decoder.feed block sink)
        ∧ ∀ limit, 8 * (bytesOf feeds + block.length) < limit →
          decoder.feedChecked limit block sink = some (decoder.feed block sink) := by
  have steady := (isSteady_start grows).feedAll feeds
  rw [Nat.zero_add] at steady
  refine ⟨steady, ?_, ?_⟩
  · intro code string later found
    exact steady.built.length_bounds later found
  · intro block sink
    refine ⟨(steady.feed block sink).2, ?_⟩
    intro limit counted
    exact steady.feedChecked_eq block sink counted

/-- A sink that refuses the second string, and the same decoder with another sink: the next block has an
answer with a counter of 64 bits, with codes that grow early and with codes that do not. -/
theorem steady_feedAll_refused :
    let feeds := [([0x20, 0xC0, 0xA0], ⟨#[], some 1, .stalled⟩), ([0x27, 0xFF], .unlimited)]
    (((start .early).feedAll feeds).IsSteady 1 5
        ∧ ((start .early).feedAll feeds).feedChecked (1 <<< 64) [1, 2, 3] .unlimited
          = some (((start .early).feedAll feeds).feed [1, 2, 3] .unlimited))
      ∧ ((start .late).feedAll feeds).IsSteady 0 5
        ∧ ((start .late).feedAll feeds).feedChecked (1 <<< 64) [1, 2, 3] .unlimited
          = some (((start .late).feedAll feeds).feed [1, 2, 3] .unlimited) := by
  intro feeds
  have early : CodeSpace.early.Grows 1 := ⟨rfl, rfl, rfl⟩
  have late : CodeSpace.late.Grows 0 := ⟨rfl, rfl, rfl⟩
  obtain ⟨steady, -, onward⟩ := steady_feedAll early feeds
  obtain ⟨steady', -, onward'⟩ := steady_feedAll late feeds
  have few : 8 * (bytesOf feeds + 3) < 1 <<< 64 := by decide
  exact ⟨⟨steady, (onward _ _).2 _ few⟩, steady', (onward' _ _).2 _ few⟩

end LzwDecoder

end PdfFilters

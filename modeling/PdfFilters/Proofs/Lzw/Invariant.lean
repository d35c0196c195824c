import PdfFilters.Proofs.Lzw.Inverse

/-!
# What always holds of a decoder for variable-width codes

Whatever a decoder is fed, and whatever becomes of its sinks, its table is one that codes can build
up (`StringTable.IsBuilt`), and its queue is a small register whose bits are all counted
(`LzwDecoder.IsSteady`). A block may be refused in its middle, by its sink or for its codes, and the
decoder may be fed on after that.

The table does not depend on the code before. That code may have no entry: then it adds nothing, and
all that is in the table are earlier strings with one more byte.

One code keeps the table as it should be (`isBuilt_read`), so reading all codes of a block does
(`isSteady_readCodes`), and any number of blocks (`IsSteady.feedAll`).
-/

namespace PdfFilters

variable {space : CodeSpace} {early : Nat}

/-- A table that codes can have built up, when codes grow so many entries early. -/
structure StringTable.IsBuilt (early : Nat) (table : StringTable) : Prop where
  size_ge : firstAssigned ≤ table.size
  size_le : table.size ≤ fullTable
  /-- The first codes stand for single bytes. -/
  get?_byte : ∀ byte : UInt8, table.get? byte.toNat = some [byte]
  get?_clear : table.get? 256 = some []
  get?_end : table.get? 257 = some []
  /-- Every string that has been added is an earlier one and a byte. -/
  exists_earlier : ∀ {code : Nat} {string : List UInt8}, firstAssigned ≤ code →
    table.get? code = some string →
    ∃ earlier start last, earlier < code ∧ earlier ≠ 256 ∧ earlier ≠ 257
      ∧ table.get? earlier = some start ∧ string = start ++ [last]
  /-- Codes are as wide as the thresholds say that have been reached. -/
  width_eq : table.width
    = 9 + [512 - early, 1024 - early, 2048 - early].countP (· ≤ table.size)

namespace StringTable

theorem size_push {table : StringTable} (room : ¬ table.isFull space = true)
    (string : List UInt8) : (table.push space string).size = table.size + 1 := by
  rw [size, (push_of_room room string).1, Array.size_push]
  rfl

theorem get?_push {table : StringTable} (room : ¬ table.isFull space = true)
    (string : List UInt8) (code : Nat) :
    (table.push space string).get? code
      = if code = table.size then some string else table.get? code := by
  rw [get?, (push_of_room room string).1, Array.getElem?_push]
  rfl

theorem lt_size_of_get? {table : StringTable} {code : Nat} {string : List UInt8}
    (found : table.get? code = some string) : code < table.size :=
  (Array.getElem?_eq_some_iff.mp found).1

theorem get?_eq_none {table : StringTable} {code : Nat} (beyond : table.size ≤ code) :
    table.get? code = none :=
  Array.getElem?_eq_none beyond

/-- A table of this size is one that so many codes leave. -/
theorem codeWidth_of_size {count : Nat} (room : firstAssigned + count ≤ fullTable) :
    codeWidth early (count + 1)
      = 9 + [512 - early, 1024 - early, 2048 - early].countP (· ≤ firstAssigned + count) := by
  rw [codeWidth, Nat.add_sub_cancel, Nat.min_eq_right room]

theorem isBuilt_initial (grows : space.Grows early) : (initial space).IsBuilt early := by
  have knows := knows_initial grows
  have size : (initial space).size = firstAssigned := knows.size_table
  refine ⟨Nat.le_of_eq size.symm, ?_, ?_, ?_, ?_, ?_, ?_⟩
  · rw [size]
    decide
  · intro byte
    have := byte.toNat_lt
    simp [get?, initial, initialStrings, List.getElem?_append, this]
  · simp [get?, initial, initialStrings]
  · simp [get?, initial, initialStrings]
  · intro code string later found
    have short := lt_size_of_get? found
    omega
  · rw [size]
    exact knows.width_eq

namespace IsBuilt

variable {table : StringTable}

theorem get?_of_lt (built : table.IsBuilt early) {code : Nat} (byte : code < 256) :
    table.get? code = some [UInt8.ofNat code] := by
  have single := built.get?_byte (UInt8.ofNat code)
  rwa [UInt8.toNat_ofNat_of_lt' byte] at single

/-- Only the codes that reset the table and end the data stand for no byte at all. -/
theorem ne_nil (built : table.IsBuilt early) {code : Nat} {string : List UInt8}
    (found : table.get? code = some string) (apart : code ≠ 256) (apart' : code ≠ 257) :
    string ≠ [] := by
  rcases Nat.lt_or_ge code 256 with byte | later
  · cases found.symm.trans (built.get?_of_lt byte)
    exact List.cons_ne_nil _ _
  · obtain ⟨_, start, last, -, -, -, -, rfl⟩ := built.exists_earlier
      (by rw [firstAssigned]; omega) found
    exact List.append_ne_nil_of_right_ne_nil start (List.cons_ne_nil last [])

/-- Each string takes an entry of its own for every byte, so that it cannot be long. -/
theorem length_bounds (built : table.IsBuilt early) {code : Nat} {string : List UInt8}
    (later : firstAssigned ≤ code) (found : table.get? code = some string) :
    2 ≤ string.length ∧ string.length ≤ code - 256 := by
  obtain ⟨earlier, start, last, before, apart, apart', known, rfl⟩ :=
    built.exists_earlier later found
  rw [List.length_append, List.length_singleton]
  rw [firstAssigned] at later
  rcases Nat.lt_or_ge earlier 256 with byte | assigned
  · cases known.symm.trans (built.get?_of_lt byte)
    rw [List.length_singleton]
    omega
  · have := built.length_bounds (by rw [firstAssigned]; omega) known
    omega
  termination_by code

theorem width_bounds (built : table.IsBuilt early) : 9 ≤ table.width ∧ table.width ≤ 12 := by
  have reached := List.countP_le_length (p := (· ≤ table.size))
    (l := [512 - early, 1024 - early, 2048 - early])
  rw [built.width_eq]
  exact ⟨Nat.le_add_right _ _, Nat.add_le_add_left reached 9⟩

/-- One more entry reaches at most one threshold. -/
theorem width_push (grows : space.Grows early) (built : table.IsBuilt early)
    (room : ¬ table.isFull space = true) (string : List UInt8) :
    (table.push space string).width
      = 9 + [512 - early, 1024 - early, 2048 - early].countP
        (· ≤ (table.push space string).size) := by
  obtain ⟨count, used⟩ := Nat.exists_eq_add_of_le built.size_ge
  have short : firstAssigned + count < fullTable := by
    rw [isFull_iff grows, used] at room
    exact Nat.lt_of_not_le room
  have width : table.width = codeWidth early (count + 1) := by
    rw [built.width_eq, used, codeWidth_of_size (Nat.le_of_lt short)]
  have grown : codeWidth early (count + 2) = _ := grows.codeWidth_succ (Nat.succ_pos count) short
  rw [Nat.add_sub_cancel, ← width, ← used] at grown
  rw [(push_of_room room string).2, ← grown, size_push room, used]
  exact codeWidth_of_size short

/-- Adding an earlier string with one more byte. -/
theorem push (grows : space.Grows early) (built : table.IsBuilt early) {earlier : Nat}
    {start : List UInt8} (known : table.get? earlier = some start) (filled : start ≠ [])
    (last : UInt8) : (table.push space (start ++ [last])).IsBuilt early := by
  by_cases full : table.isFull space = true
  · rw [StringTable.push, if_pos full]
    exact built
  · have size := size_push full (start ++ [last])
    have entries := get?_push full (start ++ [last])
    have ge := built.size_ge
    -- Entries that were there before stay.
    have kept : ∀ {code string}, table.get? code = some string →
        (table.push space (start ++ [last])).get? code = some string := by
      intro code string found
      rw [entries, if_neg (Nat.ne_of_lt (lt_size_of_get? found)), found]
    refine ⟨?_, ?_, ?_, ?_, ?_, ?_, built.width_push grows full _⟩
    · rw [size]
      exact Nat.le_succ_of_le ge
    · rw [isFull_iff grows] at full
      rw [size]
      exact Nat.lt_of_not_le full
    · intro byte
      exact kept (built.get?_byte byte)
    · exact kept built.get?_clear
    · exact kept built.get?_end
    · intro code string later found
      rw [entries] at found
      split at found
      next new =>
        cases found
        refine ⟨earlier, start, last, new ▸ lt_size_of_get? known, ?_, ?_, kept known, rfl⟩
        · rintro rfl
          exact filled (Option.some.inj (known.symm.trans built.get?_clear))
        · rintro rfl
          exact filled (Option.some.inj (known.symm.trans built.get?_end))
      next =>
        obtain ⟨before, start', last', lt, apart, apart', known', same⟩ :=
          built.exists_earlier later found
        exact ⟨before, start', last', lt, apart, apart', kept known', same⟩

end IsBuilt

end StringTable

namespace Book

theorem get?_of_entry {book : Book} {bits code : Nat} {first : UInt8} {rest : List UInt8}
    (found : book.entry bits code = .ok (first, rest)) :
    book.table.get? code = some (first :: rest) := by
  rw [entry] at found
  split at found
  next known =>
    cases found
    exact known
  next => cases found

/-- A code that stands for a string stands for some bytes. -/
theorem string_ne_nil {book : Book} (built : book.table.IsBuilt early) {bits code : Nat}
    (apart : code ≠ 256) (apart' : code ≠ 257) {string : List UInt8}
    (meaning : book.string bits code = .ok string) : string ≠ [] := by
  rw [Book.string] at meaning
  split at meaning
  next known =>
    cases meaning
    exact built.ne_nil known apart apart'
  next previous _ _ =>
    cases found : book.entry bits previous with
    | error fault =>
      rw [found] at meaning
      cases meaning
    | ok entry =>
      rw [found] at meaning
      cases meaning
      exact List.cons_ne_nil _ _
  next => cases meaning

/-- What is added is an earlier string and a byte. -/
theorem exists_of_addition? {book : Book} {bits : Nat} {string added : List UInt8}
    (filled : string ≠ []) (adds : book.addition? space bits string = .ok (some added)) :
    ∃ earlier start last, book.table.get? earlier = some start ∧ start ≠ []
      ∧ added = start ++ [last] := by
  obtain ⟨head, tail, rfl⟩ := List.exists_cons_of_ne_nil filled
  rw [addition?] at adds
  split at adds
  · cases adds
  next previous _ =>
    split at adds
    · cases adds
    · cases found : book.entry bits previous with
      | error fault =>
        rw [found] at adds
        cases adds
      | ok entry =>
        obtain ⟨first, rest⟩ := entry
        rw [found] at adds
        cases adds
        exact ⟨previous, first :: rest, head, get?_of_entry found, List.cons_ne_nil _ _, rfl⟩

/-- Reading a code keeps the table as codes can have built it up, whether the code is refused, or the
sink refuses its string. -/
theorem isBuilt_read (grows : space.Grows early) {book : Book} (built : book.table.IsBuilt early)
    {code : Nat} (apart : code ≠ 256) (apart' : code ≠ 257) (bits : Nat) (sink : Sink) :
    (book.read space bits code sink).state.table.IsBuilt early := by
  rw [read]
  split
  · exact built
  next string meaning =>
    split
    · exact built
    · split
      · exact built
      next addition adds =>
        cases addition with
        | none => exact built
        | some added =>
          obtain ⟨earlier, start, last, known, filled, rfl⟩ :=
            exists_of_addition? (string_ne_nil built apart apart' meaning) adds
          exact built.push grows known filled last

end Book

namespace BitQueue

/-- The register is loaded only while it has room for one more of three bytes. -/
theorem count_load_le {queue : BitQueue} (low : queue.count ≤ 24) (bytes : List UInt8) :
    (queue.load bytes).1.count ≤ 24 := by
  induction bytes generalizing queue with
  | nil => exact low
  | cons byte rest ih =>
    rw [load]
    split
    next room => exact ih (Nat.add_le_add_right room 8)
    next => exact low

/-- Loading the register and taking a code loses no bits. If there is no code to take, all bytes have
been loaded. -/
theorem load_take?_cases {queue : BitQueue} (tidy : queue.IsTidy) (low : queue.count ≤ 24)
    (bytes : List UInt8) {width : Nat} (narrow : width ≤ 12) :
    ((queue.load bytes).1.take? width = none ∧ (queue.load bytes).1.IsTidy
        ∧ (queue.load bytes).1.count < width
        ∧ (queue.load bytes).1.taken + (queue.load bytes).1.count
          = queue.taken + queue.count + 8 * bytes.length)
      ∨ ∃ code left, (queue.load bytes).1.take? width = some (code, left) ∧ left.IsTidy
        ∧ left.count ≤ 24 ∧ left.taken = queue.taken + width
        ∧ left.taken + left.count + 8 * (queue.load bytes).2.length
          = queue.taken + queue.count + 8 * bytes.length := by
  obtain ⟨tidy', -, taken, -⟩ := bits_load tidy bytes
  have low' := count_load_le low bytes
  have moved := load_count queue bytes
  rcases Nat.lt_or_ge (queue.load bytes).1.count width with short | long
  · have used : (queue.load bytes).2 = [] := load_eq_nil tidy (by omega)
    rw [used, List.length_nil] at moved
    have missing : (queue.load bytes).1.bits.length < width := by
      rw [length_bits]
      exact short
    exact .inl ⟨take?_eq_none missing, tidy', short, by omega⟩
  · have enough : width ≤ (queue.load bytes).1.bits.length := by
      rw [length_bits]
      exact long
    obtain ⟨left, took, tidy'', -, total⟩ := take?_eq_some tidy' enough
    have count := count_of_take? took
    exact .inr ⟨_, left, took, tidy'', by omega, by omega, by omega⟩

end BitQueue

namespace LzwDecoder

/-- What always holds of a decoder that has been fed so many bytes. -/
structure IsSteady (early fed : Nat) (decoder : LzwDecoder) : Prop where
  grows : decoder.space.Grows early
  built : decoder.book.table.IsBuilt early
  count_le : decoder.queue.count ≤ 24
  value_lt : decoder.queue.value < 1 <<< decoder.queue.count
  taken_le : decoder.queue.taken + decoder.queue.count ≤ 8 * fed

/-- If this call went well, and has not come to the end of the data, then all these bits are taken or
wait for others that are missing for the next code. -/
def HasUsed (bits : Nat) (reply : Reply LzwDecoder) : Prop :=
  reply.result = .ok () → reply.state.finished = false →
    reply.state.queue.taken + reply.state.queue.count = bits
      ∧ reply.state.queue.count < reply.state.width

/-- Reading the codes of a block keeps the decoder as it should be. -/
theorem isSteady_readCodes (grows : space.Grows early) {book : Book}
    (built : book.table.IsBuilt early) {queue : BitQueue} (low : queue.count ≤ 24)
    (tidy : queue.IsTidy) (bytes : List UInt8) {fed : Nat}
    (counted : queue.taken + queue.count + 8 * bytes.length ≤ 8 * fed) (sink : Sink) :
    (readCodes space book queue bytes sink).state.IsSteady early fed
      ∧ HasUsed (queue.taken + queue.count + 8 * bytes.length)
        (readCodes space book queue bytes sink) := by
  rw [readCodes_eq]
  rcases BitQueue.load_take?_cases tidy low bytes built.width_bounds.2 with
    ⟨none, tidy', short, kept⟩ | ⟨code, left, took, tidy', low', total, kept⟩
  · have := built.width_bounds.2
    simp only [none]
    refine ⟨⟨grows, built, by simp only; omega, tidy', by simp only; omega⟩, ?_⟩
    intro _ _
    exact ⟨kept, short⟩
  · have shorter := BitQueue.load_take?_shortens took book.table.width_pos
    simp only [took]
    split
    · rw [← kept] at counted ⊢
      exact isSteady_readCodes grows (StringTable.isBuilt_initial grows) low' tidy' _ counted sink
    · split
      · refine ⟨⟨grows, built, low', tidy', by simp only; omega⟩, ?_⟩
        intro _ unfinished
        cases unfinished
      · next string string' =>
        rw [grows.clearCode_eq] at string
        rw [grows.endCode_eq] at string'
        have built' := book.isBuilt_read grows built string string' left.taken sink
        rcases read : book.read space left.taken code sink with ⟨next, rest, fault | done⟩
        · rw [read] at built'
          refine ⟨⟨grows, built', low', tidy', by simp only; omega⟩, ?_⟩
          intro fine
          cases fine
        · rw [read] at built'
          rw [← kept] at counted ⊢
          exact isSteady_readCodes grows built' low' tidy' _ counted rest
  termination_by queue.count + 8 * bytes.length
  decreasing_by all_goals assumption

theorem isSteady_start (grows : space.Grows early) : (start space).IsSteady early 0 :=
  ⟨grows, StringTable.isBuilt_initial grows, Nat.zero_le _, BitQueue.isTidy_empty, Nat.le_refl _⟩

variable {decoder : LzwDecoder} {fed : Nat}

namespace IsSteady

theorem counted (steady : decoder.IsSteady early fed) (block : List UInt8) :
    decoder.queue.taken + decoder.queue.count + 8 * block.length ≤ 8 * (fed + block.length) := by
  rw [Nat.mul_add]
  exact Nat.add_le_add_right steady.taken_le _

/-- A block keeps the decoder as it should be, also after one that failed. If it is taken without a
fault, before the end of the data, then it is used up. -/
theorem feed (steady : decoder.IsSteady early fed) (block : List UInt8) (sink : Sink) :
    (decoder.feed block sink).state.IsSteady early (fed + block.length)
      ∧ HasUsed (decoder.queue.taken + decoder.queue.count + 8 * block.length)
        (decoder.feed block sink) := by
  have total := steady.counted block
  obtain ⟨space, book, queue, ended⟩ := decoder
  obtain ⟨grows, built, low, tidy, -⟩ := steady
  cases ended with
  | true =>
    refine ⟨⟨grows, built, low, tidy, Nat.le_trans (Nat.le_add_right _ _) total⟩, ?_⟩
    intro _ unfinished
    cases unfinished
  | false => exact isSteady_readCodes grows built low tidy block total sink

end IsSteady

/-- The decoder after one block after another, each with a sink of its own, whatever comes of it. -/
def feedAll (decoder : LzwDecoder) (feeds : List (List UInt8 × Sink)) : LzwDecoder :=
  feeds.foldl (fun decoder feed => (decoder.feed feed.1 feed.2).state) decoder

/-- How many bytes these are. -/
def bytesOf (feeds : List (List UInt8 × Sink)) : Nat := (feeds.map Prod.fst).flatten.length

theorem IsSteady.feedAll (steady : decoder.IsSteady early fed)
    (feeds : List (List UInt8 × Sink)) :
    (decoder.feedAll feeds).IsSteady early (fed + bytesOf feeds) := by
  induction feeds generalizing decoder fed with
  | nil => exact steady
  | cons feed rest ih =>
    show IsSteady early (fed + (feed.1 ++ (rest.map Prod.fst).flatten).length) _
    rw [List.length_append, ← Nat.add_assoc]
    exact ih (steady.feed feed.1 feed.2).1

end LzwDecoder

end PdfFilters

import PdfFilters.Proofs.Lzw.Reading

/-!
# The decoder reads a list of bits

The decoder reads codes from a queue that it loads from its bytes. What it reads are the codes of one
list of bits: those in the queue, and then those of the bytes (`reads_readCodes`). It stops
where `readBits` stops, knows the same then, and has the same bits left (`LzwDecoder.Shows`). This
takes codes that are not wider than a queue that is loaded no further (`CodeSpace.IsNarrow`).

So it makes no difference how the bytes are cut into blocks (`cuttable_decoded`), not even to what is
written before a fault.
-/

namespace PdfFilters

/-- All codes fit into the queue. -/
def CodeSpace.IsNarrow (space : CodeSpace) : Prop :=
  space.minBits ≤ space.maxBits ∧ space.maxBits ≤ 16

theorem CodeSpace.isNarrow_early : early.IsNarrow := by
  rw [IsNarrow]
  decide

theorem CodeSpace.isNarrow_late : late.IsNarrow := by
  rw [IsNarrow]
  decide

/-- Streams use no other spaces. -/
theorem CodeSpace.isNarrow_of_ofPrediction {prediction : Prediction} {space : CodeSpace}
    (asked : ofPrediction prediction = .ok space) : space.IsNarrow := by
  rw [ofPrediction] at asked
  split at asked
  · cases asked
    exact isNarrow_early
  · split at asked
    · cases asked
      exact isNarrow_late
    · cases asked

namespace LzwDecoder

/-- The decoder stands where reading the bits has stopped. -/
structure Shows (space : CodeSpace) (decoder : LzwDecoder) (reading : Reading) : Prop where
  space_eq : decoder.space = space
  book_eq : decoder.book = reading.book
  finished_eq : decoder.finished = reading.finished
  width_le : reading.book.table.width ≤ space.maxBits
  tidy : decoder.queue.IsTidy
  queue_eq : reading.finished = false →
    decoder.queue.bits = reading.bits ∧ decoder.queue.taken = reading.taken
      ∧ reading.bits.length < reading.book.table.width

/-- The call reads this: it emits the same, and leaves a decoder that stands in the same place. -/
def Reads (space : CodeSpace) (call : Sink → Reply LzwDecoder) (reading : Emission Reading) :
    Prop :=
  ∃ emission, Emits (fun sink => (call sink).outcome) emission
    ∧ emission.Alike (Shows space) True reading

theorem readCodes_eq (space : CodeSpace) (book : Book) (queue : BitQueue) (bytes : List UInt8) :
    readCodes space book queue bytes = fun sink =>
      match (queue.load bytes).1.take? book.table.width with
      | none => ⟨{ space, book, queue := (queue.load bytes).1 }, sink, .ok ()⟩
      | some (code, left) =>
        if code = space.clearCode then
          readCodes space (.initial space) left (queue.load bytes).2 sink
        else if code = space.endCode then
          ⟨{ space, book, queue := left, finished := true }, sink, .ok ()⟩
        else
          match book.read space left.taken code sink with
          | ⟨next, sink, .ok ()⟩ => readCodes space next left (queue.load bytes).2 sink
          | ⟨next, sink, .error fault⟩ =>
            ⟨{ space, book := next, queue := left }, sink, .error fault⟩ := by
  funext sink
  rw [readCodes]
  split
  next loaded rest load =>
    have first : (queue.load bytes).1 = loaded := congrArg Prod.fst load
    have second : (queue.load bytes).2 = rest := congrArg Prod.snd load
    rw [first, second]
    split
    next missing => rw [missing]
    next code left took =>
      by_cases clears : code = space.clearCode
      · simp only [took, if_pos clears]
      · by_cases ends : code = space.endCode
        · simp only [took, if_neg clears, if_pos ends]
        · rcases read : book.read space left.taken code sink with ⟨next, sink, fault | done⟩
          · simp only [took, if_neg clears, if_neg ends, read]
          · simp only [took, if_neg clears, if_neg ends, read]

/-- A call that reads nothing leaves a decoder that stands where it stood. -/
theorem reads_quiet {space : CodeSpace} {decoder : LzwDecoder} {reading : Reading}
    (shows : Shows space decoder reading) :
    Reads space (fun sink => ⟨decoder, sink, .ok ()⟩) (.quiet (.ok reading)) :=
  ⟨.quiet (.ok decoder), Emits.quiet (.ok decoder), .ok shows⟩

/-- After a code that stands for a string, the codes after it are read. -/
theorem reads_andThen {space : CodeSpace} {book : Book} {bits code : Nat} {queue : BitQueue}
    {rest : List UInt8} {onward : Book → Emission Reading}
    (goesOn : ∀ next, (book.reading space bits code).result = .ok next →
      Reads space (readCodes space next queue rest) (onward next)) :
    Reads space
      (fun sink =>
        match book.read space bits code sink with
        | ⟨next, sink, .ok ()⟩ => readCodes space next queue rest sink
        | ⟨next, sink, .error fault⟩ =>
          ⟨{ space, book := next, queue }, sink, .error fault⟩)
      ((book.reading space bits code).andThen onward) := by
  refine ⟨(book.reading space bits code).andThen fun next =>
    emissionOf fun sink => (readCodes space next queue rest sink).outcome, ?_, ?_⟩
  · intro sink
    have emits := (book.emits_read space bits code).andThen fun next read =>
      (goesOn next read).elim fun _ reads => reads.1.emissionOf
    rw [← emits sink]
    dsimp only
    cases book.read space bits code sink with
    | mk state left result => cases result <;> rfl
  · refine .andThen_self fun next read => ?_
    obtain ⟨emission, emits, alike⟩ := goesOn next read
    rw [emits.emissionOf_eq]
    exact alike

/-- The decoder reads the bits in its queue and then those of its bytes. -/
theorem reads_readCodes {space : CodeSpace} (narrow : space.IsNarrow) {book : Book}
    (width : book.table.width ≤ space.maxBits) {queue : BitQueue} (tidy : queue.IsTidy)
    (bytes : List UInt8) :
    Reads space (readCodes space book queue bytes)
      (readBits space book queue.taken (queue.bits ++ highBitsOf bytes)) := by
  obtain ⟨tidy', bits, taken, -⟩ := BitQueue.bits_load tidy bytes
  rw [← bits, ← taken, readCodes_eq]
  by_cases short : (queue.load bytes).1.bits.length < book.table.width
  · -- The queue could have been loaded further, so the bytes were used up.
    have used : (queue.load bytes).2 = [] := by
      rw [BitQueue.length_bits] at short
      have := narrow.2
      exact BitQueue.load_eq_nil tidy (by omega)
    rw [BitQueue.take?_eq_none short, used, highBitsOf, List.flatMap_nil, List.append_nil,
      readBits_of_short short]
    exact reads_quiet ⟨rfl, rfl, rfl, width, tidy', fun _ => ⟨rfl, rfl, short⟩⟩
  · have long : book.table.width ≤ (queue.load bytes).1.bits.length := Nat.le_of_not_lt short
    obtain ⟨left, took, tidy'', rest, total⟩ := BitQueue.take?_eq_some tidy' long
    have shorter := BitQueue.load_take?_shortens took book.table.width_pos
    -- The code is in the queue, so both take it from there.
    rw [took, readBits_of_long (by rw [List.length_append]; omega),
      List.take_append_of_le_length long, List.drop_append_of_le_length long, ← rest, ← total]
    simp only
    split
    · exact reads_readCodes narrow narrow.1 tidy'' _
    · split
      · exact reads_quiet ⟨rfl, rfl, rfl, width, tidy'', fun going => Bool.noConfusion going⟩
      · exact reads_andThen fun next read =>
          reads_readCodes narrow (Book.width_reading width read) tidy'' _
  termination_by queue.count + 8 * bytes.length
  decreasing_by all_goals assumption

/-- A decoder that is fed a block reads on. -/
theorem reads_feed {space : CodeSpace} (narrow : space.IsNarrow) {decoder : LzwDecoder}
    {reading : Reading} (shows : Shows space decoder reading) (block : List UInt8) :
    Reads space (decoder.feed block) (reading.resume space (highBitsOf block)) := by
  obtain ⟨space', book, queue, ended⟩ := decoder
  obtain ⟨book', taken, bits, ended'⟩ := reading
  obtain ⟨rfl, rfl, rfl, width, tidy, waiting⟩ := shows
  cases ended with
  | true => exact reads_quiet ⟨rfl, rfl, rfl, width, tidy, nofun⟩
  | false =>
    obtain ⟨rfl, rfl, -⟩ := waiting rfl
    exact reads_readCodes narrow width tidy block

/-- The place in which a decoder stands. -/
def reading (decoder : LzwDecoder) : Reading :=
  ⟨decoder.book, decoder.queue.taken, decoder.queue.bits, decoder.finished⟩

/-- All codes fit into the queue, and no code waits there to be read. -/
def IsSound (decoder : LzwDecoder) : Prop :=
  decoder.space.IsNarrow ∧ Shows decoder.space decoder decoder.reading

/-- Decoders that go on alike: the same ones, or two that are at the end of the data. -/
def Similar (first second : LzwDecoder) : Prop :=
  first = second ∨ (first.finished ∧ second.finished)

/-- What a decoder emits when it is fed a block. -/
def decoded (decoder : LzwDecoder) (block : List UInt8) : Emission LzwDecoder :=
  emissionOf fun sink => (decoder.feed block sink).outcome

theorem isSound_start {space : CodeSpace} (narrow : space.IsNarrow) : (start space).IsSound :=
  ⟨narrow, rfl, rfl, rfl, narrow.1, BitQueue.isTidy_empty, fun _ => ⟨rfl, rfl, space.minBits_pos⟩⟩

namespace Shows

variable {space : CodeSpace} {decoder other : LzwDecoder} {reading : Reading}

theorem isSound (narrow : space.IsNarrow) (shows : Shows space decoder reading) :
    decoder.IsSound := by
  obtain ⟨rfl, books, ends, width, tidy, waiting⟩ := shows
  refine ⟨narrow, rfl, rfl, rfl, ?_, tidy, ?_⟩
  · show decoder.book.table.width ≤ _
    rw [books]
    exact width
  · intro unfinished
    obtain ⟨bits, -, short⟩ := waiting (ends.symm.trans unfinished)
    refine ⟨rfl, rfl, ?_⟩
    show decoder.queue.bits.length < decoder.book.table.width
    rw [bits, books]
    exact short

/-- Decoders in the same place go on alike. -/
theorem similar (h : Shows space decoder reading) (h' : Shows space other reading) :
    Similar decoder other := by
  cases ended : reading.finished with
  | true => exact .inr ⟨h.finished_eq.trans ended, h'.finished_eq.trans ended⟩
  | false =>
    -- The bits and their count are all there is to a queue.
    left
    obtain ⟨bits, taken, -⟩ := h.queue_eq ended
    obtain ⟨bits', taken', -⟩ := h'.queue_eq ended
    obtain ⟨space, book, queue, finished⟩ := decoder
    obtain ⟨space', book', queue', finished'⟩ := other
    rw [LzwDecoder.mk.injEq]
    exact ⟨h.space_eq.trans h'.space_eq.symm, h.book_eq.trans h'.book_eq.symm,
      BitQueue.eq_of_bits_eq h.tidy h'.tidy (bits.trans bits'.symm) (taken.trans taken'.symm),
      h.finished_eq.trans h'.finished_eq.symm⟩

/-- Where a decoder stands there is nothing to be read. -/
theorem resume_nil (shows : Shows space decoder reading) :
    reading.resume space [] = .quiet (.ok reading) := by
  obtain ⟨book, taken, bits, finished⟩ := reading
  cases finished with
  | true => rfl
  | false =>
    obtain ⟨-, -, short⟩ := shows.queue_eq rfl
    show readBits space book taken (bits ++ []) = _
    rw [List.append_nil, readBits_of_short short]

end Shows

theorem emits_decoded {decoder : LzwDecoder} (sound : decoder.IsSound) (block : List UInt8) :
    Emits (fun sink => (decoder.feed block sink).outcome) (decoder.decoded block) := by
  obtain ⟨_, emits, _⟩ := reads_feed sound.1 sound.2 block
  exact emits.emissionOf

/-- What is emitted is what the bits say. -/
theorem decoded_alike {space : CodeSpace} (narrow : space.IsNarrow) {decoder : LzwDecoder}
    {reading : Reading} (shows : Shows space decoder reading) (block : List UInt8) :
    (decoder.decoded block).Alike (Shows space) True
      (reading.resume space (highBitsOf block)) := by
  obtain ⟨_, emits, alike⟩ := reads_feed narrow shows block
  rw [decoded, emits.emissionOf_eq]
  exact alike

/-- The data can be cut into blocks anywhere. -/
theorem cuttable_decoded : Cuttable decoded IsSound Similar True where
  occurs_of_ok {decoder next block} sound taken := by
    obtain ⟨_, _, shows⟩ := (decoded_alike sound.1 sound.2 block).exists_of_ok taken
    exact shows.isSound sound.1
  trans first second third h h' := by
    rcases h with rfl | h
    · exact h'
    · rcases h' with rfl | h'
      · exact .inr h
      · exact .inr ⟨h.1, h'.2⟩
  nil {decoder} sound := by
    have alike := decoded_alike sound.1 sound.2 []
    rw [highBitsOf, List.flatMap_nil, sound.2.resume_nil] at alike
    have here : Emission.Alike (Shows decoder.space) True (.quiet (.ok decoder))
      (.quiet (.ok decoder.reading)) := .ok sound.2
    refine here.trans ?_ alike.symm
    intro _ _ _ shows shows'
    exact shows.similar shows'
  append {decoder} first second sound := by
    -- Both ways lead to where reading the bits of both blocks stops.
    have whole := decoded_alike sound.1 sound.2 (first ++ second)
    rw [highBitsOf_append, ← Reading.resume_append] at whole
    have parts := (decoded_alike sound.1 sound.2 first).andThen fun shows =>
      decoded_alike sound.1 shows second
    refine parts.trans ?_ whole.symm
    intro _ _ _ shows shows'
    exact shows.similar shows'

end LzwDecoder

end PdfFilters

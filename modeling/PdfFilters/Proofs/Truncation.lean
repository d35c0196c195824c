import Mathlib.Control.Monad.Basic
import PdfFilters.Proofs.Predicted
import PdfFilters.Proofs.RoundTrip

/-!
# Streams that stop too early

Some decoders take data that stop anywhere: at the end they write nothing more and object to nothing
(`Filter.EndsAnywhere`). What they write for a stream that was cut short is the beginning of what they
write for the whole of it (`Filter.run_of_prefix`), wherever the cut falls: the decoder that has taken
the part stands on the way of the one that takes everything.

With a predictor the rows are put back at the end, so this is about streams without one. The filter for
runs has no use for predictors.
-/

namespace PdfFilters

namespace Filter

section

variable [Host]

/-- A decoder whose data may stop anywhere. -/
inductive EndsAnywhere (parameters : Option Parameters) : Filter → Prop
  | runLength (state : RunLength) : EndsAnywhere parameters (.runLength state)
  | lzw (state : Lzw) (plain : (Prediction.ofParameters parameters).isActive = false) :
      EndsAnywhere parameters (.lzw state)
  | flate (state : Flate) (plain : (Prediction.ofParameters parameters).isActive = false) :
      EndsAnywhere parameters (.flate state)

/-- Such a decoder cannot begin, or it is a codec that takes cuts and whose end is quiet in every
state. -/
theorem EndsAnywhere.begin_cases {parameters : Option Parameters} {filter : Filter}
    (ends : filter.EndsAnywhere parameters) (cuts : filter.TakesCuts .decode) :
    (∃ left fault, filter.begin .decode parameters = (left, .error fault)) ∨
      ∃ (codec : Codec .decode) (state : codec.State),
        codec.occurs state ∧ filter.begin .decode parameters = (codec.filter state, .ok ())
          ∧ codec.TakesCuts False state ∧ ∀ last, ∃ left, codec.close last = .quiet (.ok left) := by
  cases ends with
  | runLength state =>
    exact .inr ⟨.runReading, .idle, trivial, rfl, Codec.takesCuts_runReading _, fun _ => ⟨_, rfl⟩⟩
  | lzw state plain =>
    have opened := Lzw.openSession_of_inactive plain
    cases asked : CodeSpace.ofPrediction (.ofParameters parameters) with
    | error fault =>
      left
      simp only [begin, Lzw.beginDecode, opened, asked]
      exact ⟨_, _, rfl⟩
    | ok space =>
      right
      simp only [begin, Lzw.beginDecode, opened, asked]
      have sound := LzwDecoder.isSound_start (CodeSpace.isNarrow_of_ofPrediction asked)
      exact ⟨.lzwReading, .start space, sound, rfl, (Codec.takesCuts_lzwReading sound).weaken False.elim,
        fun _ => ⟨_, rfl⟩⟩
  | flate state plain =>
    obtain ⟨config, session⟩ := state
    obtain ⟨format, inflates⟩ := cuts
    have opened := Flate.openDecode_of_inactive config plain
    cases room : reserve 0 config.bufferSize with
    | error fault =>
      left
      simp only [begin, Flate.beginDecode, opened, room]
      exact ⟨_, _, rfl⟩
    | ok _ =>
      right
      simp only [begin, Flate.beginDecode, opened, room]
      exact ⟨.flateReading config, (Host.newInflater, false), trivial, rfl,
        Codec.takesCuts_flateReading inflates, fun _ => ⟨_, rfl⟩⟩

/-- If a stream is decoded, so is every part that it begins with, to a part that the output begins
with. -/
theorem run_of_prefix {filter : Filter} {parameters : Option Parameters}
    (ends : filter.EndsAnywhere parameters) (cuts : filter.TakesCuts .decode) {data output : List UInt8}
    (fine : (filter.run .decode parameters data).2 = .ok output) {part : List UInt8}
    (cut : part <+: data) :
    ∃ kept, (filter.run .decode parameters part).2 = .ok kept ∧ kept <+: output := by
  obtain ⟨rest, rfl⟩ := cut
  rcases ends.begin_cases cuts with ⟨left, fault, failed⟩ | ⟨codec, state, occurs, begun, taken, quiet⟩
  · -- A decoder that does not begin decodes nothing.
    rw [run, runOnce, failed] at fine
    cases fine
  · obtain ⟨bytes, next, last, left, whole, closed, rfl⟩ :=
      Session.exists_of_run_ok codec occurs begun fine
    obtain ⟨early, middle, first, early_prefix⟩ := taken.exists_take_of_append whole
    obtain ⟨left', closed'⟩ := quiet middle
    refine ⟨early, ?_, early_prefix.trans (List.prefix_append _ _)⟩
    rw [Session.run_of_begin codec occurs begun first closed', List.append_nil]

end

/-- A literal run of three bytes of which two are there, a code whose last bits are missing, and a
compressed stream that stops inside its block. -/
theorem run_of_prefix_cut :
    (((runLength .idle).run .decode none [2, 65, 66, 67, 254, 88, 128]).2
          = .ok [65, 66, 67, 88, 88, 88]
        ∧ ∃ kept, ((runLength .idle).run .decode none [2, 65, 66]).2 = .ok kept
          ∧ kept <+: [65, 66, 67, 88, 88, 88])
      ∧ (((lzw .idle).run .decode none [0x80, 0x12, 0x0D, 0x30, 0x10]).2 = .ok [72, 105]
        ∧ ∃ kept, ((lzw .idle).run .decode none [0x80, 0x12, 0x0D]).2 = .ok kept
          ∧ kept <+: [72, 105])
      ∧ (flate (.idle {})).TakesCuts .decode
        ∧ ((flate (.idle {})).run .decode none (compress 6 #[1, 2, 3])).2 = .ok [1, 2, 3]
        ∧ ∃ kept, ((flate (.idle {})).run .decode none ((compress 6 #[1, 2, 3]).take 5)).2 = .ok kept
          ∧ kept <+: [1, 2, 3] := by
  have runs : ((runLength .idle).run .decode none [2, 65, 66, 67, 254, 88, 128]).2
      = .ok [65, 66, 67, 88, 88, 88] := rfl
  have codes : ((lzw .idle).run .decode none [0x80, 0x12, 0x0D, 0x30, 0x10]).2 = .ok [72, 105] := by
    decide +kernel
  have inflates : Host.Inflates Inflate.inflation (Flate.idle {}).config.bufferSize :=
    Host.inflates_builtIn (by decide)
  have compressed : ((flate (.idle {})).run .decode none (compress 6 #[1, 2, 3])).2 = .ok [1, 2, 3] := by
    rw [run_decode_flate none (.idle {}) rfl rfl inflates, Inflate.inflation_compress]
    rfl
  refine ⟨⟨runs, ?_⟩, ⟨codes, ?_⟩, ⟨_, inflates⟩, compressed, ?_⟩
  · exact run_of_prefix (.runLength .idle) trivial runs ⟨[67, 254, 88, 128], rfl⟩
  · exact run_of_prefix (.lzw .idle rfl) trivial codes ⟨[0x30, 0x10], rfl⟩
  · exact run_of_prefix (.flate (.idle {}) rfl) ⟨_, inflates⟩ compressed (List.take_prefix 5 _)

end Filter

end PdfFilters

import PdfFilters.Proofs.Predicted
import PdfFilters.Proofs.RoundTrip
import PdfFilters.Proofs.Rows.Refusal

/-!
# Predictors that do not exist

Most values of the predictor entry stand for no predictor. Putting rows back refuses all of them. A
decoder only looks at values that are greater than 1, so it refuses those that stand for no predictor
before it reads any data, and takes the others, zero and the negative ones, as no predictor at all
(`Session.decode_of_isUnknown`).
-/

namespace PdfFilters

/-- A value that stands for no predictor: neither for none, nor for differences, nor for tagged rows. -/
def IsUnknown (value : Int) : Prop := value ≠ 1 ∧ value ≠ 2 ∧ ¬ (10 ≤ value ∧ value ≤ 15)

theorem not_isPredictor {value : Int} (unknown : IsUnknown value) : ¬ isPredictor value = true := by
  obtain ⟨notNone, notDifferences, notTagged⟩ := unknown
  rw [isPredictor_iff]
  rintro (none | differences | tagged)
  · exact notNone none
  · exact notDifferences differences
  · exact notTagged tagged

/-- There is no row store for an unknown predictor, whatever the other entries are. -/
theorem RowStore.start_of_isUnknown {prediction : Prediction}
    (unknown : IsUnknown prediction.predictor) :
    start prediction = .error (.unknownPredictor prediction.predictor) := by
  unfold start
  rw [if_neg (not_isPredictor unknown)]

namespace Session

/-- A pass that does not begin writes nothing. -/
theorem pass_of_begin_error [Host] {filter : Filter} {direction : Direction}
    {parameters : Option Parameters} {fault : Fault}
    (failed : filter.begin direction parameters = (filter.abort, .error fault))
    (blocks : List (List UInt8)) (sink : Sink) :
    pass filter direction parameters blocks sink = ⟨filter.abort, sink, .error fault⟩ := by
  rw [pass, start, failed]
  dsimp only
  rw [filter.abort_abort]

/-- Putting rows back refuses an unknown predictor. So does a decoder, before it reads any data, if the
value is greater than 1; a value that is not leads to what decoding without a predictor does. -/
theorem decode_of_isUnknown [Host] {filter : Filter} {parameters : Option Parameters}
    (handles : filter.HandlesRows (.ofParameters parameters))
    (unknown : IsUnknown (Prediction.ofParameters parameters).predictor) :
    let prediction := Prediction.ofParameters parameters
    let fault := Fault.unknownPredictor prediction.predictor
    (∀ data, prediction.undo data = .error fault)
      ∧ (1 < prediction.predictor →
        (∀ data, filter.run .decode parameters data = (filter.abort, .error fault))
          ∧ ∀ blocks sink,
            pass filter .decode parameters blocks sink = ⟨filter.abort, sink, .error fault⟩)
      ∧ (prediction.predictor ≤ 1 →
        (∀ data, filter.run .decode parameters data
            = filter.run .decode (Parameters.plain parameters) data)
          ∧ ∀ blocks sink, pass filter .decode parameters blocks sink
            = pass filter .decode (Parameters.plain parameters) blocks sink) := by
  intro prediction fault
  have failed : RowStore.start prediction = .error fault := RowStore.start_of_isUnknown unknown
  refine ⟨RowStore.undo_of_start_error unknown.1 failed, ?_, ?_⟩
  · intro large
    have refused : filter.begin .decode parameters = (filter.abort, .error fault) :=
      Filter.begin_of_start_error handles (decide_eq_true large) failed
    refine ⟨?_, pass_of_begin_error refused⟩
    intro data
    rw [Filter.run, Filter.runOnce, refused]
    dsimp only
    rw [filter.abort_abort]
  · intro small
    have inactive : prediction.isActive = false := decide_eq_false (Int.not_lt.mpr small)
    have same := filter.begin_plain inactive
    refine ⟨?_, ?_⟩
    · intro data
      rw [Filter.run, Filter.run, Filter.runOnce, Filter.runOnce, same]
    · intro blocks sink
      rw [pass, pass, start, start, same]

/-- The values 3 and 0, with which the same codes are refused and decoded. -/
theorem decode_of_isUnknown_codes :
    let three := some (Parameters.ofList [("Predictor", 3), ("Colors", -1)])
    let zero := some (Parameters.ofList [("Predictor", 0), ("Colors", -1)])
    let filter := Filter.lzw .idle
    (filter.HandlesRows (.ofParameters three) ∧ IsUnknown (Prediction.ofParameters three).predictor
        ∧ 1 < (Prediction.ofParameters three).predictor
        ∧ (filter.run .decode three [0x20, 0xC0, 0x40]).2 = .error (.unknownPredictor 3))
      ∧ filter.HandlesRows (.ofParameters zero) ∧ IsUnknown (Prediction.ofParameters zero).predictor
        ∧ (Prediction.ofParameters zero).predictor ≤ 1
        ∧ filter.run .decode zero [0x20, 0xC0, 0x40]
          = filter.run .decode (Parameters.plain zero) [0x20, 0xC0, 0x40] := by
  intro three zero filter
  have handles : filter.HandlesRows (.ofParameters three) := .lzw .idle (.inr (by decide))
  have handles' : filter.HandlesRows (.ofParameters zero) := .lzw .idle (.inr (by decide))
  have unknown : IsUnknown (Prediction.ofParameters three).predictor := by unfold IsUnknown; decide
  have unknown' : IsUnknown (Prediction.ofParameters zero).predictor := by unfold IsUnknown; decide
  have large : 1 < (Prediction.ofParameters three).predictor := by decide
  have small : (Prediction.ofParameters zero).predictor ≤ 1 := by decide
  have refused := ((decode_of_isUnknown handles unknown).2.1 large).1 [0x20, 0xC0, 0x40]
  have decoded := ((decode_of_isUnknown handles' unknown').2.2 small).1 [0x20, 0xC0, 0x40]
  exact ⟨⟨handles, unknown, large, congrArg Prod.snd refused⟩, handles', unknown', small, decoded⟩

/-- With the predictor 0, codes and a compressed stream of one byte are decoded, although putting rows
back refuses that value. So decoders do not refuse all unknown predictors. -/
theorem not_forall_refused_of_isUnknown :
    let zero := some (Parameters.ofList [("Predictor", 0)])
    (Prediction.ofParameters zero).undo [0x41] = .error (.unknownPredictor 0)
      ∧ ((Filter.lzw .idle).run .decode zero [0x20, 0xC0, 0x40]).2 = .ok [0x41]
      ∧ ((Filter.flate (.idle {})).run .decode zero
          [0x78, 0x01, 0x01, 0x01, 0x00, 0xFE, 0xFF, 0x41, 0x00, 0x42, 0x00, 0x42]).2 = .ok [0x41]
      ∧ ¬ ∀ (filter : Filter) (parameters : Option Parameters) (data : List UInt8),
          filter.HandlesRows (.ofParameters parameters) →
          IsUnknown (Prediction.ofParameters parameters).predictor →
          (filter.run .decode parameters data).2
            = .error (.unknownPredictor (Prediction.ofParameters parameters).predictor) := by
  intro zero
  have codes : ((Filter.lzw .idle).run .decode zero [0x20, 0xC0, 0x40]).2 = .ok [0x41] := by
    decide +kernel
  have stream : ((Filter.flate (.idle {})).run .decode zero
      [0x78, 0x01, 0x01, 0x01, 0x00, 0xFE, 0xFF, 0x41, 0x00, 0x42, 0x00, 0x42]).2 = .ok [0x41] := by
    have inflates : Host.Inflates Inflate.inflation (Flate.idle {}).config.bufferSize :=
      Host.inflates_builtIn (by decide)
    rw [Filter.run_decode_flate zero (.idle {}) rfl rfl inflates]
    decide +kernel
  refine ⟨rfl, codes, stream, ?_⟩
  intro refused
  have unknown : IsUnknown (Prediction.ofParameters zero).predictor := by unfold IsUnknown; decide
  have failed := refused (.lzw .idle) zero [0x20, 0xC0, 0x40] (.lzw .idle (.inr (by decide))) unknown
  cases failed.symm.trans codes

end Session

end PdfFilters

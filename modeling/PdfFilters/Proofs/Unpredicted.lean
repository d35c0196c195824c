import PdfFilters.Proofs.Predicted
import PdfFilters.Proofs.Rows.Refusal
import PdfFilters.Proofs.Support

/-!
# Encoding predicts no rows

Where a stage has a predictor, decoding puts rows back. Encoding has no use for parameters, so it does not
predict the rows that come to such a stage, but compresses them as they are. When the chain decodes what it
has encoded, all goes well up to the first of these stages (`Stage.run_decode_of_encoded`). This one takes
what it was given for predicted rows, and the later stages work on what has become of them (`reread`,
`Chain.decode_encode_eq_reread`).

If there are no later stages, the data themselves are taken for predicted rows. Hardly any data are the
same afterwards: none at all if the rows have tags, which are cut off, and only those that are their own
differences if they have none (`Prediction.undo_eq_self_iff`).
-/

namespace PdfFilters

/-! ## Data that putting rows back does not change -/

/-- Restored rows are shorter than the data, because their tags are gone. -/
theorem size_undoTaggedFrom {layout : Layout} {above restored rows : Array UInt8} {data : List UInt8}
    (undone : undoTaggedFrom layout above restored data = .ok rows) :
    rows.size ≤ restored.size + data.length
      ∧ (data ≠ [] → rows.size < restored.size + data.length) := by
  fun_induction undoTaggedFrom layout above restored data with
  | case1 above restored =>
    cases undone
    refine ⟨Nat.le_refl _, ?_⟩
    intro some
    exact absurd rfl some
  | case2 => cases undone
  | case3 above restored tag rest filter found row ih =>
    have shorter := (ih undone).1
    have size : row.size = min layout.rowBytes rest.length := by
      rw [filter.size_undoRow, List.length_take]
    rw [Array.size_append, size, List.length_drop] at shorter
    rw [List.length_cons]
    refine ⟨by omega, ?_⟩
    intro _
    omega

theorem undoTagged_eq_self_iff (layout : Layout) (data : List UInt8) :
    undoTagged layout data = .ok data ↔ data = [] := by
  constructor
  · intro undone
    obtain ⟨rows, restored, same⟩ := exists_of_map_ok undone
    have shorter := (size_undoTaggedFrom restored).2
    have size : data.length = rows.size := by
      rw [← same, Array.length_toList]
    rw [Array.size_empty, Nat.zero_add, size] at shorter
    by_contra some
    exact Nat.lt_irrefl _ (shorter some)
  · rintro rfl
    rw [undoTagged, undoTaggedFrom]
    rfl

theorem Prediction.predictor_ne_one {prediction : Prediction} (active : prediction.isActive = true) :
    prediction.predictor ≠ 1 := by
  have large := of_decide_eq_true active
  omega

/-- Only data without any rows and data that are their own differences stay as they are. -/
theorem Prediction.undo_eq_self_iff {prediction : Prediction} {layout : Layout}
    (changes : prediction.predictor ≠ 1) (known : isPredictor prediction.predictor = true)
    (valid : prediction.layout = .ok layout) (data : List UInt8) :
    prediction.undo data = .ok data
      ↔ data = [] ∨ (prediction.predictor = 2 ∧ AreRowDifferences layout data data) := by
  rcases isPredictor_iff.mp known with nothing | differences | tagged
  · exact absurd nothing changes
  · have undone : prediction.undo data = .ok (undoDifferences layout data) := by
      rw [undo_of_differences differences, valid]
      rfl
    rw [undone, Except.ok.injEq, undoDifferences_eq_iff]
    constructor
    · intro own
      exact .inr ⟨differences, own⟩
    · rintro (rfl | ⟨-, own⟩)
      · rw [← undoDifferences_eq_iff]
        unfold undoDifferences
        rw [Layout.mapRowsFrom]
      · exact own
  · have undone : prediction.undo data = undoTagged layout data := by
      rw [undo_of_tagged tagged, valid]
      rfl
    rw [undone, undoTagged_eq_self_iff]
    constructor
    · exact .inl
    · rintro (none | ⟨differences, -⟩)
      · exact none
      · omega

/-! ## One stage -/

section

variable [Host]

namespace Filter

variable {filter : Filter} {parameters : Option Parameters} {data encoded : List UInt8}

theorem supports_of_run {direction : Direction}
    (ran : (filter.run direction parameters data).2 = .ok encoded) :
    filter.supports direction = true := by
  by_contra unsupported
  rw [Bool.not_eq_true] at unsupported
  rw [run_snd, runOnce_of_unsupported unsupported] at ran
  cases ran

/-- The engines of the filter, if it has any, inflate to the data what they have compressed. Nothing is
said of an empty buffer, with which nothing is ever compressed. -/
def IsLossless (format : List UInt8 → Inflation) : Filter → Prop
  | .flate state => 0 < state.config.bufferSize →
    Host.Restores format state.config.level state.config.bufferSize
      ∧ Host.Inflates format state.config.bufferSize
  | _ => True

/-- What was compressed is a stream of the data, and has been written through a buffer that is not
empty. -/
theorem format_of_run_encode {format : List UInt8 → Inflation} {state : Flate}
    (lossless : (flate state).IsLossless format)
    (ran : ((flate state).run .encode parameters data).2 = .ok encoded) :
    format encoded = .finished data ∧ Host.Inflates format state.config.bufferSize := by
  have pos : 0 < state.config.bufferSize := by
    rw [Nat.pos_iff_ne_zero]
    intro empty
    exact run_encode_ne_ok_of_no_room empty parameters data encoded ran
  obtain ⟨restores, inflates⟩ := lossless pos
  rw [run_encode_flate parameters data state (reserve_of_run_encode ran)] at ran
  have known := restores.format_of_compressedTo ran
  rw [List.flatten_singleton] at known
  exact ⟨known, inflates⟩

/-- A stream is inflated, and then its data are taken for predicted rows. -/
theorem run_decode_flate_predicted {format : List UInt8 → Inflation} {state : Flate}
    (room : reserve 0 state.config.bufferSize = .ok ())
    (inflates : Host.Inflates format state.config.bufferSize)
    (active : (Prediction.ofParameters parameters).isActive = true)
    (known : format encoded = .finished data) :
    ((flate state).run .decode parameters encoded).2
      = (Prediction.ofParameters parameters).undo data := by
  have handles : (flate state).HandlesRows (.ofParameters parameters) := .flate state _
  cases started : RowStore.start (.ofParameters parameters) with
  | error fault =>
    rw [run_snd, runOnce, begin_of_start_error handles active started,
      RowStore.undo_of_start_error (Prediction.predictor_ne_one active) started]
    rfl
  | ok rows =>
    have inflated := run_decode_flate (Parameters.plain parameters) state room
      (Prediction.isActive_plain parameters) inflates encoded
    rw [known, Inflation.output] at inflated
    have raw : (Session.passed (flate state) .decode (Parameters.plain parameters) [encoded]).output
        = .ok data :=
      (Session.run_eq_passed ..).symm.trans inflated
    have decoded := Session.passed_predicted active started handles [encoded]
    rw [raw] at decoded
    rw [Session.run_eq_passed, decoded]
    exact Emission.output_whole ..

end Filter

namespace Stage

/-- Whether decoding puts the rows of a compressed stream back. No other filter both encodes data and puts
rows back. -/
def restoresRows (stage : Stage) : Bool :=
  match stage.filter with
  | .flate _ => (Prediction.ofParameters stage.parameters).isActive
  | _ => false

theorem isActive_of_restoresRows {stage : Stage} (restores : stage.restoresRows = true) :
    (Prediction.ofParameters stage.parameters).isActive = true := by
  obtain ⟨filter, parameters⟩ := stage
  cases filter with
  | flate state => exact restores
  | hex | base85 | lzw | runLength | absent => cases restores

/-- What a stage makes of data that it has encoded itself. -/
def reread (stage : Stage) (data : List UInt8) : Except Fault (List UInt8) :=
  if stage.restoresRows then (Prediction.ofParameters stage.parameters).undo data else .ok data

/-- A stage decodes what it has encoded to the data, but for the rows that it puts back. -/
theorem run_decode_of_encoded {format : List UInt8 → Inflation} {stage : Stage}
    (lossless : stage.filter.IsLossless format) {data encoded : List UInt8}
    (written : (stage.filter.run .encode stage.parameters data).2 = .ok encoded) :
    (stage.filter.run .decode stage.parameters encoded).2 = stage.reread data := by
  have supported := Filter.supports_of_run written
  obtain ⟨filter, parameters⟩ := stage
  cases filter with
  | hex state =>
    rw [Filter.run_encode_hex] at written
    cases written
    exact Filter.run_decode_hex parameters data state
  | base85 state =>
    obtain ⟨text, same, read⟩ := Filter.exists_run_base85 parameters data
    rw [same state] at written
    cases written
    exact read state parameters
  | flate state =>
    have room := Filter.reserve_of_run_encode written
    obtain ⟨known, inflates⟩ := Filter.format_of_run_encode lossless written
    cases active : (Prediction.ofParameters parameters).isActive with
    | true =>
      have read : reread ⟨.flate state, parameters⟩ data
          = (Prediction.ofParameters parameters).undo data := if_pos active
      rw [read]
      exact Filter.run_decode_flate_predicted room inflates active known
    | false =>
      have read : reread ⟨.flate state, parameters⟩ data = .ok data :=
        if_neg (Bool.eq_false_iff.mp active)
      have decoded := Filter.run_decode_flate parameters state room active inflates encoded
      rw [known, Inflation.output] at decoded
      rw [read]
      exact decoded
  | lzw | runLength | absent => cases supported

end Stage

/-! ## Chains -/

/-- What decoding makes of data that the same stages have encoded. The first stage that puts rows back
takes for predicted rows what comes to it in encoding, and the later ones decode what has become of this. -/
def reread (data : List UInt8) : List PlacedStage → Except ChainFault (List UInt8)
  | [] => .ok data
  | (stage, place) :: later =>
    if stage.restoresRows then do
      let given ← later.reverse.foldlM (PlacedStage.output .encode) data
      let rows ← ((Prediction.ofParameters stage.parameters).undo given).mapError
        (⟨place, stage.filter.name, ·⟩)
      later.foldlM (PlacedStage.output .decode) rows
    else reread data later

/-- Stages decode what they have encoded up to the first one that puts rows back. -/
theorem foldlM_decode_of_encoded {format : List UInt8 → Inflation} {stages : List PlacedStage}
    (lossless : ∀ stage ∈ stages, stage.1.filter.IsLossless format) {data encoded : List UInt8}
    (written : stages.reverse.foldlM (PlacedStage.output .encode) data = .ok encoded) :
    stages.foldlM (PlacedStage.output .decode) encoded = reread data stages := by
  induction stages generalizing encoded with
  | nil => exact written.symm
  | cons placed later ih =>
    obtain ⟨stage, place⟩ := placed
    obtain ⟨here, further⟩ := List.forall_mem_cons.mp lossless
    -- Encoding comes to this stage last, and decoding begins with it.
    rw [List.reverse_cons, List.foldlM_append] at written
    obtain ⟨given, earlier, last⟩ := exists_of_bind_ok written
    rw [List.foldlM_cons] at last
    obtain ⟨text, last, done⟩ := exists_of_bind_ok last
    cases done
    have first : PlacedStage.output .decode encoded (stage, place)
        = (stage.reread given).mapError (⟨place, stage.filter.name, ·⟩) := by
      rw [PlacedStage.output, Stage.run_decode_of_encoded here (ok_of_mapError_ok last)]
    rw [List.foldlM_cons, first, reread, Stage.reread]
    by_cases restores : stage.restoresRows = true
    · rw [if_pos restores, if_pos restores, earlier]
      rfl
    · rw [if_neg restores, if_neg restores]
      exact ih further earlier

/-- Stages that put no rows back pass over what the later ones make of the data. -/
theorem reread_append {before : List PlacedStage}
    (plain : ∀ stage ∈ before, stage.1.restoresRows = false) (data : List UInt8)
    (stages : List PlacedStage) : reread data (before ++ stages) = reread data stages := by
  induction before with
  | nil => rfl
  | cons placed later ih =>
    obtain ⟨here, further⟩ := List.forall_mem_cons.mp plain
    rw [List.cons_append, reread, if_neg (Bool.eq_false_iff.mp here), ih further]

theorem reread_of_plain {stages : List PlacedStage}
    (plain : ∀ stage ∈ stages, stage.1.restoresRows = false) (data : List UInt8) :
    reread data stages = .ok data := by
  rw [← List.append_nil stages, reread_append plain, reread]

namespace Chain

variable {format : List UInt8 → Inflation}

/-- What a chain has encoded, the chain that this leaves decodes as its stages do. -/
theorem decode_of_encoded {chain : Chain}
    (lossless : ∀ stage ∈ chain.stages, stage.filter.IsLossless format) {data encoded : List UInt8}
    (written : (chain.encode data).2 = .ok encoded) :
    ((chain.encode data).1.decode encoded).2 = reread data chain.stages.zipIdx := by
  have same : ((chain.encode data).1.decode encoded).2 = (chain.decode encoded).2 :=
    run_foldl_after chain [.encode data] .decode encoded
  rw [encode_eq_foldlM] at written
  have placed : ∀ stage ∈ chain.stages.zipIdx, stage.1.filter.IsLossless format :=
    fun _ listed => lossless _ (List.fst_mem_of_mem_zipIdx listed)
  rw [same, decode_eq_foldlM, foldlM_decode_of_encoded placed written]

theorem plain_zipIdx {stages : List Stage} (plain : ∀ stage ∈ stages, stage.restoresRows = false) :
    ∀ stage ∈ stages.zipIdx, stage.1.restoresRows = false :=
  fun _ listed => plain _ (List.fst_mem_of_mem_zipIdx listed)

/-- A chain decodes what it has encoded to the data only up to the first stage that puts rows back: this
one takes for predicted rows what it was given. So without such a stage the data come back. If only the
last stage is one, the data themselves are taken for predicted rows, and they come back just in case that
does not change them. -/
theorem decode_encode_eq_reread {chain : Chain}
    (lossless : ∀ stage ∈ chain.stages, stage.filter.IsLossless format) {data encoded : List UInt8}
    (written : (chain.encode data).2 = .ok encoded) :
    let decoded := ((chain.encode data).1.decode encoded).2
    decoded = reread data chain.stages.zipIdx
      ∧ ((∀ stage ∈ chain.stages, stage.restoresRows = false) → decoded = .ok data)
      ∧ ∀ before last, chain.stages = before ++ [last] →
        (∀ stage ∈ before, stage.restoresRows = false) → last.restoresRows = true →
        let prediction := Prediction.ofParameters last.parameters
        decoded = (prediction.undo data).mapError (⟨before.length, last.filter.name, ·⟩)
          ∧ ∀ store layout, RowStore.start prediction = .ok store → prediction.layout = .ok layout →
            (decoded = .ok data
              ↔ data = [] ∨ (prediction.predictor = 2 ∧ AreRowDifferences layout data data)) := by
  intro decoded
  have same : decoded = reread data chain.stages.zipIdx := decode_of_encoded lossless written
  refine ⟨same, ?_, ?_⟩
  · intro plain
    rw [same]
    exact reread_of_plain (plain_zipIdx plain) data
  · intro before last split plain restores prediction
    have undone : decoded
        = (prediction.undo data).mapError (⟨before.length, last.filter.name, ·⟩) := by
      rw [same, split, List.zipIdx_append, reread_append (plain_zipIdx plain), List.zipIdx_singleton,
        reread, if_pos restores, Nat.zero_add]
      show (prediction.undo data).mapError _ >>= pure = _
      rw [bind_pure]
    refine ⟨undone, ?_⟩
    intro store layout started valid
    obtain ⟨known, -⟩ := RowStore.exists_of_start started
    have changes := Prediction.predictor_ne_one (Stage.isActive_of_restoresRows restores)
    rw [undone, ← Prediction.undo_eq_self_iff changes known valid]
    constructor
    · exact ok_of_mapError_ok
    · intro unchanged
      rw [unchanged]
      rfl

end Chain

end

/-- The library is equipped for a filter with the usual configuration, and it loses nothing. -/
theorem Filter.isEquipped_usual :
    (flate (.idle {})).IsEquipped ∧ (flate (.idle {})).IsLossless Inflate.inflation :=
  ⟨⟨rfl, Host.compresses_builtIn (by decide) _⟩,
    fun pos => ⟨Host.restores_builtIn _, Host.inflates_builtIn pos⟩⟩

namespace Chain

/-- Text for four zeros comes to a stage with tagged rows, and its first letter is no tag. -/
theorem decode_encode_eq_reread_text :
    let parameters := some (Parameters.ofList [("Predictor", 12), ("Columns", 2)])
    let chain : Chain :=
      ⟨[⟨.hex .idle, none⟩, ⟨.flate (.idle {}), parameters⟩, ⟨.base85 .idle, none⟩]⟩
    (∀ stage ∈ chain.stages, stage.filter.IsLossless Inflate.inflation)
      ∧ ∃ encoded, (chain.encode [0, 0, 0, 0]).2 = .ok encoded
        ∧ ((chain.encode [0, 0, 0, 0]).1.decode encoded).2
          = .error ⟨1, "FlateDecode", .unknownPredictor 132⟩ := by
  intro parameters chain
  obtain ⟨equipped, lossless⟩ : (∀ stage ∈ chain.stages, stage.filter.IsEquipped)
      ∧ ∀ stage ∈ chain.stages, stage.filter.IsLossless Inflate.inflation := by
    simp only [chain, List.forall_mem_cons]
    obtain ⟨equipped, lossless⟩ := Filter.isEquipped_usual
    exact ⟨⟨trivial, equipped, trivial, List.forall_mem_nil _⟩,
      trivial, lossless, trivial, List.forall_mem_nil _⟩
  obtain ⟨encoded, written⟩ := exists_encode equipped rfl [0, 0, 0, 0]
  refine ⟨lossless, encoded, written, ?_⟩
  rw [(decode_encode_eq_reread lossless written).1]
  decide +kernel

/-- Two equal bytes are compressed as they are, and are taken for a byte and a difference. -/
theorem decode_encode_differs :
    let parameters := some (Parameters.ofList [("Predictor", 2), ("Columns", 2)])
    let stage : Stage := ⟨.flate (.idle {}), parameters⟩
    let chain : Chain := ⟨[stage]⟩
    (∃ encoded, (chain.encode [1, 1]).2 = .ok encoded
        ∧ ((chain.encode [1, 1]).1.decode encoded).2 = .ok [1, 2])
      ∧ ¬ ∀ (chain : Chain) (data encoded : List UInt8), chain.supports .encode = true →
        (∃ stage ∈ chain.stages, stage.restoresRows = true
          ∧ ∃ ready, stage.filter.begin .decode stage.parameters = (ready, .ok ())) →
        (chain.encode data).2 = .ok encoded →
        ((chain.encode data).1.decode encoded).2 = .ok data := by
  intro parameters stage chain
  obtain ⟨equipped, lossless⟩ := Filter.isEquipped_usual
  have equipped : ∀ stage ∈ chain.stages, stage.filter.IsEquipped :=
    List.forall_mem_singleton.mpr equipped
  obtain ⟨encoded, written⟩ := exists_encode equipped rfl [1, 1]
  have decoded : ((chain.encode [1, 1]).1.decode encoded).2 = .ok [1, 2] := by
    rw [decode_of_encoded (List.forall_mem_singleton.mpr lossless) written]
    decide +kernel
  refine ⟨⟨encoded, written, decoded⟩, ?_⟩
  intro returns
  have accepted : ∃ stage ∈ chain.stages, stage.restoresRows = true
      ∧ ∃ ready, stage.filter.begin .decode stage.parameters = (ready, .ok ()) :=
    ⟨stage, List.mem_cons_self, rfl, _, rfl⟩
  have same := returns chain [1, 1] encoded rfl accepted written
  cases same.symm.trans decoded

end Chain

end PdfFilters

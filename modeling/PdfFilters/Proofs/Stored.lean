import PdfFilters.Proofs.Cut
import PdfFilters.Rows.Undo

/-!
# Decoding into rows

With a predictor, the output of a codec goes into a row store and the sink gets nothing before the
end. A block then emits nothing, but the bytes it would have emitted are in the store (`stored`).
Where the codec can be cut, the codec with its store can be cut, and its cuts do not show even
before a fault (`Cuttable.stored`).
-/

namespace PdfFilters

variable {σ : Type}

@[simp] theorem RowStore.add_empty (rows : RowStore) : rows.add #[] = rows := by
  simp [RowStore.add]

theorem RowStore.add_append (rows : RowStore) (first second : List UInt8) :
    rows.add (first ++ second).toArray = (rows.add first.toArray).add second.toArray := by
  simp [RowStore.add]

/-- What a codec emits whose output goes into rows. -/
def stored (take : σ → List UInt8 → Emission σ) (state : σ × RowStore) (block : List UInt8) :
    Emission (σ × RowStore) :=
  .quiet ((take state.1 block).result.map fun next =>
    (next, state.2.add (take state.1 block).bytes.toArray))

/-- One block after another puts into the rows what both put there in a row. -/
theorem stored_andThen (take : σ → List UInt8 → Emission σ) (start : σ) (rows : RowStore)
    (first second : List UInt8) :
    ((stored take (start, rows) first).andThen fun next => stored take next second)
      = .quiet (((take start first).andThen fun next => take next second).result.map fun next =>
          (next, rows.add
            ((take start first).andThen fun next => take next second).bytes.toArray)) := by
  simp only [stored]
  obtain ⟨bytes, answer⟩ := take start first
  cases answer with
  | error fault => rfl
  | ok next =>
    simp only [Emission.andThen_ok, RowStore.add_append]
    rfl

/-- Calls that end alike end alike with their output in rows, and nothing else is written. -/
theorem Emission.Alike.stored {similar : σ → σ → Prop} {exact : Prop} {first second : Emission σ}
    (h : Alike similar exact first second) (rows : RowStore) :
    Alike (fun a b => similar a.1 b.1 ∧ a.2 = b.2) True
      (.quiet (first.result.map fun next => (next, rows.add first.bytes.toArray)))
      (.quiet (second.result.map fun next => (next, rows.add second.bytes.toArray))) := by
  cases h with
  | ok states => exact .ok ⟨states, rfl⟩
  | error => exact .error fun _ => rfl

/-- If the stream of a codec can be cut, it can be cut with the output going into rows. -/
theorem Cuttable.stored {take : σ → List UInt8 → Emission σ} {occurs : σ → Prop}
    {similar : σ → σ → Prop} {exact : Prop} (cuttable : Cuttable take occurs similar exact) :
    Cuttable (PdfFilters.stored take) (fun state => occurs state.1)
      (fun a b => similar a.1 b.1 ∧ a.2 = b.2) True where
  occurs_of_ok {state next block} sound taken := by
    obtain ⟨start, rows⟩ := state
    cases answer : (take start block).result with
    | error fault =>
      simp [PdfFilters.stored, Emission.quiet, answer, Except.map] at taken
    | ok last =>
      simp only [PdfFilters.stored, Emission.quiet, answer, Except.map] at taken
      cases taken
      exact cuttable.occurs_of_ok sound answer
  trans first second third alike alike' :=
    ⟨cuttable.trans _ _ _ alike.1 alike'.1, alike.2.trans alike'.2⟩
  nil {state} sound := by
    obtain ⟨start, rows⟩ := state
    have := (cuttable.nil sound).stored rows
    simp only [Emission.quiet, Except.map, RowStore.add_empty] at this
    exact this
  append {state} first second sound := by
    obtain ⟨start, rows⟩ := state
    rw [stored_andThen]
    exact (cuttable.append first second sound).stored rows

/-- A store that starts is empty, and its rows can be laid out. -/
theorem RowStore.exists_of_start {prediction : Prediction} {store : RowStore}
    (started : start prediction = .ok store) :
    isPredictor prediction.predictor = true
      ∧ ∃ layout, prediction.layout = .ok layout ∧ store = { prediction } := by
  unfold start at started
  by_cases known : isPredictor prediction.predictor = true
  · rw [if_pos known] at started
    obtain ⟨layout, valid, rfl⟩ := exists_of_map_ok started
    exact ⟨known, layout, valid, rfl⟩
  · rw [if_neg known] at started
    cases started

theorem RowStore.eq_of_start {prediction : Prediction} {store : RowStore}
    (started : start prediction = .ok store) : store = { prediction } := by
  obtain ⟨_, _, _, rfl⟩ := exists_of_start started
  rfl

/-- What putting the rows back emits. -/
def RowStore.restored (rows : RowStore) : Emission Unit :=
  match rows.prediction.undo rows.data.toList with
  | .ok bytes => ⟨bytes, .ok ()⟩
  | .error fault => .quiet (.error fault)

theorem RowStore.emits_finish (rows : RowStore) : Emits rows.finish rows.restored := by
  intro sink
  rw [finish, restored]
  cases rows.prediction.undo rows.data.toList with
  | ok bytes => exact Emits.write bytes sink
  | error fault => exact (sink.absorb_quiet _).symm

end PdfFilters

import PdfFilters.Proofs.Rows.CheckedSums
import PdfFilters.Proofs.Rows.CheckedTags

/-!
# Undoing a predictor with machine words and slices

A machine undoes the predictor of whole data in buffers that it asks for, with the measures that it has
computed from the entries. `Prediction.undoChecked` is what it does, and has no answer where a number
does not fit, where data are to be cut into chunks of nothing, or where a place is outside of a slice.

Whatever the entries are, and however much wider than the data they say that a row is, there is an
answer for all data whose bits can be counted, and it is the outcome that undoing the predictor has. No
buffer is larger than the data (`Prediction.undoChecked_eq`).
-/

namespace PdfFilters

/-- What a machine made of data: the sizes of the buffers that it asked for, and the outcome. -/
structure Undone where
  reserved : List Nat
  outcome : Except Fault (List UInt8)

namespace Measures

/-- Restore an image from the differences in its rows, in a buffer of its own. -/
def undoDifferencesChecked (measures : Measures) (data : List UInt8) : Option Undone := do
  let rows ← chunks? measures.rowBytes data
  let restored ← rows.foldlM
    (fun output row => do return output ++ (← measures.sumRowChecked row.toArray)) #[]
  return ⟨[data.length], .ok restored.toList⟩

/-- Restore an image of tagged rows, in a buffer of its own and two rows of scratch. -/
def undoTaggedChecked (measures : Measures) (data : List UInt8) : Option Undone := do
  if data = [] then return ⟨[], .ok []⟩
  else
    let scratch := min measures.rowBytes data.length
    let blank := List.replicate scratch 0
    let rows ← chunks? (← word? (measures.rowBytes + 1)) data
    let restored ← undoRowsChecked measures.pixelBytes blank blank #[] rows
    return ⟨[data.length, scratch, scratch], restored.map (·.toList)⟩

end Measures

/-- Put the rows of decoded data back. -/
def Prediction.undoChecked (prediction : Prediction) (data : List UInt8) : Option Undone :=
  if prediction.predictor = 1 then some ⟨[data.length], .ok data⟩
  else if prediction.predictor = 2 then do
    match ← prediction.measuresChecked with
    | .error fault => return ⟨[], .error fault⟩
    | .ok measures => measures.undoDifferencesChecked data
  else if 10 ≤ prediction.predictor ∧ prediction.predictor ≤ 15 then do
    match ← prediction.measuresChecked with
    | .error fault => return ⟨[], .error fault⟩
    | .ok measures => measures.undoTaggedChecked data
  else some ⟨[], .error (.unknownPredictor prediction.predictor)⟩

namespace Layout

variable (layout : Layout)

theorem rowBytes_lt_maxWord : layout.rowBytes < maxWord := by
  have fits := layout.rowBits_le
  unfold maxWord rowBytes at *
  omega

/-- The rows of an image are added up one after another. -/
theorem foldlM_sumRowChecked (done : Array UInt8) (data : List UInt8)
    (counted : data.length * 8 ≤ maxWord) :
    (chunksOf (layout.rowBytes - 1) data).foldlM
        (fun output row => do return output ++ (← layout.measures.sumRowChecked row.toArray)) done
      = some (layout.mapRowsFrom layout.sumRow done data) := by
  have whole : layout.rowBytes = layout.rowBytes - 1 + 1 :=
    (Nat.sub_add_cancel layout.rowBytes_pos).symm
  fun_induction layout.mapRowsFrom layout.sumRow done data with
  | case1 done =>
    rw [chunksOf]
    rfl
  | case2 done byte rest ih =>
    have taken : (byte :: rest).take layout.rowBytes = byte :: rest.take (layout.rowBytes - 1) := by
      rw [whole, List.take_succ_cons, Nat.add_sub_cancel]
    have left : (byte :: rest).drop layout.rowBytes = rest.drop (layout.rowBytes - 1) := by
      rw [whole, List.drop_succ_cons, Nat.add_sub_cancel]
    have length : ((byte :: rest).take layout.rowBytes).toArray.size
        = min layout.rowBytes (byte :: rest).length := by
      rw [List.size_toArray, List.length_take]
    have summed : layout.measures.sumRowChecked ((byte :: rest).take layout.rowBytes).toArray
        = some (layout.sumRow ((byte :: rest).take layout.rowBytes).toArray) :=
      layout.sumRowChecked_eq (by omega) (by omega)
    have further := ih (by rw [List.length_drop]; omega)
    rw [taken] at summed further
    rw [left] at further
    rw [chunksOf, List.foldlM_cons, summed, taken, left]
    exact further

theorem undoDifferencesChecked_eq {data : List UInt8} (counted : data.length * 8 ≤ maxWord) :
    layout.measures.undoDifferencesChecked data
      = some ⟨[data.length], .ok (undoDifferences layout data)⟩ := by
  have summed := layout.foldlM_sumRowChecked #[] data counted
  have measured : layout.measures.rowBytes = layout.rowBytes := rfl
  rw [Measures.undoDifferencesChecked, measured,
    bind_of_eq_some (chunks?_eq layout.rowBytes_pos data), bind_of_eq_some summed]
  rfl

theorem undoTaggedChecked_eq (data : List UInt8) :
    ∃ reserved, layout.measures.undoTaggedChecked data = some ⟨reserved, undoTagged layout data⟩
      ∧ ∀ size ∈ reserved, size ≤ data.length := by
  rw [Measures.undoTaggedChecked]
  by_cases empty : data = []
  · subst empty
    refine ⟨[], ?_, List.forall_mem_nil _⟩
    rw [if_pos rfl, undoTagged, undoTaggedFrom]
    rfl
  · have scratch : (List.replicate (min layout.rowBytes data.length) (0 : UInt8)).length
        = min layout.rowBytes data.length := List.length_replicate
    have mirrors := RowFilter.mirrors_replicate (min layout.rowBytes data.length)
    have restored := undoRowsChecked_eq layout #[] #[] data
      (Nat.le_trans (Nat.le_of_eq scratch) (Nat.min_le_left _ _)) (Nat.le_of_eq scratch.symm) rfl
      (.inr mirrors)
    refine ⟨[data.length, min layout.rowBytes data.length, min layout.rowBytes data.length], ?_, ?_⟩
    · have chunked : 0 < layout.rowBytes + 1 := Nat.succ_pos _
      rw [if_neg empty, measures]
      dsimp only
      rw [bind_of_eq_some (word?_eq layout.rowBytes_lt_maxWord),
        bind_of_eq_some (chunks?_eq chunked data), Nat.add_sub_cancel, bind_of_eq_some restored]
      rfl
    · have narrow := Nat.min_le_right layout.rowBytes data.length
      intro size asked
      simp only [List.mem_cons, List.not_mem_nil, or_false] at asked
      omega

end Layout

namespace Prediction

/-- Whatever the entries are, undoing the predictor of data whose bits can be counted does not run into
anything, and no buffer is larger than the data. The measures are those of the entries, which describe
rows exactly if they are in range and the bits of a row can be counted. A row then has as many bytes as
its bits fill. -/
theorem undoChecked_eq (prediction : Prediction) {data : List UInt8} (short : data.length < 2 ^ 61) :
    (∀ bytes, prediction.layout.map Layout.rowBytes = .ok bytes
        ↔ prediction.DescribesRows ∧ IsLeast
          {count : Nat | prediction.columns * prediction.colors * prediction.bitsPerComponent
            ≤ ((8 * count : Nat) : Int)} bytes)
      ∧ (∀ bytes, prediction.layout.map Layout.rowBytes = .ok bytes → 1 ≤ bytes)
      ∧ prediction.measuresChecked = some (prediction.layout.map Layout.measures)
      ∧ ∃ reserved, prediction.undoChecked data = some ⟨reserved, prediction.undo data⟩
        ∧ ∀ size ∈ reserved, size ≤ data.length := by
  have counted : data.length * 8 ≤ maxWord := by
    unfold maxWord
    omega
  refine ⟨prediction.rowBytes_eq_ok_iff, ?_, prediction.measuresChecked_eq, ?_⟩
  · intro bytes laid
    cases valid : prediction.layout with
    | error fault =>
      rw [valid] at laid
      cases laid
    | ok layout =>
      rw [valid] at laid
      cases laid
      exact layout.rowBytes_pos
  · rw [undoChecked, undo, measuresChecked_eq]
    by_cases plain : prediction.predictor = 1
    · rw [if_pos plain, if_pos plain]
      exact ⟨_, rfl, List.forall_mem_singleton.mpr (Nat.le_refl _)⟩
    rw [if_neg plain, if_neg plain]
    by_cases sums : prediction.predictor = 2
    · rw [if_pos sums, if_pos sums]
      cases prediction.layout with
      | error fault => exact ⟨_, rfl, List.forall_mem_nil _⟩
      | ok layout =>
        exact ⟨_, layout.undoDifferencesChecked_eq counted,
          List.forall_mem_singleton.mpr (Nat.le_refl _)⟩
    rw [if_neg sums, if_neg sums]
    by_cases tagged : 10 ≤ prediction.predictor ∧ prediction.predictor ≤ 15
    · rw [if_pos tagged, if_pos tagged]
      cases prediction.layout with
      | error fault => exact ⟨_, rfl, List.forall_mem_nil _⟩
      | ok layout => exact layout.undoTaggedChecked_eq data
    · rw [if_neg tagged, if_neg tagged]
      exact ⟨_, rfl, List.forall_mem_nil _⟩

/-- Rows of a billion billion bytes, of which three come, and pixels of twelve bits, of which two
come. -/
theorem undoChecked_eq_wide :
    let tagged : Prediction := { predictor := 12, columns := 0x1000000000000000 }
    let summed : Prediction :=
      { predictor := 2, colors := 3, bitsPerComponent := 4, columns := 0x1000000000000000 }
    let stored : List UInt8 := [2, 7, 8, 9]
    let differences : List UInt8 := [0x12, 0x34, 0x5F]
    (stored.length < 2 ^ 61 ∧ ∃ reserved,
        tagged.undoChecked stored = some ⟨reserved, .ok [7, 8, 9]⟩ ∧ ∀ size ∈ reserved, size ≤ 4)
      ∧ differences.length < 2 ^ 61 ∧ ∃ reserved,
        summed.undoChecked differences = some ⟨reserved, .ok [0x12, 0x35, 0x72]⟩
          ∧ ∀ size ∈ reserved, size ≤ 3 := by
  intro tagged summed stored differences
  have short : stored.length < 2 ^ 61 := by decide
  have short' : differences.length < 2 ^ 61 := by decide
  have restored : tagged.undo stored = .ok [7, 8, 9] := by cbv
  have restored' : summed.undo differences = .ok [0x12, 0x35, 0x72] := by cbv
  obtain ⟨-, -, -, reserved, undone, small⟩ := tagged.undoChecked_eq short
  obtain ⟨-, -, -, reserved', undone', small'⟩ := summed.undoChecked_eq short'
  rw [restored] at undone
  rw [restored'] at undone'
  exact ⟨⟨short, reserved, undone, small⟩, short', reserved', undone', small'⟩

end Prediction

end PdfFilters

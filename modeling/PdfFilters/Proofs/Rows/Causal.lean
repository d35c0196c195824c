import PdfFilters.Proofs.Emission
import PdfFilters.Proofs.Rows.Png
import PdfFilters.Proofs.Rows.Tiff

/-!
# Rows of data that are cut off

What is restored of some data begins with what is restored of any part they begin with
(`Prediction.undo_of_prefix`): no byte that comes out depends on data that come later. The cut may lie
anywhere, behind a tag, inside a pixel, and inside a sample if that is one byte or less. Half a sample
of two bytes is the exception. It comes out as it went in, while the sum it belongs to would have
changed it.

For tagged rows, the walk through the part goes along with the walk through the data up to the last
row of the part, where it finds the beginning of a row (`exists_undoTaggedFrom_of_prefix`). Running sums
are known by the differences they leave (`undoDifferences_eq_iff`), and the first bytes of an image have
the first bytes of its differences, as long as these are whole samples (`AreRowDifferences.take`).
-/

namespace PdfFilters

/-! ## Tagged rows -/

namespace RowFilter

/-- The beginning of a row is restored without looking at the rest of it. -/
theorem undoRow_prefix (filter : RowFilter) (pixel : Nat) (above : Array UInt8)
    {part stored : List UInt8} (cut : part <+: stored) :
    (filter.undoRow pixel above part).toList <+: (filter.undoRow pixel above stored).toList := by
  obtain ⟨rest, rfl⟩ := cut
  induction rest using List.reverseRecOn with
  | nil => rw [List.append_nil]
  | append_singleton rest byte ih =>
    rw [← List.append_assoc, undoRow_concat, Array.toList_push]
    exact ih.trans (List.prefix_append _ _)

end RowFilter

section Tagged

variable {layout : Layout}

/-- What has been restored stays. -/
theorem prefix_undoTaggedFrom {above restored output : Array UInt8} {data : List UInt8}
    (undone : undoTaggedFrom layout above restored data = .ok output) :
    restored.toList <+: output.toList := by
  fun_induction undoTaggedFrom layout above restored data with
  | case1 above restored =>
    cases undone
    exact List.prefix_refl _
  | case2 above restored tag rest unknown => cases undone
  | case3 above restored tag rest filter found row ih =>
    have further := ih undone
    rw [Array.toList_append] at further
    exact (List.prefix_append _ _).trans further

/-- The walk through a part of the data is the walk through the data, as far as it goes. -/
theorem exists_undoTaggedFrom_of_prefix {above restored output : Array UInt8} {data : List UInt8}
    (undone : undoTaggedFrom layout above restored data = .ok output) {part : List UInt8}
    (cut : part <+: data) :
    ∃ kept, undoTaggedFrom layout above restored part = .ok kept ∧ kept.toList <+: output.toList := by
  fun_induction undoTaggedFrom layout above restored data generalizing part with
  | case1 above restored =>
    obtain rfl := List.prefix_nil.mp cut
    cases undone
    exact ⟨_, by rw [undoTaggedFrom], List.prefix_refl _⟩
  | case2 above restored tag rest unknown => cases undone
  | case3 above restored tag rest filter found row ih =>
    have later := prefix_undoTaggedFrom undone
    rw [Array.toList_append] at later
    cases part with
    | nil => exact ⟨restored, by rw [undoTaggedFrom], (List.prefix_append _ _).trans later⟩
    | cons tag' part =>
      obtain ⟨rfl, within⟩ := List.cons_prefix_cons.mp cut
      rw [undoTaggedFrom, found]
      dsimp only
      by_cases long : layout.rowBytes ≤ part.length
      · -- The row is there as a whole, so both walks go on with the same row above.
        have same : part.take layout.rowBytes = rest.take layout.rowBytes := by
          obtain ⟨behind, rfl⟩ := within
          rw [List.take_append_of_le_length long]
        rw [same]
        exact ih undone (within.drop layout.rowBytes)
      · have short : part.length ≤ layout.rowBytes := by omega
        rw [List.drop_eq_nil_of_le short, undoTaggedFrom]
        refine ⟨_, rfl, ?_⟩
        have begun := filter.undoRow_prefix layout.pixelBytes above (within.take layout.rowBytes)
        rw [Array.toList_append]
        exact ((List.prefix_append_right_inj _).mpr begun).trans later

theorem exists_undoTagged_of_prefix {data restored part : List UInt8}
    (undone : undoTagged layout data = .ok restored) (cut : part <+: data) :
    ∃ kept, undoTagged layout part = .ok kept ∧ kept <+: restored := by
  obtain ⟨output, walked, rfl⟩ := exists_of_map_ok undone
  obtain ⟨kept, walked', begun⟩ := exists_undoTaggedFrom_of_prefix walked cut
  rw [undoTagged, walked']
  exact ⟨_, rfl, begun⟩

end Tagged

/-! ## Rows of differences -/

/-- A sample is read from the bits of its own row. -/
theorem sampleOf_append {bits index : Nat} {row : List UInt8} (further : List UInt8)
    (inside : (index + 1) * bits ≤ 8 * row.length) :
    sampleOf bits (row ++ further) index = sampleOf bits row index := by
  have long : index * bits + bits ≤ (highBitsOf row).length := by
    rw [length_highBitsOf, ← Nat.succ_mul]
    exact inside
  unfold sampleOf
  rw [highBitsOf_append, List.drop_append_of_le_length (by omega),
    List.take_append_of_le_length (by rw [List.length_drop]; omega)]

section Differences

variable {layout : Layout}

theorem countedSamples_inside (layout : Layout) {row : List UInt8} {index : Nat}
    (counts : index < countedSamples layout row) : (index + 1) * layout.bits ≤ 8 * row.length := by
  have whole : index < 8 * row.length / layout.bits := Nat.lt_of_lt_of_le counts (Nat.min_le_right _ _)
  exact (Nat.le_div_iff_mul_le layout.bits_pos).mp whole

/-- Where a row is cut off between two samples, it ends with the bits behind its samples or has none
there. -/
theorem countedSamples_take (layout : Layout) {count : Nat} (whole : layout.bits ∣ 8 * count)
    (row : List UInt8) :
    countedSamples layout (row.take count) = countedSamples layout row
      ∨ (countedSamples layout (row.take count) ≤ countedSamples layout row
        ∧ countedSamples layout (row.take count) * layout.bits = 8 * count) := by
  unfold countedSamples
  by_cases long : row.length ≤ count
  · rw [List.take_of_length_le long]
    exact .inl rfl
  · obtain ⟨samples, multiple⟩ := whole
    have length : (row.take count).length = count := List.length_take_of_le (by omega)
    have present : 8 * count / layout.bits = samples := by
      rw [multiple, Nat.mul_div_cancel_left _ layout.bits_pos]
    have fewer : samples ≤ 8 * row.length / layout.bits := by
      rw [← present]
      exact Nat.div_le_div_right (by omega)
    rw [length, present]
    by_cases enough : layout.columns * layout.colors ≤ samples
    · left
      omega
    · right
      have all : min (layout.columns * layout.colors) samples = samples :=
        Nat.min_eq_right (by omega)
      rw [all, multiple, Nat.mul_comm layout.bits]
      exact ⟨Nat.le_min.mpr ⟨by omega, fewer⟩, rfl⟩

/-- Rows that agree in their samples with a row and its differences, as far as these count, are a row
and its differences, if they do so behind them. -/
theorem AreDifferences.of_same {row differences row' differences' : List UInt8}
    (held : AreDifferences layout row differences)
    (length_eq : differences'.length = row'.length)
    (fewer : countedSamples layout row' ≤ countedSamples layout row)
    (same : ∀ index < countedSamples layout row',
      sampleOf layout.bits row' index = sampleOf layout.bits row index
        ∧ sampleOf layout.bits differences' index = sampleOf layout.bits differences index)
    (rest : (highBitsOf differences').drop (countedSamples layout row' * layout.bits)
      = (highBitsOf row').drop (countedSamples layout row' * layout.bits)) :
    AreDifferences layout row' differences' := by
  refine ⟨length_eq, ?_, ?_, rest⟩
  · intro index counts early
    obtain ⟨own, coded⟩ := same index counts
    rw [own, coded]
    exact held.first index (Nat.lt_of_lt_of_le counts fewer) early
  · intro index counts behind
    obtain ⟨own, coded⟩ := same index counts
    obtain ⟨left, _⟩ := same (index - layout.colors) (by omega)
    rw [own, coded, left]
    exact held.later index (Nat.lt_of_lt_of_le counts fewer) behind

/-- The first samples of a row have the first samples of its differences. -/
theorem AreDifferences.take {row differences : List UInt8}
    (held : AreDifferences layout row differences) {count : Nat}
    (whole : layout.bits ∣ 8 * count) :
    AreDifferences layout (row.take count) (differences.take count) := by
  have counted := countedSamples_take layout whole row
  have length_eq : (differences.take count).length = (row.take count).length := by
    rw [List.length_take, List.length_take, held.length_eq]
  refine held.of_same length_eq (by omega) ?_ ?_
  · intro index counts
    have inside := countedSamples_inside layout counts
    have own := sampleOf_append (row.drop count) inside
    have coded := sampleOf_append (differences.drop count) (length_eq ▸ inside)
    rw [List.take_append_drop] at own coded
    exact ⟨own.symm, coded.symm⟩
  · rw [highBitsOf_take, highBitsOf_take, List.drop_take, List.drop_take]
    rcases counted with all | ⟨_, none⟩
    · rw [all, held.rest]
    · rw [none, Nat.sub_self, List.take_zero, List.take_zero]

/-- Half a sample at the end of a row stays as it is. -/
theorem AreDifferences.concat {row differences : List UInt8}
    (held : AreDifferences layout row differences) (sixteen : layout.bits = 16)
    (whole : row.length % 2 = 0) (byte : UInt8) :
    AreDifferences layout (row ++ [byte]) (differences ++ [byte]) := by
  have counted : countedSamples layout (row ++ [byte]) = countedSamples layout row := by
    unfold countedSamples
    rw [sixteen, List.length_append, List.length_singleton]
    omega
  have length_eq : (differences ++ [byte]).length = (row ++ [byte]).length := by
    rw [List.length_append, List.length_append, held.length_eq]
  refine held.of_same length_eq (Nat.le_of_eq counted) ?_ ?_
  · intro index counts
    rw [counted] at counts
    have inside := countedSamples_inside layout counts
    exact ⟨sampleOf_append [byte] inside, sampleOf_append [byte] (held.length_eq ▸ inside)⟩
  · have inside : countedSamples layout row * layout.bits ≤ 8 * row.length :=
      Nat.le_trans (Nat.mul_le_mul_right _ (Nat.min_le_right _ _)) (Nat.div_mul_le_self _ _)
    rw [counted, highBitsOf_append, highBitsOf_append,
      List.drop_append_of_le_length (by rw [length_highBitsOf, held.length_eq]; exact inside),
      List.drop_append_of_le_length (by rw [length_highBitsOf]; exact inside), held.rest]

theorem AreRowDifferences.take {image coded : List UInt8}
    (held : AreRowDifferences layout image coded) {count : Nat}
    (whole : layout.bits ∣ 8 * count) :
    AreRowDifferences layout (image.take count) (coded.take count) := by
  refine ⟨?_, ?_⟩
  · rw [List.length_take, List.length_take, held.length_eq]
  · intro row
    show AreDifferences layout (rowAt layout.rowBytes (image.take count) row)
      (rowAt layout.rowBytes (coded.take count) row)
    rw [rowAt_take, rowAt_take]
    apply (held.rows row).take
    rw [Nat.mul_sub, Nat.mul_left_comm]
    exact Nat.dvd_sub whole (Nat.dvd_mul_left_of_dvd layout.bits_dvd_rowBytes _)

theorem AreRowDifferences.concat {image coded : List UInt8}
    (held : AreRowDifferences layout image coded) (sixteen : layout.bits = 16)
    (whole : image.length % 2 = 0) (byte : UInt8) :
    AreRowDifferences layout (image ++ [byte]) (coded ++ [byte]) := by
  refine ⟨?_, ?_⟩
  · rw [List.length_append, List.length_append, held.length_eq]
  · intro row
    show AreDifferences layout (rowAt layout.rowBytes (image ++ [byte]) row)
      (rowAt layout.rowBytes (coded ++ [byte]) row)
    rw [rowAt_concat, rowAt_concat, held.length_eq]
    by_cases here : row * layout.rowBytes ≤ image.length
        ∧ image.length < row * layout.rowBytes + layout.rowBytes
    · rw [if_pos here, if_pos here]
      apply (held.rows row).concat sixteen
      show (rowAt layout.rowBytes image row).length % 2 = 0
      have even : 2 ∣ row * layout.rowBytes := by
        have samples := layout.bits_dvd_rowBytes
        rw [sixteen] at samples
        exact Nat.dvd_mul_left_of_dvd (by omega) row
      rw [rowAt, List.length_take, List.length_drop, Nat.min_eq_right (by omega)]
      omega
    · rw [if_neg here, if_neg here]
      exact held.rows row

theorem undoDifferences_take {count : Nat} (whole : layout.bits ∣ 8 * count) (data : List UInt8) :
    undoDifferences layout (data.take count) = (undoDifferences layout data).take count :=
  (undoDifferences_eq_iff layout).mpr (((undoDifferences_eq_iff layout).mp rfl).take whole)

theorem undoDifferences_concat (sixteen : layout.bits = 16) {data : List UInt8}
    (whole : data.length % 2 = 0) (byte : UInt8) :
    undoDifferences layout (data ++ [byte]) = undoDifferences layout data ++ [byte] := by
  have held : AreRowDifferences layout (undoDifferences layout data) data :=
    (undoDifferences_eq_iff layout).mp rfl
  exact (undoDifferences_eq_iff layout).mpr (held.concat sixteen (held.length_eq ▸ whole) byte)

/-- The first samples of the data have the first of the sums. -/
theorem undoDifferences_prefix {part data : List UInt8} (cut : part <+: data)
    (whole : layout.bits ∣ 8 * part.length) :
    undoDifferences layout part <+: undoDifferences layout data := by
  rw [List.prefix_iff_eq_take.mp cut, undoDifferences_take whole]
  exact List.take_prefix _ _

/-- With half a sample more, there is one more byte, which is not summed. -/
theorem exists_undoDifferences_of_odd (sixteen : layout.bits = 16) {part data : List UInt8}
    (cut : part <+: data) (odd : part.length % 2 = 1) :
    ∃ front last, part.getLast? = some last ∧ undoDifferences layout part = front ++ [last]
      ∧ front <+: undoDifferences layout data := by
  rcases List.eq_nil_or_concat part with rfl | ⟨front, last, rfl⟩
  · cases odd
  · rw [List.concat_eq_append] at cut odd ⊢
    rw [List.length_append, List.length_singleton] at odd
    have even : front.length % 2 = 0 := by omega
    refine ⟨undoDifferences layout front, last, List.getLast?_concat, ?_, ?_⟩
    · exact undoDifferences_concat sixteen even last
    · apply undoDifferences_prefix ((List.prefix_append _ _).trans cut)
      apply layout.bits_dvd
      intro _
      exact even

end Differences

/-! ## Any predictor -/

namespace Prediction

/-- The data stop after the first of the two bytes of a sample that would be summed. -/
def StopsInSample (prediction : Prediction) (data : List UInt8) : Prop :=
  prediction.predictor = 2 ∧ prediction.bitsPerComponent = 16 ∧ data.length % 2 = 1

/-- The ways in which data can be restored. -/
theorem undo_ok_cases {prediction : Prediction} {data restored : List UInt8}
    (undone : prediction.undo data = .ok restored) :
    (prediction.predictor = 1 ∧ restored = data)
      ∨ (prediction.predictor = 2
        ∧ ∃ layout, prediction.layout = .ok layout ∧ restored = undoDifferences layout data)
      ∨ ((10 ≤ prediction.predictor ∧ prediction.predictor ≤ 15)
        ∧ ∃ layout, prediction.layout = .ok layout ∧ undoTagged layout data = .ok restored) := by
  by_cases nothing : prediction.predictor = 1
  · unfold undo at undone
    rw [if_pos nothing] at undone
    exact .inl ⟨nothing, (Except.ok.inj undone).symm⟩
  by_cases differences : prediction.predictor = 2
  · rw [undo_of_differences differences] at undone
    obtain ⟨layout, valid, undone⟩ := exists_of_bind_ok undone
    exact .inr (.inl ⟨differences, layout, valid, (Except.ok.inj undone).symm⟩)
  by_cases tagged : 10 ≤ prediction.predictor ∧ prediction.predictor ≤ 15
  · rw [undo_of_tagged tagged] at undone
    exact .inr (.inr ⟨tagged, exists_of_bind_ok undone⟩)
  · unfold undo at undone
    rw [if_neg nothing, if_neg differences, if_neg tagged] at undone
    cases undone

/-- If data are restored, so is every part that they begin with, to a part that the restored data begin
with. Only half a sample of two bytes at the end is handed on as it is, behind such a part. -/
theorem undo_of_prefix {prediction : Prediction} {data restored : List UInt8}
    (undone : prediction.undo data = .ok restored) {part : List UInt8} (cut : part <+: data) :
    ∃ kept, prediction.undo part = .ok kept
      ∧ (¬ prediction.StopsInSample part → kept <+: restored)
      ∧ (prediction.StopsInSample part →
        ∃ front last, part.getLast? = some last ∧ kept = front ++ [last] ∧ front <+: restored) := by
  rcases undo_ok_cases undone with
    ⟨nothing, rfl⟩ | ⟨differences, layout, valid, rfl⟩ | ⟨tagged, layout, valid, undone⟩
  · refine ⟨part, ?_, ?_, ?_⟩
    · unfold undo
      rw [if_pos nothing]
    · intro _
      exact cut
    · intro stops
      have := stops.1
      omega
  · refine ⟨undoDifferences layout part, ?_, ?_, ?_⟩
    · rw [undo_of_differences differences, valid]
      rfl
    · intro whole
      apply undoDifferences_prefix cut
      apply layout.bits_dvd
      intro sixteen
      have declared := (layout_eq valid).2.1
      by_contra odd
      exact whole ⟨differences, by omega, by omega⟩
    · intro ⟨_, sixteen, odd⟩
      have two : layout.bits = 16 := by
        rw [(layout_eq valid).2.1, sixteen]
        rfl
      exact exists_undoDifferences_of_odd two cut odd
  · obtain ⟨kept, undone', begun⟩ := exists_undoTagged_of_prefix undone cut
    refine ⟨kept, ?_, ?_, ?_⟩
    · rw [undo_of_tagged tagged, valid]
      exact undone'
    · intro _
      exact begun
    · intro stops
      have := stops.1
      omega

/-- Three rows of two pixels of which the second one stops inside a pixel, and a row of two samples of
two bytes that stops inside the second one. Its last byte would have been changed by the sum. -/
theorem undo_of_prefix_cut :
    let tagged : Prediction := { predictor := 12, colors := 3, columns := 2 }
    let rows : List UInt8 := [1, 1, 2, 3, 4, 5, 6, 4, 7, 8, 9, 250, 1, 2, 2, 1]
    let summed : Prediction := { predictor := 2, bitsPerComponent := 16, columns := 2 }
    (tagged.undo rows = .ok [1, 2, 3, 5, 7, 9, 8, 10, 12, 2, 11, 14, 9]
        ∧ [1, 1, 2, 3, 4, 5, 6, 4, 7, 8, 9, 250] <+: rows
        ∧ ∃ kept, tagged.undo [1, 1, 2, 3, 4, 5, 6, 4, 7, 8, 9, 250] = .ok kept
          ∧ kept <+: [1, 2, 3, 5, 7, 9, 8, 10, 12, 2, 11, 14, 9])
      ∧ summed.undo [0, 200, 1, 100] = .ok [0, 200, 2, 44]
      ∧ [0, 200, 1] <+: ([0, 200, 1, 100] : List UInt8)
      ∧ ∃ front last, summed.undo [0, 200, 1] = .ok (front ++ [last]) ∧ last = 1
        ∧ front <+: [0, 200, 2, 44] := by
  intro tagged rows summed
  have undone : tagged.undo rows = .ok [1, 2, 3, 5, 7, 9, 8, 10, 12, 2, 11, 14, 9] := by
    decide +kernel
  have added : summed.undo [0, 200, 1, 100] = .ok [0, 200, 2, 44] := by decide +kernel
  have cut : [1, 1, 2, 3, 4, 5, 6, 4, 7, 8, 9, 250] <+: rows := ⟨[1, 2, 2, 1], rfl⟩
  have half : [0, 200, 1] <+: ([0, 200, 1, 100] : List UInt8) := ⟨[100], rfl⟩
  refine ⟨⟨undone, cut, ?_⟩, added, half, ?_⟩
  · obtain ⟨kept, restored, whole, _⟩ := undo_of_prefix undone cut
    have apart : ¬ tagged.StopsInSample [1, 1, 2, 3, 4, 5, 6, 4, 7, 8, 9, 250] := by
      intro stops
      cases stops.1
    exact ⟨kept, restored, whole apart⟩
  · obtain ⟨kept, restored, _, stopped⟩ := undo_of_prefix added half
    obtain ⟨front, last, ends, rfl, begun⟩ := stopped ⟨rfl, rfl, rfl⟩
    exact ⟨front, last, restored, (Option.some.inj ends).symm, begun⟩

end Prediction

end PdfFilters

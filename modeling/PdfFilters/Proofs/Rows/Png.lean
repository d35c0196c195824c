import Mathlib.Data.List.MinMax
import PdfFilters.Proofs.Rows.Layout
import PdfFilters.Rows.Undo

/-!
# Tagged rows are restored exactly

The format of tagged rows is said here once more, about an image as a whole and not about a walk
through it: a byte has a row and a place, its neighbours are at fixed distances from there, outside
the image there are zeros (`imageByte`), and what is stored is the difference from a prediction
modulo 256 (`RowFilter.storedByte`, `storedImage`). Walking through the image from row to row stores
the same bytes (`predictTagged_eq`).

A row is restored byte by byte, and each step looks only at bytes before it (`estimateAt_push`). So
taking differences and restoring undo each other on a row (`undoRow_predictRow`,
`predictRow_undoRow`), and then on an image, because the row above is the same for both
(`undoTaggedFrom_predictTaggedFrom`, `exists_rows`). Together they say that restoring is the exact
inverse of storing (`Prediction.undo_storedImage`).
-/

namespace PdfFilters

/-! ## The format -/

/-- A byte of an image as a number: the one at this place of this row. Outside the image there are
zeros. -/
def imageByte (image : List (List UInt8)) (row place : Int) : Int :=
  if 0 ≤ row ∧ 0 ≤ place then ((image.getD row.toNat []).getD place.toNat 0).toNat else 0

/-- Of the neighbours of a byte the one that is nearest to the plane through them, the first one of
those that are equally near. -/
def nearest (left above corner : Int) : Int :=
  ([left, above, corner].argmin fun neighbour => (left + above - corner - neighbour).natAbs).getD 0

/-- What the format predicts for a byte with these neighbours. -/
def RowFilter.forecast (filter : RowFilter) (left above corner : Int) : Int :=
  match filter with
  | .plain => 0
  | .left => left
  | .above => above
  | .mean => (left + above) / 2
  | .paeth => nearest left above corner

/-- What is stored for a byte of an image whose left neighbour is so many bytes away: the difference
from the prediction, modulo 256. -/
def RowFilter.storedByte (filter : RowFilter) (distance : Nat) (image : List (List UInt8))
    (row place : Int) : UInt8 :=
  let left := imageByte image row (place - distance)
  let above := imageByte image (row - 1) place
  let corner := imageByte image (row - 1) (place - distance)
  UInt8.ofNat ((imageByte image row place - filter.forecast left above corner) % 256).toNat

/-- An image as it is stored: each row is the tag of the filter chosen for it and the differences of
its bytes. -/
def storedImage (distance : Nat) (rows : List (RowFilter × List UInt8)) : List UInt8 :=
  rows.zipIdx.flatMap fun ((filter, bytes), row) =>
    filter.tag :: (List.range bytes.length).map fun place : Nat =>
      filter.storedByte distance (rows.map (·.2)) row place

/-- Rows of this width, but for the last one, which may be shorter. -/
def AreRows (width : Nat) : List (List UInt8) → Prop
  | [] => True
  | [last] => last.length ≤ width
  | row :: next :: rest => row.length = width ∧ AreRows width (next :: rest)

/-! ## Predictions -/

/-- The first of three elements at which a function is least. -/
theorem argmin_three (f : Int → Nat) (a b c : Int) :
    [a, b, c].argmin f = some (if f a ≤ f b ∧ f a ≤ f c then a else if f b ≤ f c then b else c) := by
  simp only [List.argmin, List.foldl_cons, List.foldl_nil, List.argAux]
  by_cases second : f b < f a
  · have lost : ¬ (f a ≤ f b ∧ f a ≤ f c) := by omega
    rw [if_pos second, if_neg lost]
    by_cases third : f c < f b
    · rw [if_neg (by omega : ¬ f b ≤ f c)]
      exact if_pos third
    · rw [if_pos (by omega : f b ≤ f c)]
      exact if_neg third
  · rw [if_neg second]
    by_cases third : f c < f a
    · have lost : ¬ (f a ≤ f b ∧ f a ≤ f c) := by omega
      rw [if_neg lost, if_neg (by omega : ¬ f b ≤ f c)]
      exact if_pos third
    · rw [if_pos (by omega : f a ≤ f b ∧ f a ≤ f c)]
      exact if_neg third

/-- The predictor of three neighbours is the nearest of them. -/
theorem toNat_paeth (left above corner : UInt8) :
    ((paeth left above corner).toNat : Int) = nearest left.toNat above.toNat corner.toNat := by
  unfold paeth nearest
  rw [argmin_three, Option.getD_some]
  dsimp only
  split
  · rfl
  · split <;> rfl

namespace RowFilter

/-- The prediction of a byte is the one of the format. -/
theorem toNat_estimate (filter : RowFilter) (left above corner : UInt8) :
    ((filter.estimate left above corner).toNat : Int)
      = filter.forecast left.toNat above.toNat corner.toNat := by
  cases filter with
  | plain | left | above => rfl
  | mean =>
    have := left.toNat_lt
    have := above.toNat_lt
    show ((UInt8.ofNat ((left.toNat + above.toNat) / 2)).toNat : Int)
      = ((left.toNat : Int) + above.toNat) / 2
    rw [UInt8.toNat_ofNat']
    omega
  | paeth => exact toNat_paeth left above corner

/-- The difference of two bytes, modulo 256. -/
theorem ofNat_toNat_sub (first second : UInt8) :
    UInt8.ofNat (((first.toNat : Int) - second.toNat) % 256).toNat = first - second := by
  have := first.toNat_lt
  have := second.toNat_lt
  apply UInt8.toNat_inj.mp
  rw [UInt8.toNat_ofNat', UInt8.toNat_sub]
  omega

/-! ## One row -/

section Row

variable (filter : RowFilter) {pixel : Nat} (above : Array UInt8)

/-- A prediction only looks at bytes before its place. -/
theorem estimateAt_push (apart : 0 < pixel) (row : Array UInt8) (byte : UInt8) {place : Nat}
    (inside : place ≤ row.size) :
    filter.estimateAt pixel above (row.push byte) place
      = filter.estimateAt pixel above row place := by
  unfold estimateAt
  by_cases behind : pixel ≤ place
  · have before : place - pixel < row.size := by omega
    rw [if_pos behind, if_pos behind, Array.getD_eq_getD_getElem?, Array.getElem?_push_lt before,
      ← Array.getElem?_eq_getElem before, ← Array.getD_eq_getD_getElem?]
  · rw [if_neg behind, if_neg behind]

/-- The last byte is restored from the row before it. -/
theorem undoRow_concat (stored : List UInt8) (byte : UInt8) :
    filter.undoRow pixel above (stored ++ [byte])
      = (filter.undoRow pixel above stored).push (byte + filter.estimateAt pixel above
          (filter.undoRow pixel above stored) (filter.undoRow pixel above stored).size) := by
  unfold undoRow
  rw [List.foldl_append]
  rfl

/-- The difference of the last byte comes last, and those before it are as they were. -/
theorem predictRow_push (apart : 0 < pixel) (row : Array UInt8) (byte : UInt8) :
    filter.predictRow pixel above (row.push byte)
      = filter.predictRow pixel above row ++ [byte - filter.estimateAt pixel above row row.size] := by
  unfold predictRow
  rw [Array.size_push, List.range_succ, List.map_append, List.map_singleton,
    estimateAt_push filter above apart row byte (Nat.le_refl _)]
  congr 1
  · apply List.map_congr_left
    intro place listed
    have inside : place < row.size := List.mem_range.mp listed
    rw [estimateAt_push filter above apart row byte (Nat.le_of_lt inside),
      Array.getD_eq_getD_getElem?, Array.getElem?_push_lt inside,
      ← Array.getElem?_eq_getElem inside, ← Array.getD_eq_getD_getElem?]
  · rw [Array.getD_eq_getD_getElem?, Array.getElem?_push_size, Option.getD_some]

theorem size_undoRow (stored : List UInt8) :
    (filter.undoRow pixel above stored).size = stored.length := by
  induction stored using List.reverseRecOn with
  | nil => rfl
  | append_singleton stored byte ih =>
    rw [undoRow_concat, Array.size_push, ih, List.length_append, List.length_singleton]

theorem length_predictRow (row : Array UInt8) :
    (filter.predictRow pixel above row).length = row.size := by
  unfold predictRow
  rw [List.length_map, List.length_range]

/-- Restoring undoes storing, byte by byte from the left. -/
theorem undoRow_predictRow (apart : 0 < pixel) (row : List UInt8) :
    filter.undoRow pixel above (filter.predictRow pixel above row.toArray) = row.toArray := by
  induction row using List.reverseRecOn with
  | nil => rfl
  | append_singleton row byte ih =>
    rw [← List.push_toArray, predictRow_push filter above apart, undoRow_concat, ih,
      UInt8.sub_add_cancel]

/-- Storing undoes restoring. -/
theorem predictRow_undoRow (apart : 0 < pixel) (stored : List UInt8) :
    filter.predictRow pixel above (filter.undoRow pixel above stored) = stored := by
  induction stored using List.reverseRecOn with
  | nil => rfl
  | append_singleton stored byte ih =>
    rw [undoRow_concat, predictRow_push filter above apart, ih, UInt8.add_sub_cancel]

end Row

theorem exists_tag {tag : UInt8} (known : tag ≤ 4) :
    ∃ filter : RowFilter, ofTag? tag = some filter ∧ filter.tag = tag := by
  have each : ∀ tag : Fin 5, ∃ filter : RowFilter,
      ofTag? (UInt8.ofNat tag) = some filter ∧ filter.tag = UInt8.ofNat tag := by
    intro tag
    match tag with
    | 0 => exact ⟨.plain, rfl, rfl⟩
    | 1 => exact ⟨.left, rfl, rfl⟩
    | 2 => exact ⟨.above, rfl, rfl⟩
    | 3 => exact ⟨.mean, rfl, rfl⟩
    | 4 => exact ⟨.paeth, rfl, rfl⟩
  have small : tag.toNat < 5 := Nat.lt_succ_of_le known
  have found := each ⟨tag.toNat, small⟩
  rwa [UInt8.ofNat_toNat] at found

end RowFilter

/-! ## Images -/

/-- After the first of some rows there are rows again, and it is as wide as all unless it is the
last one. -/
theorem AreRows.of_cons {width : Nat} {row : List UInt8} {rest : List (List UInt8)}
    (rows : AreRows width (row :: rest)) :
    AreRows width rest ∧ row.length ≤ width ∧ (rest = [] ∨ row.length = width) := by
  cases rest with
  | nil => exact ⟨trivial, rows, .inl rfl⟩
  | cons next rest => exact ⟨rows.2, Nat.le_of_eq rows.1, .inr rows.1⟩

theorem AreRows.cons {width : Nat} {row : List UInt8} {rest : List (List UInt8)}
    (rows : AreRows width rest) (narrow : row.length ≤ width)
    (full : rest = [] ∨ row.length = width) : AreRows width (row :: rest) := by
  cases rest with
  | nil => exact narrow
  | cons next rest =>
    rcases full with none | full
    · cases none
    · exact ⟨full, rows⟩

theorem append_row (restored : Array UInt8) (row further : List UInt8) :
    restored ++ row.toArray ++ further = restored ++ (row ++ further) :=
  Array.ext' (by simp)

section Image

variable (layout : Layout)

/-- Restoring goes through the rows that were stored, with the same row above each of them. -/
theorem undoTaggedFrom_predictTaggedFrom {rows : List (RowFilter × List UInt8)}
    (areRows : AreRows layout.rowBytes (rows.map (·.2))) (above restored : Array UInt8) :
    undoTaggedFrom layout above restored (predictTaggedFrom layout above rows)
      = .ok (restored ++ (rows.map (·.2)).flatten) := by
  induction rows generalizing above restored with
  | nil =>
    rw [predictTaggedFrom, undoTaggedFrom, List.map_nil, List.flatten_nil, Array.appendList_nil]
  | cons first rest ih =>
    obtain ⟨filter, row⟩ := first
    obtain ⟨areRows, narrow, full⟩ := areRows.of_cons
    have size : (filter.predictRow layout.pixelBytes above row.toArray).length = row.length :=
      filter.length_predictRow above row.toArray
    have alone : predictTaggedFrom layout row.toArray rest = []
        ∨ (filter.predictRow layout.pixelBytes above row.toArray).length = layout.rowBytes := by
      rcases full with none | full
      · rw [List.map_eq_nil_iff.mp none]
        exact .inl rfl
      · exact .inr (size.trans full)
    obtain ⟨taken, left⟩ := take_drop_row (Nat.le_trans (Nat.le_of_eq size) narrow) alone
    rw [predictTaggedFrom, List.cons_append, undoTaggedFrom, RowFilter.ofTag?_tag]
    dsimp only
    rw [taken, left, filter.undoRow_predictRow above layout.pixelBytes_pos, ih areRows,
      List.map_cons, List.flatten_cons, append_row]

/-- Where all tags are known, data are the rows of an image as they are stored. -/
theorem exists_rows (above restored : Array UInt8) (data : List UInt8)
    (known : ∀ row, ∀ tag ∈ data[row * (layout.rowBytes + 1)]?, tag ≤ 4) :
    ∃ rows : List (RowFilter × List UInt8), AreRows layout.rowBytes (rows.map (·.2))
      ∧ undoTaggedFrom layout above restored data = .ok (restored ++ (rows.map (·.2)).flatten)
      ∧ predictTaggedFrom layout above rows = data := by
  fun_induction undoTaggedFrom layout above restored data with
  | case1 above restored =>
    refine ⟨[], trivial, ?_, rfl⟩
    rw [List.map_nil, List.flatten_nil, Array.appendList_nil]
  | case2 above restored tag rest unknown =>
    obtain ⟨filter, found, _⟩ := RowFilter.exists_tag (known 0 tag (by simp))
    rw [found] at unknown
    cases unknown
  | case3 above restored tag rest filter found row ih =>
    obtain ⟨_, found', tagged⟩ := RowFilter.exists_tag (known 0 tag (by simp))
    obtain rfl := Option.some.inj (found.symm.trans found')
    have further : ∀ row, ∀ tag ∈ (rest.drop layout.rowBytes)[row * (layout.rowBytes + 1)]?,
        tag ≤ 4 := by
      intro row tag listed
      rw [← getElem?_tag_succ] at listed
      exact known (row + 1) tag listed
    obtain ⟨rows, areRows, restoredAs, storedAs⟩ := ih further
    have size : row.toList.length = min layout.rowBytes rest.length := by
      rw [Array.length_toList, filter.size_undoRow, List.length_take]
    have full : rows.map (·.2) = [] ∨ row.toList.length = layout.rowBytes := by
      by_cases long : layout.rowBytes ≤ rest.length
      · exact .inr (size.trans (Nat.min_eq_left long))
      · rw [List.drop_eq_nil_of_le (by omega)] at storedAs
        cases rows with
        | nil => exact .inl rfl
        | cons => cases storedAs
    refine ⟨(filter, row.toList) :: rows, ?_, ?_, ?_⟩
    · exact areRows.cons (Nat.le_trans (Nat.le_of_eq size) (Nat.min_le_left _ _)) full
    · rw [restoredAs, List.map_cons, List.flatten_cons, ← append_row, Array.toArray_toList]
    · rw [predictTaggedFrom, Array.toArray_toList, storedAs,
        filter.predictRow_undoRow above layout.pixelBytes_pos, tagged, List.cons_append,
        List.take_append_drop]

end Image

/-! ## The walk and the format -/

theorem imageByte_row (before after : List (List UInt8)) (row : List UInt8) (place : Nat) :
    imageByte (before ++ row :: after) before.length place = (row.getD place 0).toNat := by
  unfold imageByte
  have here : (before ++ row :: after).getD before.length [] = row := by
    rw [List.getD_eq_getElem?_getD, List.getElem?_append_right (Nat.le_refl _), Nat.sub_self,
      List.getElem?_cons_zero, Option.getD_some]
  rw [if_pos ⟨Int.natCast_nonneg _, Int.natCast_nonneg _⟩, Int.toNat_natCast, Int.toNat_natCast, here]

/-- Above the first row there are zeros, as there are beyond the end of an empty row. -/
theorem imageByte_above (before after : List (List UInt8)) (row : List UInt8) (place : Nat) :
    imageByte (before ++ row :: after) (before.length - 1) place
      = ((before.getLast?.getD []).getD place 0).toNat := by
  rcases List.eq_nil_or_concat before with rfl | ⟨before, above, rfl⟩
  · rfl
  · rw [List.concat_eq_append, List.append_assoc, List.length_append, List.length_singleton,
      List.getLast?_concat, Option.getD_some, Int.natCast_add, Int.natCast_one, Int.add_sub_cancel]
    exact imageByte_row before (row :: after) above place

theorem imageByte_outside (image : List (List UInt8)) (row : Int) {place : Int}
    (outside : place < 0) : imageByte image row place = 0 := by
  unfold imageByte
  rw [if_neg]
  omega

theorem getD_toArray (bytes : List UInt8) (place : Nat) :
    bytes.toArray.getD place 0 = bytes.getD place 0 := by
  rw [Array.getD_eq_getD_getElem?, List.getElem?_toArray, List.getD_eq_getElem?_getD]

/-- What is stored for a byte is its difference from the prediction of the walk. -/
theorem RowFilter.storedByte_eq (filter : RowFilter) (distance : Nat)
    (before after : List (List UInt8)) (row : List UInt8) (place : Nat) :
    filter.storedByte distance (before ++ row :: after) before.length place
      = row.toArray.getD place 0
        - filter.estimateAt distance (before.getLast?.getD []).toArray row.toArray place := by
  unfold storedByte estimateAt
  dsimp only
  rw [getD_toArray, getD_toArray, getD_toArray, getD_toArray]
  by_cases behind : distance ≤ place
  · have inside : (place : Int) - distance = (place - distance : Nat) := by omega
    rw [if_pos behind, inside, imageByte_row, imageByte_row, imageByte_above, imageByte_above,
      ← toNat_estimate, ofNat_toNat_sub]
  · have outside : (place : Int) - distance < 0 := by omega
    have zero : (0 : Int) = (0 : UInt8).toNat := rfl
    rw [if_neg behind, imageByte_outside _ _ outside, imageByte_outside _ _ outside, imageByte_row,
      imageByte_above, zero, ← toNat_estimate, ofNat_toNat_sub]

/-- From row to row, the differences are those of the format. -/
theorem predictTaggedFrom_eq (layout : Layout) (before : List (List UInt8))
    (rows : List (RowFilter × List UInt8)) :
    predictTaggedFrom layout (before.getLast?.getD []).toArray rows
      = (rows.zipIdx before.length).flatMap fun ((filter, bytes), row) =>
          filter.tag :: (List.range bytes.length).map fun place : Nat =>
            filter.storedByte layout.pixelBytes (before ++ rows.map (·.2)) row place := by
  induction rows generalizing before with
  | nil => rfl
  | cons first rest ih =>
    obtain ⟨filter, row⟩ := first
    have next := ih (before ++ [row])
    rw [List.getLast?_concat, Option.getD_some, List.length_append, List.length_singleton,
      List.append_assoc, List.singleton_append] at next
    have here : filter.predictRow layout.pixelBytes (before.getLast?.getD []).toArray row.toArray
        = (List.range row.length).map fun place : Nat =>
            filter.storedByte layout.pixelBytes (before ++ row :: rest.map (·.2)) before.length
              place := by
      unfold RowFilter.predictRow
      rw [List.size_toArray]
      apply List.map_congr_left
      intro place _
      rw [RowFilter.storedByte_eq]
    rw [predictTaggedFrom, next, here, List.zipIdx_cons, List.flatMap_cons, List.map_cons]

theorem predictTagged_eq (layout : Layout) (rows : List (RowFilter × List UInt8)) :
    predictTagged layout rows = storedImage layout.pixelBytes rows :=
  predictTaggedFrom_eq layout [] rows

/-! ## Restoring as the inverse of storing -/

namespace Prediction

theorem undo_of_tagged {prediction : Prediction}
    (tagged : 10 ≤ prediction.predictor ∧ prediction.predictor ≤ 15) (data : List UInt8) :
    prediction.undo data = prediction.layout >>= fun layout => undoTagged layout data := by
  unfold undo
  rw [if_neg (by omega), if_neg (by omega), if_pos tagged]

theorem layout_congr (prediction : Prediction) (predictor : Int) :
    ({ prediction with predictor } : Prediction).layout = prediction.layout := rfl

/-- Restoring is the exact inverse of storing, for every image and every choice of filters: what is
stored of an image is restored, and data in which all tags are known are restored to an image of
which the same is stored with the same tags. It makes no difference which of the predictors for
tagged rows is declared. -/
theorem undo_storedImage {prediction : Prediction} {layout : Layout}
    (tagged : 10 ≤ prediction.predictor ∧ prediction.predictor ≤ 15)
    (valid : prediction.layout = .ok layout) :
    let width := (layout.columns * (layout.colors * layout.bits)) ⌈/⌉ 8
    let distance := max 1 ((layout.colors * layout.bits) ⌈/⌉ 8)
    (∀ rows : List (RowFilter × List UInt8), AreRows width (rows.map (·.2)) →
        prediction.undo (storedImage distance rows) = .ok (rows.map (·.2)).flatten)
      ∧ (∀ data : List UInt8, (∀ row, ∀ tag ∈ data[row * (width + 1)]?, tag ≤ 4) →
        ∃ rows : List (RowFilter × List UInt8), AreRows width (rows.map (·.2))
          ∧ prediction.undo data = .ok (rows.map (·.2)).flatten
          ∧ storedImage distance rows = data)
      ∧ ∀ other : Int, 10 ≤ other → other ≤ 15 → ∀ data,
        ({ prediction with predictor := other } : Prediction).undo data = prediction.undo data := by
  intro width distance
  have width_eq : layout.rowBytes = width := layout.rowBytes_eq
  have distance_eq : layout.pixelBytes = distance := layout.pixelBytes_eq
  have undone (data : List UInt8) : prediction.undo data = undoTagged layout data := by
    rw [undo_of_tagged tagged, valid]
    rfl
  rw [← width_eq, ← distance_eq]
  refine ⟨?_, ?_, ?_⟩
  · intro rows areRows
    rw [undone, ← predictTagged_eq, undoTagged, predictTagged,
      undoTaggedFrom_predictTaggedFrom layout areRows]
    simp [Except.map]
  · intro data known
    obtain ⟨rows, areRows, restoredAs, storedAs⟩ := exists_rows layout #[] #[] data known
    refine ⟨rows, areRows, ?_, (predictTagged_eq layout rows).symm.trans storedAs⟩
    rw [undone, undoTagged, restoredAs]
    simp [Except.map]
  · intro other least greatest data
    rw [undo_of_tagged tagged, undo_of_tagged ⟨least, greatest⟩, layout_congr]

/-- Three rows of two pixels, the last one cut off inside a pixel, and data that end with a tag. -/
theorem undo_storedImage_cut :
    let prediction : Prediction := { predictor := 15, colors := 3, columns := 2 }
    let layout : Layout :=
      ⟨3, 8, 2, by decide, by decide, by decide, by decide, by decide⟩
    let rows : List (RowFilter × List UInt8) :=
      [(.paeth, [1, 200, 3, 40, 5, 60]), (.mean, [7, 8, 9, 250, 11, 12]), (.left, [13, 14, 15, 1])]
    let data : List UInt8 := [4, 1, 2, 3, 4, 5, 6, 3]
    ((10 ≤ prediction.predictor ∧ prediction.predictor ≤ 15) ∧ prediction.layout = .ok layout)
      ∧ (AreRows 6 (rows.map (·.2))
        ∧ prediction.undo (storedImage 3 rows) = .ok (rows.map (·.2)).flatten)
      ∧ (∀ row, ∀ tag ∈ data[row * 7]?, tag ≤ 4)
      ∧ ∃ image : List (RowFilter × List UInt8), AreRows 6 (image.map (·.2))
        ∧ prediction.undo data = .ok (image.map (·.2)).flatten ∧ storedImage 3 image = data := by
  intro prediction layout rows data
  have tagged : 10 ≤ prediction.predictor ∧ prediction.predictor ≤ 15 := by decide
  have valid : prediction.layout = .ok layout := rfl
  have width : (layout.columns * (layout.colors * layout.bits)) ⌈/⌉ 8 = 6 := by
    rw [← layout.rowBytes_eq]
    show (2 * (3 * 8) + 7) / 8 = 6
    rfl
  have distance : max 1 ((layout.colors * layout.bits) ⌈/⌉ 8) = 3 := by
    rw [← layout.pixelBytes_eq]
    show max 1 ((3 * 8 + 7) / 8) = 3
    rfl
  obtain ⟨restores, stores, _⟩ := undo_storedImage tagged valid
  rw [width, distance] at restores stores
  have short : 4 ≤ 6 := by decide
  have areRows : AreRows 6 (rows.map (·.2)) := ⟨rfl, rfl, short⟩
  have known : ∀ row, ∀ tag ∈ data[row * 7]?, tag ≤ 4 := by
    intro row tag listed
    match row with
    | 0 | 1 =>
      cases listed
      decide
    | row + 2 =>
      rw [List.getElem?_eq_none (by simp [data]; omega)] at listed
      cases listed
  exact ⟨⟨tagged, valid⟩, ⟨areRows, restores rows areRows⟩, known, stores data known⟩

end Prediction

end PdfFilters

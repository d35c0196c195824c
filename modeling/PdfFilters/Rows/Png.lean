import PdfFilters.Rows.Layout

/-!
# Rows with a tag each

Every row is preceded by a tag that says how its bytes were predicted: from the byte one pixel to
the left, from the byte above, from the mean of the two, from whichever of left, above and
above-left is nearest to their plane (`paeth`), or not at all. What is stored is the difference
from the prediction, modulo 256. Neighbours outside the image count as zero.

`RowFilter.estimate` is the prediction itself. `predictRow` subtracts it from the bytes of a row and
`undoRow` adds it to what is stored. Both look at neighbours as they are in the image, `undoRow` at
those it has already restored. `undoTagged` and `predictTagged` walk whole images.

The first row has a row of zeros above it. It is represented by the empty array: what lies beyond
the end of an array is read as zero everywhere here.
-/

namespace PdfFilters

/-- How the bytes of one row are predicted. -/
inductive RowFilter where
  | plain
  | left
  | above
  | mean
  | paeth
  deriving DecidableEq

/-- The predictor of three neighbours: the one nearest to `left + above - corner`, where of equally
near ones the left wins over the one above, and that over the corner. -/
def paeth (left above corner : UInt8) : UInt8 :=
  let plane : Int := left.toNat + above.toNat - corner.toNat
  let toLeft := (plane - left.toNat).natAbs
  let toAbove := (plane - above.toNat).natAbs
  let toCorner := (plane - corner.toNat).natAbs
  if toLeft ≤ toAbove ∧ toLeft ≤ toCorner then left
  else if toAbove ≤ toCorner then above
  else corner

namespace RowFilter

/-- The row filter with this tag. -/
def ofTag? (tag : UInt8) : Option RowFilter :=
  match tag.toNat with
  | 0 => some .plain
  | 1 => some .left
  | 2 => some .above
  | 3 => some .mean
  | 4 => some .paeth
  | _ => none

/-- The tag of a row filter. -/
def tag : RowFilter → UInt8
  | .plain => 0
  | .left => 1
  | .above => 2
  | .mean => 3
  | .paeth => 4

@[simp] theorem ofTag?_tag (filter : RowFilter) : ofTag? filter.tag = some filter := by
  cases filter <;> rfl

/-- The prediction of a byte from its neighbours to the left, above, and above-left. -/
def estimate (filter : RowFilter) (left above corner : UInt8) : UInt8 :=
  match filter with
  | .plain => 0
  | .left => left
  | .above => above
  | .mean => UInt8.ofNat ((left.toNat + above.toNat) / 2)
  | .paeth => PdfFilters.paeth left above corner

/-- The prediction of byte `i` of a row, which may look at the bytes before it and at the row
above. The left neighbour is `pixel` bytes back. -/
def estimateAt (filter : RowFilter) (pixel : Nat) (above row : Array UInt8) (i : Nat) : UInt8 :=
  if pixel ≤ i then
    filter.estimate (row.getD (i - pixel) 0) (above.getD i 0) (above.getD (i - pixel) 0)
  else
    filter.estimate 0 (above.getD i 0) 0

/-- Restore a row from its stored differences, left to right. -/
def undoRow (filter : RowFilter) (pixel : Nat) (above : Array UInt8) (stored : List UInt8) :
    Array UInt8 :=
  stored.foldl (fun row byte => row.push (byte + filter.estimateAt pixel above row row.size)) #[]

/-- The differences stored for a row. -/
def predictRow (filter : RowFilter) (pixel : Nat) (above row : Array UInt8) : List UInt8 :=
  (List.range row.size).map fun i => row.getD i 0 - filter.estimateAt pixel above row i

end RowFilter

/-- Restore tagged rows one after another, onto what has been restored already. The last row may
be shorter than the others, or be nothing but its tag. -/
def undoTaggedFrom (layout : Layout) (above restored : Array UInt8) (data : List UInt8) :
    Except Fault (Array UInt8) :=
  match data with
  | [] => .ok restored
  | tag :: rest =>
    match RowFilter.ofTag? tag with
    | none => .error (.unknownPredictor (10 + tag.toNat))
    | some filter =>
      let row := filter.undoRow layout.pixelBytes above (rest.take layout.rowBytes)
      undoTaggedFrom layout row (restored ++ row) (rest.drop layout.rowBytes)
  termination_by data.length
  decreasing_by simp only [List.length_drop, List.length_cons]; omega

/-- Restore an image of tagged rows. -/
def undoTagged (layout : Layout) (data : List UInt8) : Except Fault (List UInt8) :=
  (undoTaggedFrom layout #[] #[] data).map (·.toList)

/-- Predict rows, each with the filter chosen for it, below the row `above`. -/
def predictTaggedFrom (layout : Layout) (above : Array UInt8) :
    List (RowFilter × List UInt8) → List UInt8
  | [] => []
  | (filter, row) :: rows =>
    filter.tag :: filter.predictRow layout.pixelBytes above row.toArray
      ++ predictTaggedFrom layout row.toArray rows

/-- Predict the rows of an image, each with the filter chosen for it. -/
def predictTagged (layout : Layout) (rows : List (RowFilter × List UInt8)) : List UInt8 :=
  predictTaggedFrom layout #[] rows

end PdfFilters

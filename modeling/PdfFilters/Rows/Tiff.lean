import PdfFilters.Rows.Layout

/-!
# Rows of differences

A row of bytes is seen as an array of samples of 1, 2, 4, 8 or 16 bits, the first sample in the
highest bits of the first byte. Samples of up to 8 bits never cross the border of a byte, and a
sample of 16 bits is two bytes, the high one first. `sampleAt` reads a sample and `setSample`
overwrites one and nothing else.

In each row, every sample but those of the first pixel was replaced by its difference from the
same component of the pixel to its left, modulo the range of a sample. `sumRow` undoes this by
running sums from left to right, and `differenceRow` does it, from right to left so that every
neighbour it looks at is still untouched. Bits that fill up a row, and half a sample at its end, stay as
they are.
-/

namespace PdfFilters

/-! ## Samples packed into bytes -/

/-- The number of whole samples in a row. -/
def sampleCount (bits : Nat) (row : Array UInt8) : Nat := row.size * 8 / bits

/-- How far a sample of at most 8 bits lies above the low end of its byte. -/
def sampleShift (bits index : Nat) : Nat := 8 - bits - index * bits % 8

/-- The sample at an index, as a number below `2 ^ bits`. -/
def sampleAt (bits : Nat) (row : Array UInt8) (index : Nat) : Nat :=
  if bits = 16 then
    (row.getD (2 * index) 0).toNat * 256 + (row.getD (2 * index + 1) 0).toNat
  else
    (row.getD (index * bits / 8) 0).toNat >>> sampleShift bits index % (1 <<< bits)

/-- Overwrite the field of `bits` bits that lies `shift` bits above the low end of a byte. -/
def setField (bits shift : Nat) (byte : UInt8) (value : Nat) : UInt8 :=
  let below := byte.toNat % (1 <<< shift)
  let above := byte.toNat >>> (shift + bits)
  UInt8.ofNat ((above <<< bits + value % (1 <<< bits)) <<< shift + below)

/-- The row with the sample at an index replaced by `value`, taken modulo `2 ^ bits`. -/
def setSample (bits : Nat) (row : Array UInt8) (index value : Nat) : Array UInt8 :=
  if bits = 16 then
    (row.setIfInBounds (2 * index) (UInt8.ofNat (value / 256))).setIfInBounds (2 * index + 1)
      (UInt8.ofNat value)
  else
    row.modify (index * bits / 8) fun byte => setField bits (sampleShift bits index) byte value

/-! ## Differences and running sums -/

/-- The number of samples that count in a row: those the layout gives it, as far as they are
present. -/
def Layout.samples (layout : Layout) (row : Array UInt8) : Nat :=
  min (layout.columns * layout.colors) (sampleCount layout.bits row)

/-- Add to the sample at `index` the one `colors` samples before it. -/
def addLeft (bits colors : Nat) (row : Array UInt8) (index : Nat) : Array UInt8 :=
  setSample bits row index (sampleAt bits row index + sampleAt bits row (index - colors))

/-- Subtract from the sample at `index`, modulo its range, the one `colors` samples before it. -/
def subtractLeft (bits colors : Nat) (row : Array UInt8) (index : Nat) : Array UInt8 :=
  setSample bits row index
    (sampleAt bits row index + ((1 <<< bits) - sampleAt bits row (index - colors)))

/-- The indices of the samples of a row that have a pixel on their left. -/
def Layout.followers (layout : Layout) (row : Array UInt8) : List Nat :=
  List.range' layout.colors (layout.samples row - layout.colors)

/-- Restore a row from its differences. -/
def Layout.sumRow (layout : Layout) (row : Array UInt8) : Array UInt8 :=
  (layout.followers row).foldl (addLeft layout.bits layout.colors) row

/-- Replace the samples of a row by their differences. -/
def Layout.differenceRow (layout : Layout) (row : Array UInt8) : Array UInt8 :=
  (layout.followers row).reverse.foldl (subtractLeft layout.bits layout.colors) row

/-- Apply a change to each row of the data, onto what has been put out already. The last row may
be shorter than the others. -/
def Layout.mapRowsFrom (layout : Layout) (change : Array UInt8 → Array UInt8)
    (done : Array UInt8) (data : List UInt8) : Array UInt8 :=
  match data with
  | [] => done
  | byte :: rest =>
    layout.mapRowsFrom change
      (done ++ change ((byte :: rest).take layout.rowBytes).toArray)
      ((byte :: rest).drop layout.rowBytes)
  termination_by data.length
  decreasing_by
    have := layout.rowBytes_pos
    simp only [List.length_drop, List.length_cons]
    omega

/-- Restore an image from the differences in its rows. -/
def undoDifferences (layout : Layout) (data : List UInt8) : List UInt8 :=
  (layout.mapRowsFrom layout.sumRow #[] data).toList

/-- Replace the samples of an image by the differences in its rows. -/
def takeDifferences (layout : Layout) (data : List UInt8) : List UInt8 :=
  (layout.mapRowsFrom layout.differenceRow #[] data).toList

end PdfFilters

import PdfFilters.Fault
import PdfFilters.Parameters

/-!
# How rows of samples lie in bytes

An image that goes through a predictor is cut into rows of `columns` pixels, each of `colors`
samples of `bits` bits, packed without gaps and filled up to whole bytes at the end of a row.

`Prediction` holds the dictionary entries as they come, any integers at all, with the values that
missing entries take. `Prediction.layout` accepts those that describe rows. What it checks is
carried by `Layout` itself, so whoever holds a layout knows that a row has at least one byte
(`Layout.rowBytes_pos`) and that its number of bits is a machine word.
-/

namespace PdfFilters

/-- The entries of a parameter dictionary that concern rows, and the one that concerns the moment
at which variable-width codes grow. -/
structure Prediction where
  predictor : Int := 1
  colors : Int := 1
  bitsPerComponent : Int := 8
  columns : Int := 1
  earlyChange : Int := 1
  deriving DecidableEq

/-- The greatest number that a machine word holds. -/
def maxWord : Nat := 0xFFFFFFFFFFFFFFFF

/-- Rows that can be cut out of bytes. -/
structure Layout where
  /-- Samples of one pixel. -/
  colors : Nat
  /-- Bits of one sample. -/
  bits : Nat
  /-- Pixels of one row. -/
  columns : Nat
  colors_pos : 0 < colors
  colors_le : colors ≤ 32
  bits_mem : bits ∈ [1, 2, 4, 8, 16]
  columns_pos : 0 < columns
  rowBits_le : columns * (colors * bits) ≤ maxWord

namespace Layout

/-- Bytes of one row: its bits, filled up to whole bytes. -/
def rowBytes (layout : Layout) : Nat :=
  (layout.columns * (layout.colors * layout.bits) + 7) / 8

/-- The distance in bytes from a pixel to the one on its left, at least one. -/
def pixelBytes (layout : Layout) : Nat :=
  max 1 ((layout.colors * layout.bits + 7) / 8)

theorem bits_pos (layout : Layout) : 0 < layout.bits := by
  have := layout.bits_mem
  simp only [List.mem_cons, List.not_mem_nil, or_false] at this
  omega

theorem rowBytes_pos (layout : Layout) : 0 < layout.rowBytes := by
  have := Nat.mul_pos layout.columns_pos (Nat.mul_pos layout.colors_pos layout.bits_pos)
  unfold rowBytes
  omega

end Layout

namespace Prediction

/-- The entries of a dictionary, with the usual values for those that it does not have. -/
def ofParameters : Option Parameters → Prediction
  | none => {}
  | some parameters => {
      predictor := parameters.getD "Predictor" 1
      colors := parameters.getD "Colors" 1
      bitsPerComponent := parameters.getD "BitsPerComponent" 8
      columns := parameters.getD "Columns" 1
      earlyChange := parameters.getD "EarlyChange" 1 }

/-- Whether decoded data still have to be put back into rows. -/
def isActive (prediction : Prediction) : Bool := 1 < prediction.predictor

/-- The layout that the entries describe. The first unusable entry is the fault, colours before
bits before columns; columns that make a row too long count as unusable. -/
def layout (prediction : Prediction) : Except Fault Layout :=
  let ⟨_, colors, bits, columns, _⟩ := prediction
  if hcolors : 1 ≤ colors ∧ colors ≤ 32 then
    if hbits : bits.toNat ∈ [1, 2, 4, 8, 16] then
      if hcolumns : 1 ≤ columns then
        if hrow : columns.toNat * (colors.toNat * bits.toNat) ≤ maxWord then
          .ok {
            colors := colors.toNat
            bits := bits.toNat
            columns := columns.toNat
            colors_pos := by omega
            colors_le := by omega
            bits_mem := hbits
            columns_pos := by omega
            rowBits_le := hrow }
        else .error (.badParameter "Columns" columns)
      else .error (.badParameter "Columns" columns)
    else .error (.badParameter "BitsPerComponent" bits)
  else .error (.badParameter "Colors" colors)

end Prediction

end PdfFilters

import Mathlib.Algebra.Order.Floor.Div
import PdfFilters.Rows.Layout

/-!
# Cutting data into rows

The sizes of a layout are quotients that were rounded up (`Layout.rowBytes_eq`,
`Layout.pixelBytes_eq`), and a row ends between two samples (`Layout.bits_dvd_rowBytes`). Data are rows
one after another, all of them of the same width but the last one, which may be shorter; `rowAt` is the
row at an index, and data are known by their rows (`eq_of_rowAt`). Data that are cut off have the same
rows, cut off (`rowAt_take`).
-/

namespace PdfFilters

namespace Layout

theorem rowBytes_eq (layout : Layout) :
    layout.rowBytes = (layout.columns * (layout.colors * layout.bits)) ⌈/⌉ 8 := by
  rw [rowBytes, Nat.ceilDiv_eq_add_pred_div]
  rfl

theorem pixelBytes_eq (layout : Layout) :
    layout.pixelBytes = max 1 ((layout.colors * layout.bits) ⌈/⌉ 8) := by
  rw [pixelBytes, Nat.ceilDiv_eq_add_pred_div]
  rfl

theorem pixelBytes_pos (layout : Layout) : 0 < layout.pixelBytes := Nat.le_max_left _ _

/-- Bytes hold whole samples, unless a sample is two bytes and their number is odd. -/
theorem bits_dvd (layout : Layout) {count : Nat} (whole : layout.bits = 16 → count % 2 = 0) :
    layout.bits ∣ 8 * count := by
  have width := layout.bits_mem
  simp only [List.mem_cons, List.not_mem_nil, or_false] at width
  rcases width with bits | bits | bits | bits | sixteen
  · rw [bits]; omega
  · rw [bits]; omega
  · rw [bits]; omega
  · rw [bits]; omega
  · have even := whole sixteen
    rw [sixteen]
    omega

/-- A row ends between two samples. -/
theorem bits_dvd_rowBytes (layout : Layout) : layout.bits ∣ 8 * layout.rowBytes := by
  apply layout.bits_dvd
  intro sixteen
  rw [rowBytes, sixteen, ← Nat.mul_assoc]
  omega

end Layout

/-- A layout has the measures that are asked for. -/
theorem Prediction.layout_eq {prediction : Prediction} {layout : Layout}
    (valid : prediction.layout = .ok layout) :
    layout.colors = prediction.colors.toNat ∧ layout.bits = prediction.bitsPerComponent.toNat
      ∧ layout.columns = prediction.columns.toNat := by
  obtain ⟨predictor, colors, bits, columns, earlyChange⟩ := prediction
  unfold Prediction.layout at valid
  dsimp only at valid
  split at valid
  · split at valid
    · split at valid
      · split at valid
        · cases valid
          exact ⟨rfl, rfl, rfl⟩
        · cases valid
      · cases valid
    · cases valid
  · cases valid

/-- The first row is cut off where it ends, if it is as wide as all rows or the last one. -/
theorem take_drop_row {width : Nat} {first further : List UInt8} (narrow : first.length ≤ width)
    (full : further = [] ∨ first.length = width) :
    (first ++ further).take width = first ∧ (first ++ further).drop width = further := by
  rcases full with rfl | rfl
  · rw [List.append_nil]
    exact ⟨List.take_of_length_le narrow, List.drop_eq_nil_of_le narrow⟩
  · exact ⟨List.take_left, List.drop_left⟩

/-- The row at an index. Behind the last one there are empty rows. -/
def rowAt (width : Nat) (data : List UInt8) (row : Nat) : List UInt8 :=
  (data.drop (row * width)).take width

theorem rowAt_zero (width : Nat) (data : List UInt8) : rowAt width data 0 = data.take width := by
  rw [rowAt, Nat.zero_mul, List.drop_zero]

theorem rowAt_succ (width : Nat) (data : List UInt8) (row : Nat) :
    rowAt width data (row + 1) = rowAt width (data.drop width) row := by
  rw [rowAt, rowAt, List.drop_drop, Nat.succ_mul, Nat.add_comm]

/-- The rows of data that are cut off. -/
theorem rowAt_take (width : Nat) (data : List UInt8) (count row : Nat) :
    rowAt width (data.take count) row = (rowAt width data row).take (count - row * width) := by
  rw [rowAt, rowAt, List.drop_take, List.take_take, List.take_take, Nat.min_comm]

/-- One more byte belongs to the last row, or begins a new one. -/
theorem rowAt_concat (width : Nat) (data : List UInt8) (byte : UInt8) (row : Nat) :
    rowAt width (data ++ [byte]) row
      = if row * width ≤ data.length ∧ data.length < row * width + width then
          rowAt width data row ++ [byte]
        else rowAt width data row := by
  unfold rowAt
  by_cases before : row * width ≤ data.length
  · rw [List.drop_append_of_le_length before]
    have left : (data.drop (row * width)).length = data.length - row * width := List.length_drop
    by_cases last : data.length < row * width + width
    · have whole : (data.drop (row * width) ++ [byte]).length ≤ width := by
        rw [List.length_append, List.length_singleton]
        omega
      rw [if_pos ⟨before, last⟩, List.take_of_length_le whole, List.take_of_length_le (by omega)]
    · rw [if_neg (fun here => last here.2), List.take_append_of_le_length (by omega)]
  · have behind : (data ++ [byte]).length ≤ row * width := by
      rw [List.length_append, List.length_singleton]
      omega
    rw [if_neg (fun here => before here.1), List.drop_eq_nil_of_le behind,
      List.drop_eq_nil_of_le (by omega)]

/-- Behind a tag and its row, the tags of the rows that follow are one row nearer. -/
theorem getElem?_tag_succ (width : Nat) (tag : UInt8) (rest : List UInt8) (row : Nat) :
    (tag :: rest)[(row + 1) * (width + 1)]? = (rest.drop width)[row * (width + 1)]? := by
  have place : (row + 1) * (width + 1) = width + row * (width + 1) + 1 := by
    rw [Nat.succ_mul]
    omega
  rw [place, List.getElem?_cons_succ, List.getElem?_drop]

/-- Data are known by their rows. -/
theorem eq_of_rowAt {width : Nat} (positive : 0 < width) {first second : List UInt8}
    (same : ∀ row, rowAt width first row = rowAt width second row) : first = second := by
  have getElem?_eq (data : List UInt8) (place : Nat) :
      data[place]? = (rowAt width data (place / width))[place % width]? := by
    rw [rowAt, List.getElem?_take_of_lt (Nat.mod_lt _ positive), List.getElem?_drop,
      Nat.div_add_mod']
  apply List.ext_getElem?
  intro place
  rw [getElem?_eq first, getElem?_eq second, same]

end PdfFilters

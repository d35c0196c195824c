import PdfFilters.Proofs.Rows.Layout
import PdfFilters.Proofs.Words

/-!
# The measures of rows, computed with machine words

The entries of a dictionary may be any integers. They describe rows exactly if they are in range and the
bits of a row can be counted in a word, and then a row has as many bytes as its bits fill
(`Prediction.rowBytes_eq_ok_iff`).

A machine finds out about this by computing. It multiplies in words, with the one product that may be
too large checked, and rounds quotients up. All other numbers fit whatever the entries are, so the
computation comes to the same measures or to the same fault (`Prediction.measuresChecked_eq`).
-/

namespace PdfFilters

/-- The measures of rows as a machine keeps them. -/
structure Measures where
  colors : Nat
  bits : Nat
  columns : Nat
  rowBytes : Nat
  pixelBytes : Nat

/-- The measures of a layout. -/
def Layout.measures (layout : Layout) : Measures :=
  ⟨layout.colors, layout.bits, layout.columns, layout.rowBytes, layout.pixelBytes⟩

/-- A row has just room for its bits. -/
theorem Layout.isLeast_rowBytes (layout : Layout) :
    IsLeast {count : Nat | layout.columns * (layout.colors * layout.bits) ≤ 8 * count}
      layout.rowBytes := by
  unfold rowBytes
  refine ⟨?_, ?_⟩
  · show _ ≤ 8 * _
    omega
  · intro count (room : _ ≤ 8 * count)
    omega

/-- A quotient that is rounded up: one more than the quotient if anything is left. -/
def quotientUp? (value divisor : Nat) : Option Nat := do
  let quotient ← quotient? value divisor
  if value % divisor = 0 then return quotient else word? (quotient + 1)

theorem quotientUp?_eq {value : Nat} (fits : value ≤ maxWord) :
    quotientUp? value 8 = some ((value + 7) / 8) := by
  rw [quotientUp?, bind_of_eq_some (quotient?_eq (Nat.succ_pos 7) value)]
  split
  next whole =>
    have same : (value + 7) / 8 = value / 8 := by omega
    rw [same]
    rfl
  next left =>
    have more : (value + 7) / 8 = value / 8 + 1 := by omega
    have word : value / 8 + 1 ≤ maxWord := by
      unfold maxWord at fits ⊢
      omega
    rw [more, word?_eq word]

namespace Prediction

/-- Compute the measures that the entries describe, or find the first unusable entry. -/
def measuresChecked (prediction : Prediction) : Option (Except Fault Measures) :=
  let ⟨_, colors, bits, columns, _⟩ := prediction
  if ¬ (1 ≤ colors ∧ colors ≤ 32) then some (.error (.badParameter "Colors" colors))
  else if bits ∉ ([1, 2, 4, 8, 16] : List Int) then
    some (.error (.badParameter "BitsPerComponent" bits))
  else if columns < 1 then some (.error (.badParameter "Columns" columns))
  else do
    let pixelBits ← word? (colors.toNat * bits.toNat)
    match word? (columns.toNat * pixelBits) with
    | none => return .error (.badParameter "Columns" columns)
    | some rowBits =>
      let rowBytes ← quotientUp? rowBits 8
      let pixelBytes ← quotientUp? pixelBits 8
      return .ok ⟨colors.toNat, bits.toNat, columns.toNat, rowBytes, max 1 pixelBytes⟩

theorem toNat_mem_widths {bits : Int} :
    bits.toNat ∈ [1, 2, 4, 8, 16] ↔ bits ∈ ([1, 2, 4, 8, 16] : List Int) := by
  simp only [List.mem_cons, List.not_mem_nil, or_false]
  omega

/-- The computation comes to the measures of the layout. -/
theorem measuresChecked_eq (prediction : Prediction) :
    prediction.measuresChecked = some (prediction.layout.map Layout.measures) := by
  obtain ⟨predictor, colors, bits, columns, earlyChange⟩ := prediction
  unfold measuresChecked layout
  dsimp only
  by_cases inRange : 1 ≤ colors ∧ colors ≤ 32
  · rw [if_neg (not_not_intro inRange), dif_pos inRange]
    by_cases width : bits ∈ ([1, 2, 4, 8, 16] : List Int)
    · rw [if_neg (not_not_intro width), dif_pos (toNat_mem_widths.mpr width)]
      by_cases positive : 1 ≤ columns
      · have small : colors.toNat * bits.toNat ≤ 32 * 16 := by
          simp only [List.mem_cons, List.not_mem_nil, or_false] at width
          exact Nat.mul_le_mul (by omega) (by omega)
        have word : colors.toNat * bits.toNat ≤ maxWord := Nat.le_trans small (by decide)
        rw [if_neg (Int.not_lt.mpr positive), dif_pos positive, bind_of_eq_some (word?_eq word)]
        by_cases fits : columns.toNat * (colors.toNat * bits.toNat) ≤ maxWord
        · rw [dif_pos fits, word?_eq fits]
          dsimp only
          rw [bind_of_eq_some (quotientUp?_eq fits), bind_of_eq_some (quotientUp?_eq word)]
          rfl
        · rw [dif_neg fits, word?, if_neg fits]
          rfl
      · rw [if_pos (Int.not_le.mp positive), dif_neg positive]
        rfl
    · rw [if_pos width, dif_neg (fun here => width (toNat_mem_widths.mp here))]
      rfl
  · rw [if_pos inRange, dif_neg inRange]
    rfl

/-- Entries that are in range, with rows whose bits can be counted in a word. -/
structure DescribesRows (prediction : Prediction) : Prop where
  colors_pos : 1 ≤ prediction.colors
  colors_le : prediction.colors ≤ 32
  bits_mem : prediction.bitsPerComponent ∈ ([1, 2, 4, 8, 16] : List Int)
  columns_pos : 1 ≤ prediction.columns
  rowBits_le : prediction.columns * prediction.colors * prediction.bitsPerComponent ≤ 2 ^ 64 - 1

/-- The bits of a row, if the entries are in range. -/
theorem rowBits_eq {prediction : Prediction} (colors_pos : 1 ≤ prediction.colors)
    (bits_mem : prediction.bitsPerComponent ∈ ([1, 2, 4, 8, 16] : List Int))
    (columns_pos : 1 ≤ prediction.columns) :
    prediction.columns * prediction.colors * prediction.bitsPerComponent
      = (prediction.columns.toNat
          * (prediction.colors.toNat * prediction.bitsPerComponent.toNat) : Nat) := by
  have bits_nonneg : 0 ≤ prediction.bitsPerComponent := by
    simp only [List.mem_cons, List.not_mem_nil, or_false] at bits_mem
    omega
  rw [Int.natCast_mul, Int.natCast_mul, Int.toNat_of_nonneg (Int.le_of_lt columns_pos),
    Int.toNat_of_nonneg (Int.le_of_lt colors_pos), Int.toNat_of_nonneg bits_nonneg, Int.mul_assoc]

/-- Entries with a layout are in range. -/
theorem describesRows_of_layout {prediction : Prediction} {layout : Layout}
    (valid : prediction.layout = .ok layout) : prediction.DescribesRows := by
  obtain ⟨colors, bits, columns⟩ := layout_eq valid
  have least := layout.colors_pos
  have most := layout.colors_le
  have width := layout.bits_mem
  have some := layout.columns_pos
  have fits := layout.rowBits_le
  rw [bits, toNat_mem_widths] at width
  rw [colors] at least most
  rw [columns] at some
  rw [colors, bits, columns] at fits
  have colors_pos : 1 ≤ prediction.colors := by omega
  have columns_pos : 1 ≤ prediction.columns := by omega
  refine ⟨colors_pos, by omega, width, columns_pos, ?_⟩
  rw [rowBits_eq colors_pos width columns_pos]
  unfold maxWord at fits
  omega

/-- Entries in range have a layout. -/
theorem DescribesRows.exists_layout {prediction : Prediction} (describes : prediction.DescribesRows) :
    ∃ layout, prediction.layout = .ok layout := by
  obtain ⟨colors_pos, colors_le, bits_mem, columns_pos, fits⟩ := describes
  rw [rowBits_eq colors_pos bits_mem columns_pos] at fits
  obtain ⟨predictor, colors, bits, columns, earlyChange⟩ := prediction
  have small : columns.toNat * (colors.toNat * bits.toNat) ≤ maxWord := by
    unfold maxWord
    dsimp only at fits
    omega
  unfold layout
  dsimp only
  rw [dif_pos ⟨colors_pos, colors_le⟩, dif_pos (toNat_mem_widths.mpr bits_mem), dif_pos columns_pos,
    dif_pos small]
  exact ⟨_, rfl⟩

/-- Entries describe rows exactly if they are in range and the bits of a row can be counted, and then a
row is as many bytes as its bits fill: the least number of bytes that has room for them. -/
theorem rowBytes_eq_ok_iff (prediction : Prediction) (bytes : Nat) :
    prediction.layout.map Layout.rowBytes = .ok bytes
      ↔ prediction.DescribesRows ∧ IsLeast
        {count : Nat | prediction.columns * prediction.colors * prediction.bitsPerComponent
          ≤ ((8 * count : Nat) : Int)} bytes := by
  have least {layout : Layout} (valid : prediction.layout = .ok layout) : IsLeast
      {count : Nat | prediction.columns * prediction.colors * prediction.bitsPerComponent
        ≤ ((8 * count : Nat) : Int)} layout.rowBytes := by
    obtain ⟨colors, bits, columns⟩ := layout_eq valid
    obtain ⟨colors_pos, -, bits_mem, columns_pos, -⟩ := describesRows_of_layout valid
    rw [rowBits_eq colors_pos bits_mem columns_pos, ← colors, ← bits, ← columns]
    simp only [Int.ofNat_le]
    exact layout.isLeast_rowBytes
  constructor
  · intro laid
    cases valid : prediction.layout with
    | error fault =>
      rw [valid] at laid
      cases laid
    | ok layout =>
      rw [valid] at laid
      cases laid
      exact ⟨describesRows_of_layout valid, least valid⟩
  · rintro ⟨describes, fewest⟩
    obtain ⟨layout, valid⟩ := describes.exists_layout
    rw [fewest.unique (least valid), valid]
    rfl

end Prediction

end PdfFilters

import PdfFilters.Proofs.Rows.Layout
import PdfFilters.Proofs.Rows.Samples
import PdfFilters.Rows.Undo

/-!
# Rows of differences are restored exactly

What the differences of a row are is said about its bits (`AreDifferences`): the samples of the first
pixel are the same, every later one is less by the sample of its component one pixel to the left,
modulo the range of a sample, and the bits behind the samples that count are the same.

Running sums and differences are loops that overwrite one sample in each step. The sums go through
the row from the left, so a step finds its left neighbour restored already (`sampleAt_sums`); the
differences go from the right, so a step finds it untouched (`sampleAt_differences`). Both leave the
bits behind the samples alone. So the running sums of a row are the one row of which it holds the
differences (`sumRow_eq_iff`), and every row has its differences (`areDifferences_differenceRow`).

An image is restored row by row (`rowAt_mapRows`), which makes restoring the exact inverse of taking
differences (`Prediction.undo_eq_ok_iff`).
-/

namespace PdfFilters

/-- How many samples of a row count: those of its pixels, as far as they are there as a whole. -/
def countedSamples (layout : Layout) (row : List UInt8) : Nat :=
  min (layout.columns * layout.colors) (8 * row.length / layout.bits)

/-- One row holds the differences of another one. -/
structure AreDifferences (layout : Layout) (row differences : List UInt8) : Prop where
  length_eq : differences.length = row.length
  /-- The samples of the first pixel. -/
  first : ∀ index < countedSamples layout row, index < layout.colors →
    sampleOf layout.bits differences index = sampleOf layout.bits row index
  /-- The samples with a pixel to their left. -/
  later : ∀ index < countedSamples layout row, layout.colors ≤ index →
    (sampleOf layout.bits differences index : Int)
      = ((sampleOf layout.bits row index : Int)
          - sampleOf layout.bits row (index - layout.colors)) % (1 <<< layout.bits : Nat)
  /-- The bits that fill up the row, and half a sample at its end. -/
  rest : (highBitsOf differences).drop (countedSamples layout row * layout.bits)
    = (highBitsOf row).drop (countedSamples layout row * layout.bits)

/-- An image holds the differences of another one, row by row. A row is as many bytes as its samples
fill. -/
structure AreRowDifferences (layout : Layout) (image differences : List UInt8) : Prop where
  length_eq : differences.length = image.length
  rows : ∀ row, AreDifferences layout
    (rowAt ((layout.columns * (layout.colors * layout.bits) + 7) / 8) image row)
    (rowAt ((layout.columns * (layout.colors * layout.bits) + 7) / 8) differences row)

/-! ## One step -/

section Step

variable {bits count : Nat} (width : IsWidth bits) {row : Array UInt8}
  (inside : count * bits ≤ 8 * row.size) {index : Nat} (counts : index < count)

include width inside counts

theorem sampleAt_setSample_of_lt (value : Nat) {other : Nat} (counts' : other < count) :
    sampleAt bits (setSample bits row index value) other
      = if other = index then value % (1 <<< bits) else sampleAt bits row other := by
  have within {place : Nat} (counts : place < count) : (place + 1) * bits ≤ 8 * row.size :=
    Nat.le_trans (Nat.mul_le_mul_right bits counts) inside
  by_cases same : other = index
  · rw [if_pos same, same]
    exact sampleAt_setSample width row (within counts) value
  · rw [if_neg same]
    exact sampleAt_setSample_of_ne width row (within counts) value (within counts') same

theorem drop_setSample_of_lt (value : Nat) :
    (highBitsOf (setSample bits row index value).toList).drop (count * bits)
      = (highBitsOf row.toList).drop (count * bits) :=
  drop_setSample width row (Nat.le_trans (Nat.mul_le_mul_right bits counts) inside) value
    (Nat.mul_le_mul_right bits counts)

end Step

/-! ## The loops -/

section Overwriting

variable {bits : Nat} {step : Array UInt8 → Nat → Array UInt8}
  (overwrites : ∀ row index, ∃ value, step row index = setSample bits row index value)

include overwrites

theorem size_foldl_of_overwrites (indices : List Nat) (row : Array UInt8) :
    (indices.foldl step row).size = row.size := by
  induction indices generalizing row with
  | nil => rfl
  | cons index rest ih =>
    obtain ⟨value, step_eq⟩ := overwrites row index
    rw [List.foldl_cons, ih, step_eq, size_setSample]

/-- Steps that overwrite samples leave the bits behind them alone. -/
theorem drop_foldl_of_overwrites (width : IsWidth bits) {count : Nat} {row : Array UInt8}
    (inside : count * bits ≤ 8 * row.size) {indices : List Nat}
    (counts : ∀ index ∈ indices, index < count) :
    (highBitsOf (indices.foldl step row).toList).drop (count * bits)
      = (highBitsOf row.toList).drop (count * bits) := by
  induction indices generalizing row with
  | nil => rfl
  | cons index rest ih =>
    obtain ⟨here, further⟩ := List.forall_mem_cons.mp counts
    obtain ⟨value, step_eq⟩ := overwrites row index
    rw [List.foldl_cons, step_eq, ih (by rwa [size_setSample]) further,
      drop_setSample_of_lt width inside here]

end Overwriting

/-- The running sums at the first indices from `colors` on. -/
def sums (bits colors : Nat) (row : Array UInt8) (len : Nat) : Array UInt8 :=
  (List.range' colors len).foldl (addLeft bits colors) row

/-- The differences at the first indices from `colors` on, the last one taken first. -/
def differences (bits colors : Nat) (row : Array UInt8) (len : Nat) : Array UInt8 :=
  (List.range' colors len).reverse.foldl (subtractLeft bits colors) row

section Loops

variable {bits colors count : Nat}

theorem sums_succ (row : Array UInt8) (len : Nat) :
    sums bits colors row (len + 1) = addLeft bits colors (sums bits colors row len) (colors + len) := by
  unfold sums
  rw [List.range'_1_concat, List.foldl_concat]

theorem differences_succ (row : Array UInt8) (len : Nat) :
    differences bits colors row (len + 1)
      = differences bits colors (subtractLeft bits colors row (colors + len)) len := by
  unfold differences
  rw [List.range'_1_concat, List.reverse_append, List.reverse_singleton, List.singleton_append,
    List.foldl_cons]

@[simp] theorem size_sums (row : Array UInt8) (len : Nat) :
    (sums bits colors row len).size = row.size :=
  size_foldl_of_overwrites (fun _ _ => ⟨_, rfl⟩) _ row

@[simp] theorem size_differences (row : Array UInt8) (len : Nat) :
    (differences bits colors row len).size = row.size :=
  size_foldl_of_overwrites (fun _ _ => ⟨_, rfl⟩) _ row

variable (width : IsWidth bits) (positive : 0 < colors) {row : Array UInt8}
  (inside : count * bits ≤ 8 * row.size)

include width inside positive

/-- A sum is made of what was there and of the sum to its left. -/
theorem sampleAt_sums {len : Nat} (few : len ≤ count - colors) {index : Nat} (counts : index < count) :
    sampleAt bits (sums bits colors row len) index
      = if colors ≤ index ∧ index < colors + len then
          (sampleAt bits row index + sampleAt bits (sums bits colors row len) (index - colors))
            % (1 <<< bits)
        else sampleAt bits row index := by
  induction len generalizing index with
  | zero => rw [if_neg (by omega)]; rfl
  | succ len ih =>
    have here : colors + len < count := by omega
    have before : colors + len - colors < count := by omega
    have inside' : count * bits ≤ 8 * (sums bits colors row len).size := by rwa [size_sums]
    have step {place : Nat} (counts : place < count) :=
      sampleAt_setSample_of_lt width inside' here
        (sampleAt bits (sums bits colors row len) (colors + len)
          + sampleAt bits (sums bits colors row len) (colors + len - colors)) counts
    rw [sums_succ, addLeft, step counts, step (by omega : index - colors < count)]
    by_cases last : index = colors + len
    · -- The step reads what was there at its index, and to its left what comes out in the end.
      have untouched := ih (by omega) here
      rw [if_neg (by omega)] at untouched
      rw [if_pos last, if_pos (by omega), if_neg (by omega), last, untouched]
    · rw [if_neg last, ih (by omega) counts]
      by_cases among : colors ≤ index ∧ index < colors + len
      · rw [if_pos among, if_pos (by omega), if_neg (by omega)]
      · rw [if_neg among, if_neg (by omega)]

/-- A difference is made of what was there and of what was there to its left. -/
theorem sampleAt_differences {len : Nat} (few : len ≤ count - colors) {index : Nat}
    (counts : index < count) :
    sampleAt bits (differences bits colors row len) index
      = if colors ≤ index ∧ index < colors + len then
          (sampleAt bits row index + ((1 <<< bits) - sampleAt bits row (index - colors)))
            % (1 <<< bits)
        else sampleAt bits row index := by
  induction len generalizing row with
  | zero => rw [if_neg (by omega)]; rfl
  | succ len ih =>
    have here : colors + len < count := by omega
    have step {place : Nat} (counts : place < count) :=
      sampleAt_setSample_of_lt width inside here
        (sampleAt bits row (colors + len)
          + ((1 <<< bits) - sampleAt bits row (colors + len - colors))) counts
    rw [differences_succ, ih (by rwa [subtractLeft, size_setSample]) (by omega), subtractLeft,
      step counts, step (by omega : index - colors < count)]
    by_cases last : index = colors + len
    · rw [if_neg (by omega), if_pos last, if_pos (by omega), last]
    · by_cases among : colors ≤ index ∧ index < colors + len
      · rw [if_pos among, if_neg last, if_neg (by omega), if_pos (by omega)]
      · rw [if_neg among, if_neg last, if_neg (by omega)]

end Loops

/-! ## One row -/

section Row

variable (layout : Layout) (row : Array UInt8)

theorem Layout.isWidth (layout : Layout) : IsWidth layout.bits := layout.bits_mem

theorem Layout.samples_inside : layout.samples row * layout.bits ≤ 8 * row.size := by
  have whole : sampleCount layout.bits row * layout.bits ≤ 8 * row.size := by
    rw [sampleCount, Nat.mul_comm 8]
    exact Nat.div_mul_le_self _ _
  exact Nat.le_trans (Nat.mul_le_mul_right _ (Nat.min_le_right _ _)) whole

theorem Layout.samples_eq : layout.samples row = countedSamples layout row.toList := by
  rw [samples, sampleCount, countedSamples, Array.length_toList, Nat.mul_comm 8]

theorem size_sumRow : (layout.sumRow row).size = row.size := size_sums row _

theorem size_differenceRow : (layout.differenceRow row).size = row.size := size_differences row _

theorem Layout.lt_samples {index : Nat} (listed : index ∈ layout.followers row) :
    index < layout.samples row := by
  have := List.mem_range'_1.mp listed
  omega

theorem drop_sumRow :
    (highBitsOf (layout.sumRow row).toList).drop (layout.samples row * layout.bits)
      = (highBitsOf row.toList).drop (layout.samples row * layout.bits) :=
  drop_foldl_of_overwrites (fun _ _ => ⟨_, rfl⟩) layout.isWidth (layout.samples_inside row)
    fun _ listed => layout.lt_samples row listed

theorem drop_differenceRow :
    (highBitsOf (layout.differenceRow row).toList).drop (layout.samples row * layout.bits)
      = (highBitsOf row.toList).drop (layout.samples row * layout.bits) :=
  drop_foldl_of_overwrites (fun _ _ => ⟨_, rfl⟩) layout.isWidth (layout.samples_inside row)
    fun _ listed => layout.lt_samples row (List.mem_reverse.mp listed)

theorem Layout.samples_congr (layout : Layout) {first second : Array UInt8}
    (size : first.size = second.size) : layout.samples first = layout.samples second := by
  rw [samples, samples, sampleCount, sampleCount, size]

theorem sampleAt_sumRow {index : Nat} (counts : index < layout.samples row) :
    sampleAt layout.bits (layout.sumRow row) index
      = if layout.colors ≤ index then
          (sampleAt layout.bits row index
            + sampleAt layout.bits (layout.sumRow row) (index - layout.colors)) % (1 <<< layout.bits)
        else sampleAt layout.bits row index := by
  have summed := sampleAt_sums layout.isWidth layout.colors_pos (layout.samples_inside row)
    (Nat.le_refl _) counts
  by_cases later : layout.colors ≤ index
  · rw [if_pos later]
    rwa [if_pos ⟨later, by omega⟩] at summed
  · rw [if_neg later]
    rwa [if_neg (fun among => later among.1)] at summed

theorem sampleAt_differenceRow {index : Nat} (counts : index < layout.samples row) :
    sampleAt layout.bits (layout.differenceRow row) index
      = if layout.colors ≤ index then
          (sampleAt layout.bits row index
            + ((1 <<< layout.bits) - sampleAt layout.bits row (index - layout.colors)))
              % (1 <<< layout.bits)
        else sampleAt layout.bits row index := by
  have taken := sampleAt_differences layout.isWidth layout.colors_pos (layout.samples_inside row)
    (Nat.le_refl _) counts
  by_cases later : layout.colors ≤ index
  · rw [if_pos later]
    rwa [if_pos ⟨later, by omega⟩] at taken
  · rw [if_neg later]
    rwa [if_neg (fun among => later among.1)] at taken

end Row

/-- Differences in terms of the samples as they are read in their bytes. -/
theorem areDifferences_iff (layout : Layout) {row coded : Array UInt8} :
    AreDifferences layout row.toList coded.toList ↔
      coded.size = row.size
        ∧ (∀ index < layout.samples row,
          (sampleAt layout.bits coded index : Int)
            = if layout.colors ≤ index then
                ((sampleAt layout.bits row index : Int)
                  - sampleAt layout.bits row (index - layout.colors)) % (1 <<< layout.bits : Nat)
              else sampleAt layout.bits row index)
        ∧ (highBitsOf coded.toList).drop (layout.samples row * layout.bits)
          = (highBitsOf row.toList).drop (layout.samples row * layout.bits) := by
  have within {some : Array UInt8} (size : some.size = row.size) {index : Nat}
      (counts : index < layout.samples row) :
      sampleAt layout.bits some index = sampleOf layout.bits some.toList index := by
    apply sampleAt_eq layout.isWidth
    rw [size]
    exact Nat.le_trans (Nat.mul_le_mul_right _ counts) (layout.samples_inside row)
  constructor
  · intro ⟨length_eq, first, later, rest⟩
    rw [← layout.samples_eq] at first later rest
    refine ⟨length_eq, ?_, rest⟩
    intro index counts
    rw [within length_eq counts, within rfl counts, within rfl (by omega)]
    by_cases behind : layout.colors ≤ index
    · rw [if_pos behind]
      exact later index counts behind
    · rw [if_neg behind]
      exact congrArg _ (first index counts (by omega))
  · intro ⟨size, samples, rest⟩
    rw [layout.samples_eq] at rest
    refine ⟨size, ?_, ?_, rest⟩
    · intro index counts early
      rw [← layout.samples_eq] at counts
      have sample := samples index counts
      rw [if_neg (by omega), within size counts, within rfl counts] at sample
      exact Int.natCast_inj.mp sample
    · intro index counts behind
      rw [← layout.samples_eq] at counts
      have sample := samples index counts
      rwa [if_pos behind, within size counts, within rfl counts, within rfl (by omega)] at sample

/-! ## Sums and differences modulo a range -/

section Modulo

variable {range sample left : Nat}

theorem mod_sub_of_sum (small : sample < range) :
    ((((sample + left) % range : Nat) : Int) - left) % (range : Nat) = sample := by
  rw [Int.natCast_mod, Int.emod_sub_emod, Int.natCast_add, Int.add_sub_cancel]
  exact Int.emod_eq_of_lt (Int.natCast_nonneg _) (Int.ofNat_lt.mpr small)

theorem mod_add_of_difference {difference : Nat} (small : sample < range)
    (taken : (difference : Int) = ((sample : Int) - left) % (range : Nat)) :
    (difference + left) % range = sample := by
  apply Int.natCast_inj.mp
  rw [Int.natCast_mod, Int.natCast_add, taken, Int.emod_add_emod, Int.sub_add_cancel]
  exact Int.emod_eq_of_lt (Int.natCast_nonneg _) (Int.ofNat_lt.mpr small)

theorem natCast_difference (small : left ≤ range) :
    (((sample + (range - left)) % range : Nat) : Int) = ((sample : Int) - left) % (range : Nat) := by
  have apart : ((sample + (range - left) : Nat) : Int) = (sample : Int) - left + range := by omega
  rw [Int.natCast_mod, apart, Int.add_emod_right]

end Modulo

/-- The running sums of a row are the row of which it holds the differences, and no other. -/
theorem sumRow_eq_iff (layout : Layout) {row coded : Array UInt8} :
    layout.sumRow coded = row ↔ AreDifferences layout row.toList coded.toList := by
  rw [areDifferences_iff]
  constructor
  · rintro rfl
    have size := size_sumRow layout coded
    have same := layout.samples_congr size
    refine ⟨size.symm, ?_, ?_⟩
    · intro index counts
      rw [sampleAt_sumRow layout coded (same ▸ counts)]
      by_cases later : layout.colors ≤ index
      · rw [if_pos later, if_pos later, mod_sub_of_sum (sampleAt_lt _ _ _)]
      · rw [if_neg later, if_neg later]
    · rw [same]
      exact (drop_sumRow layout coded).symm
  · intro ⟨size, samples, rest⟩
    have same := layout.samples_congr size
    have size' : (layout.sumRow coded).size = row.size := (size_sumRow layout coded).trans size
    refine eq_of_samples layout.isWidth (layout.samples row) size' ?_ ?_ ?_
    · rw [size']
      exact layout.samples_inside row
    · -- From the left, because each sum takes in the one to its left.
      intro index
      induction index using Nat.strongRecOn with
      | ind index ih =>
        intro counts
        have sample := samples index counts
        rw [sampleAt_sumRow layout coded (same ▸ counts)]
        by_cases later : layout.colors ≤ index
        · have := layout.colors_pos
          rw [if_pos later] at sample
          rw [if_pos later, ih (index - layout.colors) (by omega) (by omega)]
          exact mod_add_of_difference (sampleAt_lt _ _ _) sample
        · rw [if_neg later] at sample
          rw [if_neg later]
          exact Int.natCast_inj.mp sample
    · rw [← rest, ← same]
      exact drop_sumRow layout coded

/-- Every row has its differences. -/
theorem areDifferences_differenceRow (layout : Layout) (row : Array UInt8) :
    AreDifferences layout row.toList (layout.differenceRow row).toList := by
  rw [areDifferences_iff]
  refine ⟨size_differenceRow layout row, ?_, ?_⟩
  · intro index counts
    rw [sampleAt_differenceRow layout row counts]
    by_cases later : layout.colors ≤ index
    · rw [if_pos later, if_pos later, natCast_difference (Nat.le_of_lt (sampleAt_lt _ _ _))]
    · rw [if_neg later, if_neg later]
  · exact drop_differenceRow layout row

/-- A row has no other differences. -/
theorem AreDifferences.unique {layout : Layout} {row first second : Array UInt8}
    (one : AreDifferences layout row.toList first.toList)
    (other : AreDifferences layout row.toList second.toList) : first = second := by
  obtain ⟨size, samples, rest⟩ := (areDifferences_iff layout).mp one
  obtain ⟨size', samples', rest'⟩ := (areDifferences_iff layout).mp other
  refine eq_of_samples layout.isWidth (layout.samples row) (size.trans size'.symm) ?_ ?_
    (rest.trans rest'.symm)
  · rw [size]
    exact layout.samples_inside row
  · intro index counts
    exact Int.natCast_inj.mp ((samples index counts).trans (samples' index counts).symm)

/-! ## Images -/

section Image

variable {layout : Layout} {change : Array UInt8 → Array UInt8}

theorem mapRowsFrom_append (start done : Array UInt8) (data : List UInt8) :
    layout.mapRowsFrom change (start ++ done) data = start ++ layout.mapRowsFrom change done data := by
  fun_induction Layout.mapRowsFrom layout change done data with
  | case1 => rw [Layout.mapRowsFrom]
  | case2 done byte rest ih => rw [Layout.mapRowsFrom, Array.append_assoc, ih]

/-- Change each row of some data. -/
def Layout.mapRows (layout : Layout) (change : Array UInt8 → Array UInt8) (data : List UInt8) :
    List UInt8 :=
  (layout.mapRowsFrom change #[] data).toList

theorem mapRows_nil (change : Array UInt8 → Array UInt8) : layout.mapRows change [] = [] := by
  unfold Layout.mapRows
  rw [Layout.mapRowsFrom]

variable (keeps : ∀ row, (change row).size = row.size)

include keeps

theorem mapRows_eq (data : List UInt8) :
    layout.mapRows change data
      = (change (data.take layout.rowBytes).toArray).toList
        ++ layout.mapRows change (data.drop layout.rowBytes) := by
  cases data with
  | nil =>
    have empty : change #[] = #[] := Array.size_eq_zero_iff.mp (keeps #[])
    rw [List.take_nil, List.drop_nil, empty]
    rfl
  | cons byte rest =>
    have onto (first : Array UInt8) (data : List UInt8) :
        layout.mapRowsFrom change first data = first ++ layout.mapRowsFrom change #[] data := by
      rw [← mapRowsFrom_append, Array.append_empty]
    unfold Layout.mapRows
    rw [Layout.mapRowsFrom, Array.empty_append, onto, Array.toList_append]

theorem size_mapRowsFrom (done : Array UInt8) (data : List UInt8) :
    (layout.mapRowsFrom change done data).size = done.size + data.length := by
  fun_induction Layout.mapRowsFrom layout change done data with
  | case1 => rfl
  | case2 done byte rest ih =>
    have size : (change ((byte :: rest).take layout.rowBytes).toArray).size
        = min layout.rowBytes (rest.length + 1) := by
      rw [keeps, List.size_toArray, List.length_take, List.length_cons]
    rw [ih, Array.size_append, size, List.length_drop, List.length_cons]
    omega

/-- The first of the changed rows is the first row, changed. -/
theorem take_drop_mapRows (data : List UInt8) :
    (layout.mapRows change data).take layout.rowBytes
        = (change (data.take layout.rowBytes).toArray).toList
      ∧ (layout.mapRows change data).drop layout.rowBytes
        = layout.mapRows change (data.drop layout.rowBytes) := by
  have size : (change (data.take layout.rowBytes).toArray).toList.length
      = min layout.rowBytes data.length := by
    rw [Array.length_toList, keeps, List.size_toArray, List.length_take]
  rw [mapRows_eq keeps]
  apply take_drop_row (Nat.le_trans (Nat.le_of_eq size) (Nat.min_le_left _ _))
  by_cases long : layout.rowBytes ≤ data.length
  · exact .inr (size.trans (Nat.min_eq_left long))
  · rw [List.drop_eq_nil_of_le (by omega)]
    exact .inl (mapRows_nil change)

theorem rowAt_mapRows (data : List UInt8) (row : Nat) :
    rowAt layout.rowBytes (layout.mapRows change data) row
      = (change (rowAt layout.rowBytes data row).toArray).toList := by
  induction row generalizing data with
  | zero => rw [rowAt_zero, rowAt_zero, (take_drop_mapRows keeps data).1]
  | succ row ih => rw [rowAt_succ, rowAt_succ, (take_drop_mapRows keeps data).2, ih]

end Image

/-- Restoring an image gives the one of which the differences are held. -/
theorem undoDifferences_eq_iff (layout : Layout) {image coded : List UInt8} :
    undoDifferences layout coded = image ↔ AreRowDifferences layout image coded := by
  have restored (row : Nat) : rowAt layout.rowBytes (undoDifferences layout coded) row
      = (layout.sumRow (rowAt layout.rowBytes coded row).toArray).toList :=
    rowAt_mapRows (size_sumRow layout) coded row
  constructor
  · rintro rfl
    refine ⟨?_, ?_⟩
    · show coded.length = (layout.mapRowsFrom layout.sumRow #[] coded).size
      rw [size_mapRowsFrom (size_sumRow layout), Array.size_empty, Nat.zero_add]
    · intro row
      show AreDifferences layout (rowAt layout.rowBytes (undoDifferences layout coded) row) _
      rw [restored]
      exact (sumRow_eq_iff layout).mp rfl
  · intro ⟨_, rows⟩
    apply eq_of_rowAt layout.rowBytes_pos
    intro row
    have summed : layout.sumRow (rowAt layout.rowBytes coded row).toArray
        = (rowAt layout.rowBytes image row).toArray :=
      (sumRow_eq_iff layout).mpr (rows row)
    rw [restored, summed]

/-- Every image has its differences, and no others. -/
theorem existsUnique_areRowDifferences (layout : Layout) (image : List UInt8) :
    ∃! coded, AreRowDifferences layout image coded := by
  have taken (row : Nat) : rowAt layout.rowBytes (takeDifferences layout image) row
      = (layout.differenceRow (rowAt layout.rowBytes image row).toArray).toList :=
    rowAt_mapRows (size_differenceRow layout) image row
  refine ⟨takeDifferences layout image, ⟨?_, ?_⟩, ?_⟩
  · show (layout.mapRowsFrom layout.differenceRow #[] image).size = image.length
    rw [size_mapRowsFrom (size_differenceRow layout), Array.size_empty, Nat.zero_add]
  · intro row
    show AreDifferences layout _ (rowAt layout.rowBytes (takeDifferences layout image) row)
    rw [taken]
    exact areDifferences_differenceRow layout (rowAt layout.rowBytes image row).toArray
  · intro coded ⟨_, rows⟩
    apply eq_of_rowAt layout.rowBytes_pos
    intro row
    have own := areDifferences_differenceRow layout (rowAt layout.rowBytes image row).toArray
    have same : (rowAt layout.rowBytes coded row).toArray
        = layout.differenceRow (rowAt layout.rowBytes image row).toArray :=
      AreDifferences.unique (rows row) own
    rw [taken, ← same]

namespace Prediction

theorem undo_of_differences {prediction : Prediction} (differences : prediction.predictor = 2)
    (data : List UInt8) :
    prediction.undo data = prediction.layout >>= fun layout => .ok (undoDifferences layout data) := by
  unfold undo
  rw [if_neg (by omega), if_pos differences]
  rfl

/-- Restoring is the exact inverse of taking differences: every image has its differences, whatever
is restored is restored to the image of which it holds the differences, and that is as long. In
particular the bits of a row that are no part of a sample that counts are those of the data. -/
theorem undo_eq_ok_iff {prediction : Prediction} {layout : Layout}
    (differences : prediction.predictor = 2) (valid : prediction.layout = .ok layout) :
    (∀ image, ∃! coded, AreRowDifferences layout image coded)
      ∧ (∀ coded image, prediction.undo coded = .ok image ↔ AreRowDifferences layout image coded)
      ∧ ∀ coded, ∃ image, prediction.undo coded = .ok image ∧ image.length = coded.length := by
  have undone (coded : List UInt8) : prediction.undo coded = .ok (undoDifferences layout coded) := by
    rw [undo_of_differences differences, valid]
    rfl
  refine ⟨existsUnique_areRowDifferences layout, ?_, ?_⟩
  · intro coded image
    rw [undone, ← undoDifferences_eq_iff]
    exact ⟨Except.ok.inj, congrArg Except.ok⟩
  · intro coded
    exact ⟨_, undone coded, ((undoDifferences_eq_iff layout).mp rfl).length_eq.symm⟩

/-- Rows of three samples of four bits and four bits that fill them up, the last row cut off after
two samples. -/
theorem undo_eq_ok_iff_cut :
    let prediction : Prediction := { predictor := 2, bitsPerComponent := 4, columns := 3 }
    let layout : Layout :=
      ⟨1, 4, 3, by decide, by decide, by decide, by decide, by decide⟩
    (prediction.predictor = 2 ∧ prediction.layout = .ok layout)
      ∧ prediction.undo [0x12, 0x3A, 0xF1] = .ok [0x13, 0x6A, 0xF0]
      ∧ AreRowDifferences layout [0x13, 0x6A, 0xF0] [0x12, 0x3A, 0xF1]
      ∧ ∃! coded, AreRowDifferences layout [0x13, 0x6A, 0xF0] coded := by
  intro prediction layout
  have differences : prediction.predictor = 2 := rfl
  have valid : prediction.layout = .ok layout := rfl
  have undone : prediction.undo [0x12, 0x3A, 0xF1] = .ok [0x13, 0x6A, 0xF0] := by decide +kernel
  obtain ⟨unique, inverse, _⟩ := undo_eq_ok_iff differences valid
  exact ⟨⟨differences, valid⟩, undone, (inverse _ _).mp undone, unique _⟩

end Prediction

end PdfFilters

import Mathlib.Algebra.BigOperators.Ring.Finset
import PdfFilters.Proofs.Rows.CheckedSums

/-!
# Samples in a byte form an array, and a row of differences its running sums

A sample of one, two or four bits shares its byte with others. Still a row is an array of such samples
(`IsSampleArray`): what is written at an index is read there again, all other samples stay, and nothing
but its samples makes up a row. A machine that shifts and masks bytes reads and writes the same.

So each step of the loop over a row of differences changes one sample, and finds on its left what the
step for that sample has left there. By induction from pixel to pixel, the loop leaves in each sample
the sum of all samples of its component up to there (`sampleAt_sumRow_eq_sum`), and it leaves the
samples that do not count alone (`sampleAt_sumRow_of_le`).
-/

namespace PdfFilters

/-- A row is an array of samples of so many bits. -/
structure IsSampleArray (bits : Nat) (row : Array UInt8) : Prop where
  /-- What is written is read again, as far as it fits. -/
  read_same : ∀ index < sampleCount bits row, ∀ value,
    sampleAt bits (setSample bits row index value) index = value % 2 ^ bits
  /-- The other samples stay. -/
  read_other : ∀ index < sampleCount bits row, ∀ value other, other ≠ index →
    sampleAt bits (setSample bits row index value) other = sampleAt bits row other
  size_eq : ∀ index value, (setSample bits row index value).size = row.size
  /-- A row that has the same samples is the same. -/
  eq_of_same : ∀ other, sampleCount bits other = sampleCount bits row →
    (∀ index < sampleCount bits row, sampleAt bits other index = sampleAt bits row index) →
    other = row
  /-- Moving the byte of a sample down and masking it reads the sample. -/
  read_masked : row.size * 8 ≤ maxWord → ∀ index < sampleCount bits row,
    ∃ sample, readSampleChecked bits row index = some sample
      ∧ sample.toNat = sampleAt bits row index
  /-- Masking the sample out of its byte and another one in overwrites it. -/
  write_masked : row.size * 8 ≤ maxWord → ∀ index < sampleCount bits row, ∀ value : UInt8,
    writeSampleChecked bits row index value = some (setSample bits row index value.toNat)

section Narrow

variable {bits : Nat} (narrow : bits ∈ [1, 2, 4]) {row : Array UInt8}

include narrow

theorem isWidth_of_narrow : IsWidth bits := by
  simp only [List.mem_cons, List.not_mem_nil, or_false] at narrow
  rcases narrow with rfl | rfl | rfl
  · exact List.mem_cons_self
  · exact List.mem_cons_of_mem _ List.mem_cons_self
  · exact List.mem_cons_of_mem _ (List.mem_cons_of_mem _ List.mem_cons_self)

theorem ne_sixteen_of_narrow : bits ≠ 16 := by
  simp only [List.mem_cons, List.not_mem_nil, or_false] at narrow
  omega

/-- An index counts if the bits of its sample are there. -/
theorem lt_sampleCount_iff {index : Nat} :
    index < sampleCount bits row ↔ (index + 1) * bits ≤ 8 * row.size := by
  unfold sampleCount
  simp only [List.mem_cons, List.not_mem_nil, or_false] at narrow
  rcases narrow with rfl | rfl | rfl <;> omega

/-- The samples fill the row. -/
theorem sampleCount_mul (row : Array UInt8) :
    sampleCount bits row * bits = 8 * row.size := by
  unfold sampleCount
  simp only [List.mem_cons, List.not_mem_nil, or_false] at narrow
  rcases narrow with rfl | rfl | rfl <;> omega

/-- What lies beyond the row is read as zero. -/
theorem sampleAt_of_le {index : Nat} (beyond : sampleCount bits row ≤ index) :
    sampleAt bits row index = 0 := by
  have outside : row.size ≤ index * bits / 8 := by
    unfold sampleCount at beyond
    simp only [List.mem_cons, List.not_mem_nil, or_false] at narrow
    rcases narrow with rfl | rfl | rfl <;> omega
  have nothing : row.getD (index * bits / 8) 0 = 0 := by
    rw [Array.getD_eq_getD_getElem?, Array.getElem?_eq_none outside]
    rfl
  unfold sampleAt
  rw [if_neg (ne_sixteen_of_narrow narrow), nothing]
  show 0 >>> sampleShift bits index % (1 <<< bits) = 0
  rw [Nat.zero_shiftRight, Nat.zero_mod]

/-- Overwriting a sample changes no other one. -/
theorem sampleAt_setSample_apart {index : Nat} (counts : index < sampleCount bits row) (value : Nat)
    {other : Nat} (apart : other ≠ index) :
    sampleAt bits (setSample bits row index value) other = sampleAt bits row other := by
  by_cases counts' : other < sampleCount bits row
  · exact sampleAt_setSample_of_ne (isWidth_of_narrow narrow) row
      ((lt_sampleCount_iff narrow).mp counts) value ((lt_sampleCount_iff narrow).mp counts') apart
  · have beyond : sampleCount bits row ≤ other := Nat.le_of_not_lt counts'
    have beyond' : sampleCount bits (setSample bits row index value) ≤ other := by
      unfold sampleCount
      rwa [size_setSample]
    rw [sampleAt_of_le narrow beyond, sampleAt_of_le narrow beyond']

/-- Overwriting samples one after another changes no others. -/
theorem sampleAt_foldl_of_notMem {step : Array UInt8 → Nat → Array UInt8}
    (overwrites : ∀ row index, ∃ value, step row index = setSample bits row index value)
    {indices : List Nat} (counts : ∀ index ∈ indices, index < sampleCount bits row) {other : Nat}
    (apart : other ∉ indices) :
    sampleAt bits (indices.foldl step row) other = sampleAt bits row other := by
  induction indices generalizing row with
  | nil => rfl
  | cons index rest ih =>
    obtain ⟨here, further⟩ := List.forall_mem_cons.mp counts
    obtain ⟨value, step_eq⟩ := overwrites row index
    have further' : ∀ index' ∈ rest, index' < sampleCount bits (setSample bits row index value) := by
      unfold sampleCount
      rwa [size_setSample]
    rw [List.foldl_cons, step_eq, ih further' fun listed => apart (List.mem_cons_of_mem _ listed)]
    refine sampleAt_setSample_apart narrow here value ?_
    intro same
    exact apart (same ▸ List.mem_cons_self)

/-- Rows of as many samples, all of which are the same. -/
theorem eq_of_sampleAt_eq {other : Array UInt8} (count : sampleCount bits other = sampleCount bits row)
    (same : ∀ index < sampleCount bits row, sampleAt bits other index = sampleAt bits row index) :
    other = row := by
  have filled := sampleCount_mul narrow row
  have filled' := sampleCount_mul narrow other
  have size : other.size = row.size := by
    rw [count] at filled'
    omega
  have length {some : Array UInt8} (size : some.size = row.size) :
      (highBitsOf some.toList).length ≤ sampleCount bits row * bits := by
    rw [length_highBitsOf, Array.length_toList, size, filled]
  refine eq_of_samples (isWidth_of_narrow narrow) (sampleCount bits row) size ?_ same ?_
  · rw [size, filled]
  · -- There are no bits behind the samples.
    rw [List.drop_eq_nil_of_le (length size), List.drop_eq_nil_of_le (length rfl)]

theorem isSampleArray (row : Array UInt8) : IsSampleArray bits row where
  read_same := by
    intro index counts value
    rw [sampleAt_setSample (isWidth_of_narrow narrow) row ((lt_sampleCount_iff narrow).mp counts),
      Nat.one_shiftLeft]
  read_other := by
    intro index counts value other apart
    exact sampleAt_setSample_apart narrow counts value apart
  size_eq := size_setSample bits row
  eq_of_same := by
    intro other count same
    exact eq_of_sampleAt_eq narrow count same
  read_masked := by
    intro counted index counts
    have inside := (lt_sampleCount_iff narrow).mp counts
    exact readSampleChecked_eq (isInside narrow (by omega)) counted
  write_masked := by
    intro counted index counts value
    have inside := (lt_sampleCount_iff narrow).mp counts
    exact writeSampleChecked_eq (isInside narrow (by omega)) counted value

end Narrow

/-! ## The sums -/

/-- What stands at an index and at all places whole strides before it sums up to the same of the place
one stride before, and what stands at the index. -/
theorem sum_strides {stride index : Nat} (positive : 0 < stride) (later : stride ≤ index)
    (item : Nat → Nat) :
    ∑ back ∈ Finset.range (index / stride + 1), item (index - back * stride)
      = item index + ∑ back ∈ Finset.range ((index - stride) / stride + 1),
          item (index - stride - back * stride) := by
  have steps : index / stride = (index - stride) / stride + 1 := by
    rw [← Nat.add_div_right _ positive, Nat.sub_add_cancel later]
  have before (back : Nat) : index - (back + 1) * stride = index - stride - back * stride := by
    rw [Nat.succ_mul, Nat.add_comm, Nat.sub_sub]
  rw [steps, Finset.sum_range_succ', Nat.zero_mul, Nat.sub_zero, Nat.add_comm]
  simp only [before]

section Sums

variable (layout : Layout) (row : Array UInt8)

/-- A component of a pixel is the sum of what was stored for it in this pixel and in all pixels to the
left. -/
theorem sampleAt_sumRow_eq_sum {index : Nat} (counts : index < layout.samples row) :
    sampleAt layout.bits (layout.sumRow row) index
      = (∑ back ∈ Finset.range (index / layout.colors + 1),
          sampleAt layout.bits row (index - back * layout.colors)) % 2 ^ layout.bits := by
  have positive := layout.colors_pos
  induction index using Nat.strongRecOn with
  | ind index ih =>
    rw [sampleAt_sumRow layout row counts, Nat.one_shiftLeft]
    by_cases later : layout.colors ≤ index
    · have left := ih (index - layout.colors) (by omega) (by omega)
      rw [if_pos later, left, Nat.add_mod_mod, sum_strides positive later]
    · have first : index / layout.colors = 0 := Nat.div_eq_of_lt (Nat.lt_of_not_le later)
      have small := sampleAt_lt layout.bits row index
      rw [Nat.one_shiftLeft] at small
      rw [if_neg later, first, Finset.sum_range_one, Nat.zero_mul, Nat.sub_zero, Nat.mod_eq_of_lt small]

/-- Samples that do not count are not touched. -/
theorem sampleAt_sumRow_of_le (narrow : layout.bits ∈ [1, 2, 4]) {index : Nat}
    (behind : layout.samples row ≤ index) :
    sampleAt layout.bits (layout.sumRow row) index = sampleAt layout.bits row index := by
  refine sampleAt_foldl_of_notMem narrow (fun _ _ => ⟨_, rfl⟩) ?_ ?_
  · intro follower listed
    exact Nat.lt_of_lt_of_le (layout.lt_samples row listed) (Nat.min_le_right _ _)
  · intro listed
    exact Nat.not_le.mpr (layout.lt_samples row listed) behind

end Sums

/-- A row of samples of one, two or four bits is an array of them. Restoring it from its differences
leaves in each sample that counts the sum of the samples of its component up to there, and leaves the
others as they are. -/
theorem isSampleArray_and_sums {bits : Nat} (narrow : bits ∈ [1, 2, 4]) (row : Array UInt8) :
    IsSampleArray bits row
      ∧ ∀ layout : Layout, layout.bits = bits → ∀ index,
        sampleAt bits (layout.sumRow row) index
          = if index < layout.samples row then
              (∑ back ∈ Finset.range (index / layout.colors + 1),
                sampleAt bits row (index - back * layout.colors)) % 2 ^ bits
            else sampleAt bits row index := by
  refine ⟨isSampleArray narrow row, ?_⟩
  rintro layout rfl index
  by_cases counts : index < layout.samples row
  · rw [if_pos counts]
    exact sampleAt_sumRow_eq_sum layout row counts
  · rw [if_neg counts]
    exact sampleAt_sumRow_of_le layout row narrow (Nat.le_of_not_lt counts)

/-- Two pixels of three samples, which leave half a byte over. The last sample that counts is 2, as is the
one of its component in the first pixel, and the one behind it is 1. -/
theorem isSampleArray_and_sums_shared :
    let row : Array UInt8 := #[0x1B, 0xE4]
    let layout : Layout := ⟨3, 2, 2, by decide, by decide, by decide, by decide, by decide⟩
    2 ∈ [1, 2, 4] ∧ IsSampleArray 2 row
      ∧ sampleAt 2 (layout.sumRow row) 5 = (2 + 2) % 2 ^ 2
      ∧ sampleAt 2 (layout.sumRow row) 6 = 1 := by
  intro row layout
  have narrow : 2 ∈ [1, 2, 4] := List.mem_cons_of_mem _ List.mem_cons_self
  obtain ⟨array, sums⟩ := isSampleArray_and_sums narrow row
  have last := sums layout rfl 5
  have behind := sums layout rfl 6
  rw [if_pos (by decide)] at last
  rw [if_neg (by decide)] at behind
  exact ⟨narrow, array, last.trans (by decide), behind.trans (by decide)⟩

end PdfFilters

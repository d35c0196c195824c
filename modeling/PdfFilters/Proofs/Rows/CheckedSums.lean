import PdfFilters.Proofs.Rows.Measures
import PdfFilters.Proofs.Rows.Tiff

/-!
# Running sums with machine words and slices

A machine adds up the samples of a row in place. It does so in bytes: whole bytes, pairs of bytes, or
fields inside a byte that it shifts and masks, each with a loop of its own. The checked loops have no
answer where a product does not fit into a word, where a byte would be shifted by eight bits or more, or
where a place is outside of the row (`Measures.sumRowChecked`).

A row that is so short that its bits can be counted in a word has an answer, whatever its layout says
about its width, and the answer is that of the running sums (`Layout.sumRowChecked_eq`).
-/

namespace PdfFilters

/-! ## Bytes -/

/-- Add to a byte the one `colors` bytes before it. -/
def addByteChecked (colors : Nat) (row : Array UInt8) (index : Nat) : Option (Array UInt8) := do
  let own ← row[index]?
  let left ← row[← minus? index colors]?
  put? row index (own + left)

theorem modify_eq_put {row : Array UInt8} {place : Nat} (inside : place < row.size)
    (change : UInt8 → UInt8) :
    row.modify place change = row.setIfInBounds place (change (row.getD place 0)) := by
  apply Array.ext
  · rw [Array.size_modify, Array.size_setIfInBounds]
  · intro other here _
    rw [Array.getElem_modify, Array.getElem_setIfInBounds]
    by_cases same : place = other
    · subst same
      rw [if_pos rfl, if_pos rfl, Array.getD_eq_getD_getElem?, Array.getElem?_eq_getElem inside,
        Option.getD_some]
    · rw [if_neg same, if_neg same]

theorem sampleShift_eight (index : Nat) : sampleShift 8 index = 0 := by
  unfold sampleShift
  omega

theorem sampleAt_eight (row : Array UInt8) (index : Nat) :
    sampleAt 8 row index = (row.getD index 0).toNat := by
  have narrow : ¬ 8 = 16 := by omega
  rw [sampleAt, if_neg narrow, sampleShift_eight, Nat.shiftRight_zero,
    Nat.mul_div_cancel _ (Nat.succ_pos 7)]
  exact Nat.mod_eq_of_lt (UInt8.toNat_lt _)

theorem setField_eight (byte : UInt8) (value : Nat) : setField 8 0 byte value = UInt8.ofNat value := by
  have nothing : byte.toNat >>> 8 = 0 := by
    rw [Nat.shiftRight_eq_div_pow]
    exact Nat.div_eq_of_lt byte.toNat_lt
  apply UInt8.toNat_inj.mp
  unfold setField
  dsimp only
  rw [Nat.zero_add, nothing, UInt8.toNat_ofNat', UInt8.toNat_ofNat']
  show ((0 <<< 8 + value % 256) <<< 0 + byte.toNat % 1) % 256 = value % 256
  rw [Nat.zero_shiftLeft, Nat.shiftLeft_zero]
  omega

theorem setSample_eight {row : Array UInt8} {index : Nat} (inside : index < row.size) (value : Nat) :
    setSample 8 row index value = row.setIfInBounds index (UInt8.ofNat value) := by
  have narrow : ¬ 8 = 16 := by omega
  rw [setSample, if_neg narrow, sampleShift_eight, Nat.mul_div_cancel _ (Nat.succ_pos 7),
    modify_eq_put inside, setField_eight]

theorem addByteChecked_eq {colors index : Nat} {row : Array UInt8} (later : colors ≤ index)
    (inside : index < row.size) :
    addByteChecked colors row index = some (addLeft 8 colors row index) := by
  have before : index - colors < row.size := by omega
  rw [addLeft, setSample_eight inside, sampleAt_eight, sampleAt_eight, UInt8.ofNat_add,
    UInt8.ofNat_toNat, UInt8.ofNat_toNat, addByteChecked, bind_of_eq_some (getElem?_eq_getD inside 0),
    bind_of_eq_some (minus?_eq later), bind_of_eq_some (getElem?_eq_getD before 0)]
  exact put?_eq inside _

/-! ## Pairs of bytes -/

/-- Two bytes as one number, the high one first. -/
def pairChecked (row : Array UInt8) (place : Nat) : Option Nat := do
  let high ← row[place]?
  let low ← row[← word? (place + 1)]?
  return high.toNat * 256 + low.toNat

/-- Add to a pair of bytes the one `colors` pairs before it. -/
def addPairChecked (colors : Nat) (row : Array UInt8) (index : Nat) : Option (Array UInt8) := do
  let before ← word? (2 * (← minus? index colors))
  let here ← word? (2 * index)
  let left ← pairChecked row before
  let own ← pairChecked row here
  let sum := (own + left) % 65536
  let behind ← word? (here + 2)
  let next ← put? row here (UInt8.ofNat (sum / 256))
  put? next (← minus? behind 1) (UInt8.ofNat sum)

theorem pairChecked_eq {row : Array UInt8} {index : Nat} (inside : 2 * index + 1 < row.size)
    (counted : row.size ≤ maxWord) : pairChecked row (2 * index) = some (sampleAt 16 row index) := by
  rw [sampleAt, if_pos rfl, pairChecked,
    bind_of_eq_some (getElem?_eq_getD (Nat.lt_of_succ_lt inside) 0),
    bind_of_eq_some (word?_eq (Nat.le_of_lt (Nat.lt_of_lt_of_le inside counted))),
    bind_of_eq_some (getElem?_eq_getD inside 0)]
  rfl

theorem addPairChecked_eq {colors index : Nat} {row : Array UInt8} (later : colors ≤ index)
    (inside : 2 * index + 1 < row.size) (counted : row.size ≤ maxWord) :
    addPairChecked colors row index = some (addLeft 16 colors row index) := by
  have before : 2 * (index - colors) + 1 < row.size := by omega
  have inside' : 2 * index + 1
      < (row.setIfInBounds (2 * index) (UInt8.ofNat
          ((sampleAt 16 row index + sampleAt 16 row (index - colors)) % 65536 / 256))).size := by
    rwa [Array.size_setIfInBounds]
  rw [addPairChecked, bind_of_eq_some (minus?_eq later), bind_of_eq_some (word?_eq (by omega)),
    bind_of_eq_some (word?_eq (by omega)), bind_of_eq_some (pairChecked_eq before counted),
    bind_of_eq_some (pairChecked_eq inside counted), bind_of_eq_some (word?_eq (by omega)),
    bind_of_eq_some (put?_eq (Nat.lt_of_succ_lt inside) _), bind_of_eq_some (minus?_eq (by omega)),
    Nat.add_succ_sub_one, put?_eq inside', addLeft, setSample, if_pos rfl]
  have high (sum : Nat) : UInt8.ofNat (sum % 65536 / 256) = UInt8.ofNat (sum / 256) := by
    apply UInt8.toNat_inj.mp
    rw [UInt8.toNat_ofNat', UInt8.toNat_ofNat']
    omega
  have low (sum : Nat) : UInt8.ofNat (sum % 65536) = UInt8.ofNat sum := by
    apply UInt8.toNat_inj.mp
    rw [UInt8.toNat_ofNat', UInt8.toNat_ofNat']
    omega
  rw [high, low]

/-! ## Fields in a byte -/

/-- The byte that has its lowest bits set, so many of them. -/
def lowBits (bits : Nat) : UInt8 := UInt8.ofNat ((1 <<< bits) - 1)

/-- The same byte, computed with shifts. -/
def lowBitsChecked (bits : Nat) : Option UInt8 := do
  let next ← shiftLeft? 1 bits
  return UInt8.ofNat (← minus? next.toNat 1)

theorem toNat_lowBits {bits : Nat} (few : bits < 8) : (lowBits bits).toNat = 2 ^ bits - 1 := by
  have small : 2 ^ bits ≤ 2 ^ 8 := Nat.pow_le_pow_right Nat.two_pos (Nat.le_of_lt few)
  rw [lowBits, UInt8.toNat_ofNat', Nat.one_shiftLeft]
  omega

theorem lowBitsChecked_eq {bits : Nat} (few : bits < 8) :
    lowBitsChecked bits = some (lowBits bits) := by
  have below : 2 ^ bits < 2 ^ 8 := Nat.pow_lt_pow_right Nat.one_lt_two few
  have next : (1 <<< UInt8.ofNat bits : UInt8).toNat = 1 <<< bits := by
    rw [toNat_shiftLeft few, UInt8.toNat_one, Nat.one_shiftLeft, Nat.mod_eq_of_lt below]
  have positive : 1 ≤ 1 <<< bits := by
    rw [Nat.one_shiftLeft]
    exact Nat.two_pow_pos bits
  rw [lowBitsChecked, bind_of_eq_some (shiftLeft?_eq few 1), next, bind_of_eq_some (minus?_eq positive)]
  rfl

theorem testBit_not (byte : UInt8) (place : Nat) :
    (~~~ byte).toNat.testBit place = (decide (place < 8) && !byte.toNat.testBit place) := by
  rw [UInt8.toNat_not, UInt8.size, Nat.sub_sub, Nat.add_comm 1]
  exact Nat.testBit_two_pow_sub_succ byte.toNat_lt place

/-- A field is overwritten by masking it out and masking the new one in. -/
theorem setField_eq {bits shift : Nat} (narrow : bits < 8) (few : shift < 8) (byte value : UInt8) :
    (byte &&& ~~~ (lowBits bits <<< UInt8.ofNat shift))
        ||| ((value <<< UInt8.ofNat shift) &&& (lowBits bits <<< UInt8.ofNat shift))
      = setField bits shift byte value.toNat := by
  have below : byte.toNat % (1 <<< shift) < 2 ^ shift := by
    rw [Nat.one_shiftLeft]
    exact Nat.mod_lt _ (Nat.two_pow_pos shift)
  have field : value.toNat % (1 <<< bits) < 2 ^ bits := by
    rw [Nat.one_shiftLeft]
    exact Nat.mod_lt _ (Nat.two_pow_pos bits)
  apply UInt8.toNat_inj.mp
  unfold setField
  dsimp only
  rw [UInt8.toNat_ofNat', Nat.shiftLeft_add_eq_or_of_lt below, Nat.shiftLeft_add_eq_or_of_lt field,
    Nat.one_shiftLeft, Nat.one_shiftLeft]
  apply Nat.eq_of_testBit_eq
  intro place
  simp only [UInt8.toNat_or, UInt8.toNat_and, toNat_shiftLeft few, toNat_lowBits narrow,
    Nat.testBit_or, Nat.testBit_and, testBit_not, Nat.testBit_mod_two_pow, Nat.testBit_shiftLeft,
    Nat.testBit_shiftRight, Nat.testBit_two_pow_sub_one]
  by_cases inByte : place < 8
  · by_cases above : shift + bits ≤ place
    · have apart : ¬ place - shift < bits ∧ ¬ place < shift ∧ shift ≤ place ∧ bits ≤ place - shift := by
        omega
      have same : shift + bits + (place - shift - bits) = place := by omega
      simp [inByte, apart, same]
    · by_cases among : shift ≤ place
      · have inside : place - shift < bits ∧ ¬ place < shift ∧ ¬ bits ≤ place - shift := by omega
        simp [inByte, among, inside]
      · have under : place < shift := by omega
        simp [inByte, among, under]
  · have nothing : byte.toNat < 2 ^ place :=
      Nat.lt_of_lt_of_le byte.toNat_lt (Nat.pow_le_pow_right Nat.two_pos (by omega))
    simp [inByte, Nat.testBit_lt_two_pow nothing]

/-- The byte of a sample, and how far the sample lies above the low end of it. -/
def placeChecked (bits index : Nat) : Option (Nat × Nat) := do
  let offset ← word? (index * bits)
  let shift ← minus? (← minus? 8 bits) (offset % 8)
  return (offset / 8, shift)

/-- Read a field of a byte. -/
def readSampleChecked (bits : Nat) (row : Array UInt8) (index : Nat) : Option UInt8 := do
  let (place, shift) ← placeChecked bits index
  let byte ← row[place]?
  return (← shiftRight? byte shift) &&& (← lowBitsChecked bits)

/-- Overwrite a field of a byte. -/
def writeSampleChecked (bits : Nat) (row : Array UInt8) (index : Nat) (value : UInt8) :
    Option (Array UInt8) := do
  let (place, shift) ← placeChecked bits index
  let mask ← shiftLeft? (← lowBitsChecked bits) shift
  let byte ← row[place]?
  put? row place ((byte &&& ~~~ mask) ||| ((← shiftLeft? value shift) &&& mask))

/-- Add to a field the one `colors` fields before it. -/
def addFieldChecked (bits colors : Nat) (mask : UInt8) (row : Array UInt8) (index : Nat) :
    Option (Array UInt8) := do
  let left ← readSampleChecked bits row (← minus? index colors)
  let own ← readSampleChecked bits row index
  writeSampleChecked bits row index ((own + left) &&& mask)

/-- A sample of fewer than eight bits lies inside of one byte. -/
structure IsInside (bits size index : Nat) : Prop where
  few : bits < 8
  positive : 0 < bits
  dvd : 2 ^ bits ∣ 256
  fits : index * bits % 8 + bits ≤ 8
  place_lt : index * bits / 8 < size

theorem isInside {bits : Nat} (narrow : bits ∈ [1, 2, 4]) {size index : Nat}
    (inside : (index + 1) * bits ≤ size * 8) : IsInside bits size index := by
  simp only [List.mem_cons, List.not_mem_nil, or_false] at narrow
  rcases narrow with rfl | rfl | rfl
  · exact ⟨by omega, by omega, ⟨128, rfl⟩, by omega, by omega⟩
  · exact ⟨by omega, by omega, ⟨64, rfl⟩, by omega, by omega⟩
  · exact ⟨by omega, by omega, ⟨16, rfl⟩, by omega, by omega⟩

theorem IsInside.shift_lt {bits size index : Nat} (inside : IsInside bits size index) :
    sampleShift bits index < 8 := by
  have := inside.positive
  unfold sampleShift
  omega

theorem IsInside.ne_sixteen {bits size index : Nat} (inside : IsInside bits size index) :
    ¬ bits = 16 := by
  have := inside.few
  omega

section Field

variable {bits index : Nat} {row : Array UInt8} (inside : IsInside bits row.size index)
  (counted : row.size * 8 ≤ maxWord)

include inside counted

theorem placeChecked_eq :
    placeChecked bits index = some (index * bits / 8, sampleShift bits index) := by
  obtain ⟨few, -, -, fits, place_lt⟩ := inside
  rw [placeChecked, bind_of_eq_some (word?_eq (by omega)),
    bind_of_eq_some (minus?_eq (Nat.le_of_lt few)), bind_of_eq_some (minus?_eq (by omega))]
  rfl

theorem readSampleChecked_eq :
    ∃ value, readSampleChecked bits row index = some value ∧ value.toNat = sampleAt bits row index := by
  have few := inside.shift_lt
  rw [readSampleChecked, bind_of_eq_some (placeChecked_eq inside counted)]
  dsimp only
  rw [bind_of_eq_some (getElem?_eq_getD inside.place_lt 0), bind_of_eq_some (shiftRight?_eq few _),
    bind_of_eq_some (lowBitsChecked_eq inside.few)]
  refine ⟨_, rfl, ?_⟩
  rw [UInt8.toNat_and, toNat_shiftRight few, toNat_lowBits inside.few, Nat.and_two_pow_sub_one_eq_mod,
    sampleAt, if_neg inside.ne_sixteen, Nat.one_shiftLeft]

theorem writeSampleChecked_eq (value : UInt8) :
    writeSampleChecked bits row index value = some (setSample bits row index value.toNat) := by
  have few := inside.shift_lt
  rw [writeSampleChecked, bind_of_eq_some (placeChecked_eq inside counted)]
  dsimp only
  rw [bind_of_eq_some (lowBitsChecked_eq inside.few), bind_of_eq_some (shiftLeft?_eq few _),
    bind_of_eq_some (getElem?_eq_getD inside.place_lt 0), bind_of_eq_some (shiftLeft?_eq few _),
    setField_eq inside.few few, put?_eq inside.place_lt, setSample, if_neg inside.ne_sixteen,
    modify_eq_put inside.place_lt]

end Field

theorem setSample_congr {bits : Nat} (row : Array UInt8) (index : Nat) {first second : Nat}
    (narrow : ¬ bits = 16) (same : first % (1 <<< bits) = second % (1 <<< bits)) :
    setSample bits row index first = setSample bits row index second := by
  unfold setSample setField
  rw [if_neg narrow, if_neg narrow, same]

theorem addFieldChecked_eq {bits colors index : Nat} {row : Array UInt8} (later : colors ≤ index)
    (width : bits ∈ [1, 2, 4]) (inside : (index + 1) * bits ≤ row.size * 8)
    (counted : row.size * 8 ≤ maxWord) :
    addFieldChecked bits colors (lowBits bits) row index = some (addLeft bits colors row index) := by
  have before : (index - colors + 1) * bits ≤ row.size * 8 :=
    Nat.le_trans (Nat.mul_le_mul_right bits (by omega)) inside
  have here := isInside width inside
  obtain ⟨left, readLeft, left_eq⟩ := readSampleChecked_eq (isInside width before) counted
  obtain ⟨own, readOwn, own_eq⟩ := readSampleChecked_eq here counted
  rw [addFieldChecked, bind_of_eq_some (minus?_eq later), bind_of_eq_some readLeft,
    bind_of_eq_some readOwn, writeSampleChecked_eq here counted, addLeft, ← own_eq, ← left_eq]
  congr 1
  apply setSample_congr row index here.ne_sixteen
  rw [UInt8.toNat_and, UInt8.toNat_add, toNat_lowBits here.few, Nat.and_two_pow_sub_one_eq_mod,
    Nat.one_shiftLeft, Nat.mod_mod, Nat.mod_mod_of_dvd _ here.dvd]

/-! ## A row -/

/-- Add up bytes in place. -/
def sumBytesChecked (colors : Nat) (row : Array UInt8) : Option (Array UInt8) :=
  (List.range' colors (row.size - colors)).foldlM (addByteChecked colors) row

/-- Add up pairs of bytes in place. -/
def sumPairsChecked (colors : Nat) (row : Array UInt8) : Option (Array UInt8) := do
  let samples ← quotient? row.size 2
  (List.range' colors (samples - colors)).foldlM (addPairChecked colors) row

/-- Add up fields in place, as many as there are and as are declared. -/
def Measures.sumFieldsChecked (measures : Measures) (row : Array UInt8) : Option (Array UInt8) := do
  let declared ← word? (measures.columns * measures.colors)
  let present ← quotient? (← word? (row.size * 8)) measures.bits
  let samples := min declared present
  let mask ← lowBitsChecked measures.bits
  (List.range' measures.colors (samples - measures.colors)).foldlM
    (addFieldChecked measures.bits measures.colors mask) row

/-- Add up the samples of a row in place. -/
def Measures.sumRowChecked (measures : Measures) (row : Array UInt8) : Option (Array UInt8) :=
  if measures.bits = 8 then sumBytesChecked measures.colors row
  else if measures.bits = 16 then sumPairsChecked measures.colors row
  else measures.sumFieldsChecked row

namespace Layout

variable (layout : Layout) {row : Array UInt8}

/-- A loop over the samples with a pixel on their left adds up the row, if each step does its part. -/
theorem foldlM_followers {checked : Array UInt8 → Nat → Option (Array UInt8)}
    (step_eq : ∀ state : Array UInt8, state.size = row.size → ∀ index ∈ layout.followers row,
      checked state index = some (addLeft layout.bits layout.colors state index)) :
    (layout.followers row).foldlM checked row = some (layout.sumRow row) := by
  have keeps : ∀ state : Array UInt8, state.size = row.size → ∀ index ∈ layout.followers row,
      checked state index = some (addLeft layout.bits layout.colors state index)
        ∧ (addLeft layout.bits layout.colors state index).size = row.size := by
    intro state size index listed
    refine ⟨step_eq state size index listed, ?_⟩
    rw [addLeft, size_setSample, size]
  exact foldlM_eq_foldl keeps rfl

/-- A sample with a pixel on its left is behind a pixel, and inside of the row. -/
theorem bounds_of_mem_followers {index : Nat} (listed : index ∈ layout.followers row) :
    layout.colors ≤ index ∧ (index + 1) * layout.bits ≤ row.size * 8 := by
  obtain ⟨later, -⟩ := List.mem_range'_1.mp listed
  have inside := Nat.mul_le_mul_right layout.bits (layout.lt_samples row listed)
  refine ⟨later, Nat.le_trans inside ?_⟩
  rw [Nat.mul_comm row.size]
  exact layout.samples_inside row

theorem followers_eq {samples : Nat} (same : layout.samples row = samples) :
    layout.followers row = List.range' layout.colors (samples - layout.colors) := by
  rw [followers, same]

theorem columns_mul_colors_le : layout.columns * layout.colors ≤ maxWord := by
  have least : layout.columns * layout.colors ≤ layout.columns * (layout.colors * layout.bits) :=
    Nat.mul_le_mul_left _ (Nat.le_mul_of_pos_right _ layout.bits_pos)
  exact Nat.le_trans least layout.rowBits_le

theorem sumBytesChecked_eq (bytes : layout.bits = 8) (narrow : row.size ≤ layout.rowBytes) :
    sumBytesChecked layout.colors row = some (layout.sumRow row) := by
  have samples : layout.samples row = row.size := by
    rw [rowBytes, bytes, ← Nat.mul_assoc] at narrow
    rw [Layout.samples, sampleCount, bytes]
    omega
  rw [sumBytesChecked, ← layout.followers_eq samples]
  apply layout.foldlM_followers
  intro state size index listed
  obtain ⟨later, inside⟩ := layout.bounds_of_mem_followers listed
  rw [bytes] at inside ⊢
  exact addByteChecked_eq later (by omega)

theorem sumPairsChecked_eq (pairs : layout.bits = 16) (narrow : row.size ≤ layout.rowBytes)
    (counted : row.size ≤ maxWord) :
    sumPairsChecked layout.colors row = some (layout.sumRow row) := by
  have samples : layout.samples row = row.size / 2 := by
    rw [rowBytes, pairs, ← Nat.mul_assoc] at narrow
    rw [Layout.samples, sampleCount, pairs]
    omega
  rw [sumPairsChecked, bind_of_eq_some (quotient?_eq Nat.two_pos _), ← layout.followers_eq samples]
  apply layout.foldlM_followers
  intro state size index listed
  obtain ⟨later, inside⟩ := layout.bounds_of_mem_followers listed
  rw [pairs] at inside ⊢
  exact addPairChecked_eq later (by omega) (by omega)

theorem sumFieldsChecked_eq (narrow : layout.bits ∈ [1, 2, 4]) (counted : row.size * 8 ≤ maxWord) :
    layout.measures.sumFieldsChecked row = some (layout.sumRow row) := by
  have few : layout.bits < 8 := by
    simp only [List.mem_cons, List.not_mem_nil, or_false] at narrow
    omega
  rw [Measures.sumFieldsChecked, measures]
  dsimp only
  rw [bind_of_eq_some (word?_eq layout.columns_mul_colors_le), bind_of_eq_some (word?_eq counted),
    bind_of_eq_some (quotient?_eq layout.bits_pos _), bind_of_eq_some (lowBitsChecked_eq few)]
  apply layout.foldlM_followers
  intro state size index listed
  obtain ⟨later, inside⟩ := layout.bounds_of_mem_followers listed
  rw [← size] at inside counted
  exact addFieldChecked_eq later narrow inside counted

/-- A row that is no wider than its layout says is added up with words and slices, as long as its bits
can be counted. -/
theorem sumRowChecked_eq (narrow : row.size ≤ layout.rowBytes) (counted : row.size * 8 ≤ maxWord) :
    layout.measures.sumRowChecked row = some (layout.sumRow row) := by
  rw [Measures.sumRowChecked, measures]
  dsimp only
  split
  next bytes => exact layout.sumBytesChecked_eq bytes narrow
  next other =>
    split
    next pairs => exact layout.sumPairsChecked_eq pairs narrow (by omega)
    next other' =>
      have width := layout.bits_mem
      simp only [List.mem_cons, List.not_mem_nil, or_false] at width
      have fields : layout.bits ∈ [1, 2, 4] := by
        simp only [List.mem_cons, List.not_mem_nil, or_false]
        omega
      exact layout.sumFieldsChecked_eq fields counted

end Layout

end PdfFilters

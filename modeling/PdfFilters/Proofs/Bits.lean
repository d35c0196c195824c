import PdfFilters.Deflate.Bits

/-!
# Numbers and their bits

A number of fixed width and the list of its bits determine each other: `numberOf` reads back what
`field` writes, up to the bits beyond the width (`numberOf_field`), and `field` writes any list of
bits again (`field_numberOf`). Bits that stand one after another are the digits of one number
(`field_add`, `numberOf_append`).

Numbers may also be written highest bit first (`codeWord`), and `highNumberOf` reads those
(`codeWord_highNumberOf`). So are the bits of bytes in most formats (`highBitsOf`), and they tell what
the bytes are (`highBitsOf_inj`).
-/

namespace PdfFilters

theorem field_zero (value : Nat) : field 0 value = [] := rfl

/-- The lowest bit comes first, then those of half the number. -/
theorem field_succ (width value : Nat) :
    field (width + 1) value = value.testBit 0 :: field width (value / 2) := by
  simp only [field, List.range_succ_eq_map, List.map_cons, List.map_map, List.cons.injEq, true_and]
  apply List.map_congr_left
  intro index _
  exact Nat.testBit_add_one value index

@[simp] theorem length_field (width value : Nat) : (field width value).length = width := by
  simp [field]

/-- A field is the field of the low bits and that of the rest. -/
theorem field_add (low high value : Nat) :
    field (low + high) value = field low value ++ field high (value >>> low) := by
  induction low generalizing value with
  | zero => simp [field_zero]
  | succ low ih =>
    rw [Nat.succ_add, field_succ, field_succ, ih, Nat.shiftRight_succ_inside]
    rfl

/-- Bits beyond the width are not written. -/
theorem field_mod (width value : Nat) : field width (value % (1 <<< width)) = field width value := by
  simp only [field, Nat.one_shiftLeft]
  apply List.map_congr_left
  intro index h
  simp [Nat.testBit_mod_two_pow, List.mem_range.mp h]

theorem numberOf_lt (bits : List Bool) : numberOf bits < 1 <<< bits.length := by
  rw [Nat.one_shiftLeft]
  induction bits with
  | nil => simp [numberOf]
  | cons bit rest ih =>
    rw [numberOf, List.length_cons, Nat.pow_succ]
    have := bit.toNat_le
    omega

/-- Reading a field gives the number back, as far as it fits. -/
theorem numberOf_field (width value : Nat) :
    numberOf (field width value) = value % (1 <<< width) := by
  rw [Nat.one_shiftLeft]
  induction width generalizing value with
  | zero => simp [field_zero, numberOf, Nat.mod_one]
  | succ width ih =>
    rw [field_succ, numberOf, ih, Nat.toNat_testBit, Nat.pow_zero, Nat.div_one, Nat.pow_succ',
      Nat.mod_mul]

theorem numberOf_field_of_lt {width value : Nat} (fits : value < 1 <<< width) :
    numberOf (field width value) = value := by
  rw [numberOf_field, Nat.mod_eq_of_lt fits]

/-- Writing the number of some bits gives them back. -/
theorem field_numberOf (bits : List Bool) : field bits.length (numberOf bits) = bits := by
  induction bits with
  | nil => rfl
  | cons bit rest ih =>
    have half : (bit.toNat + 2 * numberOf rest) / 2 = numberOf rest := by
      have := bit.toNat_le
      omega
    have lowest : (bit.toNat + 2 * numberOf rest).testBit 0 = bit := by
      cases bit <;> simp [Nat.testBit_zero]
    rw [List.length_cons, field_succ, numberOf, half, lowest, ih]

/-- Bits that follow others count for more by as many places. -/
theorem numberOf_append (low high : List Bool) :
    numberOf (low ++ high) = numberOf low + numberOf high <<< low.length := by
  induction low with
  | nil => simp [numberOf]
  | cons bit rest ih =>
    rw [List.cons_append, numberOf, numberOf, ih, List.length_cons, Nat.shiftLeft_succ]
    omega

@[simp] theorem length_codeWord (width value : Nat) : (codeWord width value).length = width := by
  simp [codeWord]

/-- A word is the word of the high bits and that of the rest. -/
theorem codeWord_add (high low value : Nat) :
    codeWord (low + high) value = codeWord high (value >>> low) ++ codeWord low value := by
  rw [codeWord, field_add, List.reverse_append]
  rfl

theorem codeWord_mod (width value : Nat) :
    codeWord width (value % (1 <<< width)) = codeWord width value := by
  rw [codeWord, field_mod]
  rfl

/-- The number whose bits, highest first, these are. -/
def highNumberOf (bits : List Bool) : Nat := numberOf bits.reverse

theorem highNumberOf_codeWord (width value : Nat) :
    highNumberOf (codeWord width value) = value % (1 <<< width) := by
  rw [highNumberOf, codeWord, List.reverse_reverse, numberOf_field]

theorem highNumberOf_lt (bits : List Bool) : highNumberOf bits < 1 <<< bits.length := by
  have small := numberOf_lt bits.reverse
  rwa [List.length_reverse] at small

/-- Writing the number of some bits gives them back. -/
theorem codeWord_highNumberOf (bits : List Bool) : codeWord bits.length (highNumberOf bits) = bits := by
  rw [codeWord, highNumberOf, ← List.length_reverse, field_numberOf, List.reverse_reverse]

/-- The number of a field that stands above another one. -/
theorem codeWord_shiftLeft_add (high low above below : Nat) :
    codeWord (low + high) (above <<< low + below % (1 <<< low))
      = codeWord high above ++ codeWord low below := by
  have small : below % (1 <<< low) < 2 ^ low := by
    rw [Nat.one_shiftLeft]
    exact Nat.mod_lt _ (Nat.two_pow_pos low)
  have top : (above <<< low + below % (1 <<< low)) >>> low = above := by
    rw [Nat.shiftRight_eq_div_pow, Nat.shiftLeft_eq, Nat.mul_comm,
      Nat.mul_add_div (Nat.two_pow_pos low), Nat.div_eq_of_lt small, Nat.add_zero]
  have bottom : (above <<< low + below % (1 <<< low)) % (1 <<< low) = below % (1 <<< low) := by
    rw [Nat.one_shiftLeft, Nat.shiftLeft_eq, Nat.mul_comm, Nat.mul_add_mod, Nat.mod_mod]
  rw [codeWord_add, top, ← codeWord_mod low, bottom, codeWord_mod]

/-- The bits of some bytes, the highest of each byte first. -/
def highBitsOf (bytes : List UInt8) : List Bool :=
  bytes.flatMap fun byte => codeWord 8 byte.toNat

theorem highBitsOf_append (first second : List UInt8) :
    highBitsOf (first ++ second) = highBitsOf first ++ highBitsOf second :=
  List.flatMap_append

theorem highBitsOf_cons (byte : UInt8) (rest : List UInt8) :
    highBitsOf (byte :: rest) = codeWord 8 byte.toNat ++ highBitsOf rest :=
  List.flatMap_cons

theorem length_highBitsOf (bytes : List UInt8) : (highBitsOf bytes).length = 8 * bytes.length := by
  induction bytes with
  | nil => rfl
  | cons byte rest ih =>
    rw [highBitsOf_cons, List.length_append, length_codeWord, ih, List.length_cons]
    omega

/-- The bits of the first bytes are the first bits. -/
theorem highBitsOf_take (bytes : List UInt8) (count : Nat) :
    highBitsOf (bytes.take count) = (highBitsOf bytes).take (8 * count) := by
  by_cases short : bytes.length ≤ count
  · have few : (highBitsOf bytes).length ≤ 8 * count := by
      rw [length_highBitsOf]
      omega
    rw [List.take_of_length_le short, List.take_of_length_le few]
  · have length : (highBitsOf (bytes.take count)).length = 8 * count := by
      rw [length_highBitsOf, List.length_take]
      omega
    have both := highBitsOf_append (bytes.take count) (bytes.drop count)
    rw [List.take_append_drop] at both
    rw [both, List.take_left' length]

/-- The bits of some bytes tell what the bytes are. -/
theorem highBitsOf_inj {first second : List UInt8} (same : highBitsOf first = highBitsOf second) :
    first = second := by
  induction first generalizing second with
  | nil =>
    have length := congrArg List.length same
    rw [length_highBitsOf, length_highBitsOf, List.length_nil] at length
    exact (List.length_eq_zero_iff.mp (by omega)).symm
  | cons byte rest ih =>
    cases second with
    | nil =>
      have length := congrArg List.length same
      rw [length_highBitsOf, length_highBitsOf, List.length_cons, List.length_nil] at length
      omega
    | cons byte' rest' =>
      rw [highBitsOf_cons, highBitsOf_cons] at same
      obtain ⟨bits, further⟩ := List.append_inj same (by rw [length_codeWord, length_codeWord])
      have number := congrArg highNumberOf bits
      rw [highNumberOf_codeWord, highNumberOf_codeWord, Nat.one_shiftLeft,
        Nat.mod_eq_of_lt byte.toNat_lt, Nat.mod_eq_of_lt byte'.toNat_lt] at number
      rw [UInt8.toNat_inj.mp number, ih further]

end PdfFilters

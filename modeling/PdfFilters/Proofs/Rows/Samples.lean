import PdfFilters.Proofs.Bits
import PdfFilters.Rows.Tiff

/-!
# Samples are fields in the bits of a row

Seen as a list of bits, the highest of each byte first, a row is its samples one after another, and
this is how `sampleOf` reads them: it knows nothing of bytes. Reading a sample in its byte or bytes
comes to the same (`sampleAt_eq`), and overwriting one replaces its bits and no others (`isField`).

Hence samples behave like the entries of an array: what is written is read again
(`sampleAt_setSample`), the other samples stay (`sampleAt_setSample_of_ne`), and so do the bits behind
them (`drop_setSample`). A row is known by its samples and the bits behind them (`eq_of_samples`).
-/

namespace PdfFilters

/-- The sample at an index, read from the bits of the row. -/
def sampleOf (bits : Nat) (row : List UInt8) (index : Nat) : Nat :=
  highNumberOf (((highBitsOf row).drop (index * bits)).take bits)

/-- The widths that a sample may have. -/
def IsWidth (bits : Nat) : Prop := bits ∈ [1, 2, 4, 8, 16]

theorem exists_eq_append_cons {α : Type} (items : List α) {place : Nat}
    (inside : place < items.length) :
    ∃ before item after, items = before ++ item :: after ∧ before.length = place := by
  refine ⟨items.take place, items[place], items.drop (place + 1), ?_, ?_⟩
  · rw [List.getElem_cons_drop, List.take_append_drop]
  · rw [List.length_take, Nat.min_eq_left (Nat.le_of_lt inside)]

/-! ## One byte -/

/-- The bits of a byte around a field. -/
theorem codeWord_byte {high bits shift : Nat} (whole : shift + (bits + high) = 8) (byte : Nat) :
    codeWord 8 byte
      = codeWord high (byte >>> (shift + bits)) ++ codeWord bits (byte >>> shift)
        ++ codeWord shift byte := by
  rw [← whole, codeWord_add, codeWord_add, Nat.shiftRight_add]

/-- Overwriting a field replaces its bits. -/
theorem codeWord_setField {high bits shift : Nat} (whole : shift + (bits + high) = 8) (byte : UInt8)
    (value : Nat) :
    codeWord 8 (setField bits shift byte value).toNat
      = codeWord high (byte.toNat >>> (shift + bits)) ++ codeWord bits value
        ++ codeWord shift byte.toNat := by
  unfold setField
  dsimp only
  rw [UInt8.toNat_ofNat', show 2 ^ 8 = 1 <<< 8 from rfl, codeWord_mod, ← whole,
    codeWord_shiftLeft_add, codeWord_shiftLeft_add]

/-! ## One sample -/

/-- What reading and overwriting a sample has to do with the bits of its row: there are bits before
it, bits behind it, and its own, which are the ones that are read and the ones that are replaced. -/
def IsField (bits : Nat) (row : Array UInt8) (index : Nat) : Prop :=
  ∃ before behind, before.length = index * bits
    ∧ highBitsOf row.toList = before ++ codeWord bits (sampleAt bits row index) ++ behind
    ∧ ∀ value, highBitsOf (setSample bits row index value).toList
        = before ++ codeWord bits value ++ behind

/-- A sample of at most eight bits is a field in one byte. -/
theorem isField_of_le {bits : Nat} (width : IsWidth bits) (narrow : bits ≠ 16) (row : Array UInt8)
    {index : Nat} (inside : (index + 1) * bits ≤ 8 * row.size) : IsField bits row index := by
  have aligned : index * bits % 8 + bits ≤ 8 ∧ index * bits / 8 < row.size := by
    simp only [IsWidth, List.mem_cons, List.not_mem_nil, or_false] at width
    rcases width with rfl | rfl | rfl | rfl | rfl <;> omega
  obtain ⟨fits, here⟩ := aligned
  obtain ⟨row⟩ := row
  obtain ⟨first, byte, last, rfl, length⟩ := exists_eq_append_cons row here
  have whole : sampleShift bits index + (bits + index * bits % 8) = 8 := by
    unfold sampleShift
    omega
  have read : sampleAt bits (first ++ byte :: last).toArray index
      = byte.toNat >>> sampleShift bits index % (1 <<< bits) := by
    unfold sampleAt
    rw [if_neg narrow, ← length]
    simp
  have written (value : Nat) : (setSample bits (first ++ byte :: last).toArray index value).toList
      = first ++ setField bits (sampleShift bits index) byte value :: last := by
    unfold setSample
    rw [if_neg narrow, ← length, Array.toList_modify, List.modify_eq_take_cons_drop (by simp)]
    simp
  refine ⟨highBitsOf first
      ++ codeWord (index * bits % 8) (byte.toNat >>> (sampleShift bits index + bits)),
    codeWord (sampleShift bits index) byte.toNat ++ highBitsOf last, ?_, ?_, ?_⟩
  · rw [List.length_append, length_highBitsOf, length_codeWord, length]
    omega
  · rw [read, codeWord_mod, highBitsOf_append, highBitsOf_cons, codeWord_byte whole]
    simp only [List.append_assoc]
  · intro value
    rw [written, highBitsOf_append, highBitsOf_cons, codeWord_setField whole]
    simp only [List.append_assoc]

/-- A sample of sixteen bits is two bytes, the high one first. -/
theorem isField_sixteen (row : Array UInt8) {index : Nat}
    (inside : (index + 1) * 16 ≤ 8 * row.size) : IsField 16 row index := by
  obtain ⟨row⟩ := row
  have here : 2 * index < row.length := by
    have size : (Array.mk row).size = row.length := rfl
    omega
  obtain ⟨first, high, last, rfl, length⟩ := exists_eq_append_cons row here
  obtain ⟨low, last, rfl⟩ : ∃ low further, last = low :: further := by
    cases last with
    | nil =>
      simp at inside
      omega
    | cons low further => exact ⟨low, further, rfl⟩
  have read : sampleAt 16 (first ++ high :: low :: last).toArray index
      = high.toNat <<< 8 + low.toNat := by
    unfold sampleAt
    rw [if_pos rfl, ← length]
    simp [Nat.shiftLeft_eq]
  have written (value : Nat) : (setSample 16 (first ++ high :: low :: last).toArray index value).toList
      = first ++ UInt8.ofNat (value / 256) :: UInt8.ofNat value :: last := by
    unfold setSample
    rw [if_pos rfl, ← length]
    simp
  refine ⟨highBitsOf first, highBitsOf last, ?_, ?_, ?_⟩
  · rw [length_highBitsOf, length]
    omega
  · have low_mod : low.toNat = low.toNat % (1 <<< 8) := (Nat.mod_eq_of_lt low.toNat_lt).symm
    rw [read, low_mod, codeWord_shiftLeft_add 8 8, highBitsOf_append, highBitsOf_cons, highBitsOf_cons]
    simp only [List.append_assoc]
  · intro value
    have bytes : codeWord 16 value
        = codeWord 8 (UInt8.ofNat (value / 256)).toNat ++ codeWord 8 (UInt8.ofNat value).toNat := by
      rw [UInt8.toNat_ofNat', UInt8.toNat_ofNat', show 2 ^ 8 = 1 <<< 8 from rfl, codeWord_mod,
        codeWord_mod, codeWord_add 8 8, Nat.shiftRight_eq_div_pow]
    rw [written, bytes, highBitsOf_append, highBitsOf_cons, highBitsOf_cons]
    simp only [List.append_assoc]

theorem isField {bits : Nat} (width : IsWidth bits) (row : Array UInt8) {index : Nat}
    (inside : (index + 1) * bits ≤ 8 * row.size) : IsField bits row index := by
  by_cases sixteen : bits = 16
  · subst sixteen
    exact isField_sixteen row inside
  · exact isField_of_le width sixteen row inside

/-! ## Rows as arrays of samples -/

theorem sampleAt_lt (bits : Nat) (row : Array UInt8) (index : Nat) :
    sampleAt bits row index < 1 <<< bits := by
  unfold sampleAt
  split
  next sixteen =>
    have := (row.getD (2 * index) 0).toNat_lt
    have := (row.getD (2 * index + 1) 0).toNat_lt
    rw [sixteen]
    show _ < 65536
    omega
  next => exact Nat.mod_lt _ (by rw [Nat.one_shiftLeft]; exact Nat.two_pow_pos bits)

@[simp] theorem size_setSample (bits : Nat) (row : Array UInt8) (index value : Nat) :
    (setSample bits row index value).size = row.size := by
  unfold setSample
  split <;> simp

/-- Bits that are not in a field do not change with it. -/
theorem slice_congr {before first second : List Bool} (behind : List Bool)
    (same : first.length = second.length) {start count : Nat}
    (apart : start + count ≤ before.length ∨ before.length + first.length ≤ start) :
    ((before ++ first ++ behind).drop start).take count
      = ((before ++ second ++ behind).drop start).take count := by
  rcases apart with left | right
  · rw [List.append_assoc, List.append_assoc, List.drop_append_of_le_length (by omega),
      List.drop_append_of_le_length (by omega),
      List.take_append_of_le_length (by rw [List.length_drop]; omega),
      List.take_append_of_le_length (by rw [List.length_drop]; omega)]
  · obtain ⟨further, rfl⟩ := Nat.exists_eq_add_of_le right
    rw [← List.length_append, List.drop_length_add_append, List.length_append, same,
      ← List.length_append, List.drop_length_add_append]

section

variable {bits : Nat} (width : IsWidth bits) (row : Array UInt8) {index : Nat}
  (inside : (index + 1) * bits ≤ 8 * row.size)

include width inside

/-- The bits of a sample are those of its number. -/
theorem take_drop_highBitsOf :
    ((highBitsOf row.toList).drop (index * bits)).take bits
      = codeWord bits (sampleAt bits row index) := by
  obtain ⟨before, behind, length, read, _⟩ := isField width row inside
  rw [read, List.append_assoc, List.drop_left' length, List.take_left' (length_codeWord _ _)]

/-- Reading a sample in its bytes is reading it in the bits of the row. -/
theorem sampleAt_eq : sampleAt bits row index = sampleOf bits row.toList index := by
  unfold sampleOf
  rw [take_drop_highBitsOf width row inside, highNumberOf_codeWord,
    Nat.mod_eq_of_lt (sampleAt_lt bits row index)]

/-- A sample that was written is read again, as far as it fits. -/
theorem sampleAt_setSample (value : Nat) :
    sampleAt bits (setSample bits row index value) index = value % (1 <<< bits) := by
  obtain ⟨before, behind, length, _, written⟩ := isField width row inside
  have inside' : (index + 1) * bits ≤ 8 * (setSample bits row index value).size := by
    rwa [size_setSample]
  rw [sampleAt_eq width _ inside', sampleOf, written, List.append_assoc, List.drop_left' length,
    List.take_left' (length_codeWord _ _), highNumberOf_codeWord]

/-- The other samples stay. -/
theorem sampleAt_setSample_of_ne (value : Nat) {other : Nat}
    (inside' : (other + 1) * bits ≤ 8 * row.size) (apart : other ≠ index) :
    sampleAt bits (setSample bits row index value) other = sampleAt bits row other := by
  obtain ⟨before, behind, length, read, written⟩ := isField width row inside
  have sides : other * bits + bits ≤ before.length
      ∨ before.length + (codeWord bits value).length ≤ other * bits := by
    rw [length, length_codeWord, ← Nat.succ_mul, ← Nat.succ_mul]
    rcases Nat.lt_or_gt_of_ne apart with less | more
    · exact .inl (Nat.mul_le_mul_right bits less)
    · exact .inr (Nat.mul_le_mul_right bits more)
  have same : (codeWord bits value).length = (codeWord bits (sampleAt bits row index)).length := by
    rw [length_codeWord, length_codeWord]
  rw [sampleAt_eq width _ (by rwa [size_setSample]), sampleAt_eq width row inside', sampleOf, sampleOf,
    written, read, slice_congr behind same sides]

/-- The bits behind a sample stay. -/
theorem drop_setSample (value : Nat) {start : Nat} (later : (index + 1) * bits ≤ start) :
    (highBitsOf (setSample bits row index value).toList).drop start
      = (highBitsOf row.toList).drop start := by
  obtain ⟨before, behind, length, read, written⟩ := isField width row inside
  have total (number : Nat) :
      (before ++ codeWord bits number).length = (index + 1) * bits := by
    rw [List.length_append, length_codeWord, length, ← Nat.succ_mul]
  obtain ⟨further, rfl⟩ := Nat.exists_eq_add_of_le later
  rw [written, read, ← total value, List.drop_length_add_append, total value,
    ← total (sampleAt bits row index), List.drop_length_add_append]

end

/-- A row is known by its samples and the bits behind them. -/
theorem eq_of_samples {bits : Nat} (width : IsWidth bits) (count : Nat) {first second : Array UInt8}
    (size : first.size = second.size) (inside : count * bits ≤ 8 * first.size)
    (samples : ∀ index < count, sampleAt bits first index = sampleAt bits second index)
    (behind : (highBitsOf first.toList).drop (count * bits)
      = (highBitsOf second.toList).drop (count * bits)) : first = second := by
  have upTo (some : Nat) (few : some ≤ count) : (highBitsOf first.toList).take (some * bits)
      = (highBitsOf second.toList).take (some * bits) := by
    induction some with
    | zero => rw [Nat.zero_mul, List.take_zero, List.take_zero]
    | succ some ih =>
      have inside' : (some + 1) * bits ≤ 8 * first.size :=
        Nat.le_trans (Nat.mul_le_mul_right bits few) inside
      rw [Nat.succ_mul, List.take_add, List.take_add, ih (Nat.le_of_lt few),
        take_drop_highBitsOf width first inside', take_drop_highBitsOf width second (size ▸ inside'),
        samples some few]
  apply Array.toList_inj.mp
  apply highBitsOf_inj
  rw [← List.take_append_drop (count * bits) (highBitsOf first.toList), upTo count (Nat.le_refl _),
    behind, List.take_append_drop]

end PdfFilters

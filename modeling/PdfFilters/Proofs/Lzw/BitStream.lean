import Mathlib.Algebra.Order.Ring.Nat
import PdfFilters.Proofs.Lzw.Checked
import PdfFilters.Proofs.Words

/-!
# A queue of bits is faithful to the bytes that go through it

A `BitReader` works its way through a byte string: it loads its queue from a block of the bytes that are
left, however they are cut, or takes a code of some width, in any order.

No call loses a bit, repeats one, or puts one in another place. After any calls, the codes that have been
taken, written in their widths, then the bits in the queue, and then those of the bytes that are left are
the bits of the byte string (`BitReader.Keeps`; one call `Keeps.after`, many `Keeps.foldl_after`). So the
codes are the fields that lie next to one another from the first bit on. A machine with a word of 32 bits,
a count in a byte and a mask for each width comes to the same (`Keeps.afterChecked_eq`).
-/

namespace PdfFilters

/-- The width of a code. -/
structure CodeWidth where
  bits : Nat
  nine_le : 9 ≤ bits
  le_twelve : bits ≤ 12

/-- A call of a reader. -/
inductive ReaderCall where
  /-- Load from the next block, of this size or as many bytes as are left. -/
  | load (size : Nat)
  | take (width : CodeWidth)

/-- The numbers of the fields of these widths that lie next to one another from the first bit on. -/
def fieldsOf : List Nat → List Bool → List Nat
  | [], _ => []
  | width :: widths, bits => highNumberOf (bits.take width) :: fieldsOf widths (bits.drop width)

/-- A queue in the middle of a byte string. -/
structure BitReader where
  queue : BitQueue
  /-- The bytes that have not been loaded. -/
  rest : List UInt8
  /-- The codes that have been taken, each with the width that was asked for. -/
  codes : List (CodeWidth × Nat)

namespace BitReader

/-- A reader that has not been called yet. -/
def start (bytes : List UInt8) : BitReader := ⟨.empty, bytes, []⟩

/-- The reader once its queue has been loaded from a block of this size. What the queue has left of the
block stays in front of the bytes behind it. -/
def loaded (reader : BitReader) (size : Nat) (load : BitQueue × List UInt8) : BitReader :=
  { reader with queue := load.1, rest := load.2 ++ reader.rest.drop size }

/-- The reader once it has asked its queue for a code. -/
def asked (reader : BitReader) (width : CodeWidth) : Option (Nat × BitQueue) → BitReader
  | none => reader
  | some (code, queue) => { reader with queue, codes := reader.codes ++ [(width, code)] }

/-- The reader that a call leaves behind. -/
def after (reader : BitReader) : ReaderCall → BitReader
  | .load size => reader.loaded size (reader.queue.load (reader.rest.take size))
  | .take width => reader.asked width (reader.queue.take? width.bits)

/-- The reader that a call leaves behind in a machine, if the machine can do it. -/
def afterChecked (limit : Nat) (reader : BitReader) : ReaderCall → Option BitReader
  | .load size => (reader.queue.loadChecked (reader.rest.take size)).map (reader.loaded size)
  | .take width => (reader.queue.takeChecked limit width.bits).map (reader.asked width)

/-- The codes that have been taken, as the bits that they were. -/
def takenBits (reader : BitReader) : List Bool :=
  reader.codes.flatMap fun (width, code) => codeWord width.bits code

/-- The widths of the codes that have been taken. -/
def widths (reader : BitReader) : List Nat := reader.codes.map (·.1.bits)

/-- What always holds of a reader that has begun with these bytes. -/
structure Keeps (bytes : List UInt8) (reader : BitReader) : Prop where
  tidy : reader.queue.IsTidy
  count_le : reader.queue.count ≤ 24
  /-- No code is too large for its width. -/
  fits : ∀ taken ∈ reader.codes, taken.2 < 1 <<< taken.1.bits
  /-- No bit has been lost, and none has come from elsewhere. -/
  bits_eq : reader.takenBits ++ reader.queue.bits ++ highBitsOf reader.rest = highBitsOf bytes
  taken_eq : reader.queue.taken = reader.widths.sum
  /-- What is left are the last bytes. -/
  rest_eq : ∃ consumed ≤ bytes.length, reader.rest = bytes.drop consumed

theorem keeps_start (bytes : List UInt8) : (start bytes).Keeps bytes where
  tidy := BitQueue.isTidy_empty
  count_le := Nat.zero_le 24
  fits := List.forall_mem_nil _
  bits_eq := rfl
  taken_eq := rfl
  rest_eq := ⟨0, Nat.zero_le _, rfl⟩

end BitReader

/-- What a queue leaves of a block are the last bytes of it. -/
theorem BitQueue.exists_drop_of_load (queue : BitQueue) (block : List UInt8) :
    ∃ loaded ≤ block.length, (queue.load block).2 = block.drop loaded := by
  induction block generalizing queue with
  | nil => exact ⟨0, Nat.le_refl 0, rfl⟩
  | cons byte rest ih =>
    rw [load]
    split
    next room =>
      obtain ⟨loaded, few, left⟩ := ih (queue.push byte)
      exact ⟨loaded + 1, Nat.succ_le_succ few, left⟩
    next => exact ⟨0, Nat.zero_le _, rfl⟩

namespace BitReader

theorem takenBits_concat (reader : BitReader) (width : CodeWidth) (code : Nat) (queue : BitQueue) :
    (reader.asked width (some (code, queue))).takenBits
      = reader.takenBits ++ codeWord width.bits code := by
  show (reader.codes ++ [(width, code)]).flatMap _ = _
  rw [List.flatMap_append, List.flatMap_singleton]
  rfl

theorem sum_widths_concat (reader : BitReader) (width : CodeWidth) (code : Nat) (queue : BitQueue) :
    (reader.asked width (some (code, queue))).widths.sum = reader.widths.sum + width.bits := by
  show ((reader.codes ++ [(width, code)]).map (·.1.bits)).sum = _
  rw [List.map_append, List.sum_append, List.map_singleton, List.sum_singleton]
  rfl

theorem length_flatMap_codeWord (codes : List (CodeWidth × Nat)) :
    (codes.flatMap fun (width, code) => codeWord width.bits code).length
      = (codes.map (·.1.bits)).sum := by
  induction codes with
  | nil => rfl
  | cons taken rest ih =>
    rw [List.flatMap_cons, List.length_append, ih, length_codeWord, List.map_cons, List.sum_cons]

/-- Codes are the fields of the bits that they were, whatever comes behind these. -/
theorem fieldsOf_codes {codes : List (CodeWidth × Nat)}
    (fits : ∀ taken ∈ codes, taken.2 < 1 <<< taken.1.bits) (behind : List Bool) :
    fieldsOf (codes.map (·.1.bits))
        ((codes.flatMap fun (width, code) => codeWord width.bits code) ++ behind)
      = codes.map (·.2) := by
  induction codes with
  | nil => rfl
  | cons taken rest ih =>
    obtain ⟨small, fits⟩ := List.forall_mem_cons.mp fits
    have length := length_codeWord taken.1.bits taken.2
    rw [List.map_cons, List.map_cons, List.flatMap_cons, fieldsOf, List.append_assoc,
      List.take_left' length, List.drop_left' length, highNumberOf_codeWord, Nat.mod_eq_of_lt small,
      ih fits]

variable {bytes : List UInt8} {reader : BitReader}

/-- Loading moves bits from the bytes into the queue. -/
theorem Keeps.load (keeps : reader.Keeps bytes) (size : Nat) :
    (reader.after (.load size)).Keeps bytes := by
  obtain ⟨tidy, low, fits, bits_eq, taken_eq, consumed, few, rest_eq⟩ := keeps
  obtain ⟨tidy', bits, taken, -⟩ := BitQueue.bits_load tidy (reader.rest.take size)
  refine ⟨tidy', BitQueue.count_load_le low _, fits, ?_, taken.trans taken_eq, ?_⟩
  · show reader.takenBits ++ (reader.queue.load (reader.rest.take size)).1.bits
      ++ highBitsOf ((reader.queue.load (reader.rest.take size)).2 ++ reader.rest.drop size) = _
    rw [highBitsOf_append, List.append_assoc, ← List.append_assoc _ (highBitsOf _) (highBitsOf _), bits,
      List.append_assoc, ← highBitsOf_append, List.take_append_drop, ← List.append_assoc, bits_eq]
  · obtain ⟨loaded, inside, left⟩ := reader.queue.exists_drop_of_load (reader.rest.take size)
    have whole : (reader.queue.load (reader.rest.take size)).2 ++ reader.rest.drop size
        = reader.rest.drop loaded := by
      rw [left, ← List.drop_append_of_le_length inside, List.take_append_drop]
    refine ⟨consumed + loaded, ?_, ?_⟩
    · rw [List.length_take, rest_eq, List.length_drop] at inside
      omega
    · show (reader.queue.load (reader.rest.take size)).2 ++ reader.rest.drop size = _
      rw [whole, rest_eq, List.drop_drop]

/-- Taking a code moves bits from the queue to the codes, or nothing if there are not enough of them. -/
theorem Keeps.take (keeps : reader.Keeps bytes) (width : CodeWidth) :
    (reader.after (.take width)).Keeps bytes := by
  rcases Nat.lt_or_ge reader.queue.bits.length width.bits with short | long
  · rw [after, BitQueue.take?_eq_none short]
    exact keeps
  · obtain ⟨tidy, low, fits, bits_eq, taken_eq, rest_eq⟩ := keeps
    obtain ⟨next, took, tidy', bits, taken⟩ := BitQueue.take?_eq_some tidy long
    have count := BitQueue.count_of_take? took
    have length : (reader.queue.bits.take width.bits).length = width.bits := by
      rw [List.length_take, Nat.min_eq_left long]
    have word := codeWord_highNumberOf (reader.queue.bits.take width.bits)
    rw [length] at word
    rw [after, took]
    refine ⟨tidy', ?_, ?_, ?_, ?_, rest_eq⟩
    · show next.count ≤ 24
      omega
    · intro earlier listed
      rcases List.mem_append.mp listed with before | last
      · exact fits earlier before
      · rw [List.mem_singleton.mp last]
        have small := highNumberOf_lt (reader.queue.bits.take width.bits)
        rwa [length] at small
    · rw [takenBits_concat, word]
      show reader.takenBits ++ reader.queue.bits.take width.bits ++ next.bits ++ highBitsOf reader.rest
        = _
      rw [bits, List.append_assoc reader.takenBits, List.take_append_drop, bits_eq]
    · show next.taken = _
      rw [sum_widths_concat, taken, taken_eq]

theorem Keeps.after (keeps : reader.Keeps bytes) (call : ReaderCall) :
    (reader.after call).Keeps bytes := by
  cases call with
  | load size => exact keeps.load size
  | take width => exact keeps.take width

theorem Keeps.foldl_after (keeps : reader.Keeps bytes) (calls : List ReaderCall) :
    (calls.foldl BitReader.after reader).Keeps bytes := by
  induction calls generalizing reader with
  | nil => exact keeps
  | cons call rest ih => exact ih (keeps.after call)

/-- Every bit has been taken, or is in the queue, or in the bytes that are left. -/
theorem Keeps.counted (keeps : reader.Keeps bytes) :
    reader.queue.taken + reader.queue.count + 8 * reader.rest.length = 8 * bytes.length := by
  have total := congrArg List.length keeps.bits_eq
  rw [List.length_append, List.length_append, length_highBitsOf, length_highBitsOf,
    BitQueue.length_bits, takenBits, length_flatMap_codeWord] at total
  rw [keeps.taken_eq]
  exact total

/-- A machine does the same, as long as it can count the bits. -/
theorem Keeps.afterChecked_eq (keeps : reader.Keeps bytes) {limit : Nat}
    (counted : 8 * bytes.length < limit) (call : ReaderCall) :
    reader.afterChecked limit call = some (reader.after call) := by
  cases call with
  | load size =>
    rw [afterChecked, BitQueue.loadChecked_eq keeps.tidy]
    rfl
  | take width =>
    have total := keeps.counted
    rw [afterChecked, BitQueue.takeChecked_eq keeps.tidy keeps.count_le width.nine_le width.le_twelve
      (by omega)]
    rfl

/-- Right behind a load, a code is missing just in case the queue and the block have too few bits for it.
Then nothing is left of the block. -/
theorem Keeps.load_take?_eq_none_iff (keeps : reader.Keeps bytes) (block : List UInt8)
    (width : CodeWidth) :
    ((reader.queue.load block).1.take? width.bits = none
        ↔ reader.queue.count + 8 * block.length < width.bits)
      ∧ ((reader.queue.load block).1.take? width.bits = none → (reader.queue.load block).2 = []) := by
  have moved := BitQueue.load_count reader.queue block
  obtain ⟨tidy, -⟩ := BitQueue.bits_load keeps.tidy block
  have narrow := width.le_twelve
  rcases Nat.lt_or_ge (reader.queue.load block).1.bits.length width.bits with short | long
  · rw [BitQueue.take?_eq_none short]
    rw [BitQueue.length_bits] at short
    have used : (reader.queue.load block).2 = [] := BitQueue.load_eq_nil keeps.tidy (by omega)
    rw [used, List.length_nil] at moved
    exact ⟨⟨fun _ => by omega, fun _ => rfl⟩, fun _ => used⟩
  · obtain ⟨left, took, -⟩ := BitQueue.take?_eq_some tidy long
    rw [BitQueue.length_bits] at long
    rw [took]
    refine ⟨⟨?_, ?_⟩, ?_⟩
    · intro missing
      cases missing
    · intro few
      omega
    · intro missing
      cases missing

/-- However a byte string is cut into blocks, and whenever codes of whatever widths are asked for, the
codes are the fields of its bits from the first one on. The codes, the queue and the bytes that are left
make up all bits at any time, and the queue counts the bits that have been taken. Right behind a load, a
code is only missing if the queue and the block have too few bits for it, and then the block has been used
up. A machine comes to the same as long as its counter holds all bits. -/
theorem faithful (bytes : List UInt8) (calls : List ReaderCall) :
    let reader := calls.foldl after (start bytes)
    reader.codes.map (·.2) = fieldsOf reader.widths (highBitsOf bytes)
      ∧ reader.takenBits ++ reader.queue.bits ++ highBitsOf reader.rest = highBitsOf bytes
      ∧ reader.queue.taken = reader.widths.sum
      ∧ (∃ consumed ≤ bytes.length, reader.rest = bytes.drop consumed
        ∧ reader.queue.count + reader.queue.taken = 8 * consumed)
      ∧ (∀ (size : Nat) (width : CodeWidth),
        let block := reader.rest.take size
        ((reader.queue.load block).1.take? width.bits = none
            ↔ reader.queue.count + 8 * block.length < width.bits)
          ∧ ((reader.queue.load block).1.take? width.bits = none → (reader.queue.load block).2 = []))
      ∧ ∀ limit, 8 * bytes.length < limit →
        calls.foldlM (afterChecked limit) (start bytes) = some reader := by
  intro reader
  have keeps : reader.Keeps bytes := (keeps_start bytes).foldl_after calls
  obtain ⟨consumed, few, rest_eq⟩ := keeps.rest_eq
  refine ⟨?_, keeps.bits_eq, keeps.taken_eq, ⟨consumed, few, rest_eq, ?_⟩, ?_, ?_⟩
  · rw [← keeps.bits_eq, List.append_assoc]
    exact (fieldsOf_codes keeps.fits _).symm
  · have total := keeps.counted
    rw [rest_eq, List.length_drop] at total
    omega
  · intro size width
    exact keeps.load_take?_eq_none_iff (reader.rest.take size) width
  · intro limit counted
    refine foldlM_eq_foldl ?_ (keeps_start bytes)
    intro state kept call _
    exact ⟨kept.afterChecked_eq counted call, kept.after call⟩

/-- A block of one byte is too short for a code. After the next one there are codes of two widths, and
the bits that are left are fewer than a third code has. -/
theorem faithful_mixed :
    let twelve : CodeWidth := ⟨12, by omega, by omega⟩
    let nine : CodeWidth := ⟨9, by omega, by omega⟩
    let reader := [.load 1, .take twelve, .load 2, .take twelve, .take nine, .take nine].foldl after
      (start [0xAB, 0xCD, 0xEF, 0x80])
    reader.widths = [12, 9] ∧ reader.codes.map (·.2) = [0xABC, 0x1BD]
      ∧ reader.takenBits ++ reader.queue.bits ++ highBitsOf reader.rest
        = highBitsOf [0xAB, 0xCD, 0xEF, 0x80]
      ∧ reader.queue.taken = 21 := by
  intro twelve nine reader
  have widths : reader.widths = [12, 9] := by decide +kernel
  obtain ⟨codes, bits, taken, -⟩ := faithful [0xAB, 0xCD, 0xEF, 0x80]
    [.load 1, .take twelve, .load 2, .take twelve, .take nine, .take nine]
  refine ⟨widths, ?_, bits, ?_⟩
  · rw [codes, widths]
    decide +kernel
  · rw [taken, widths]
    rfl

end BitReader

end PdfFilters

import PdfFilters.Lzw.BitQueue
import PdfFilters.Proofs.Bits

/-!
# The queue of bits is a list of bits

A `BitQueue` is a number and a count, and stands for a list of bits (`BitQueue.bits`). Loading moves
bits from the bytes to the end of that list and loses none (`bits_load`); taking a code takes the
bits at its front (`take?_eq_none`, `take?_eq_some`). As long as the number has no bits beyond the
count (`IsTidy`), nothing but this list and the count of bits taken makes up the queue.
-/

namespace PdfFilters

namespace BitQueue

/-- The bits in the queue, the next one to be taken first. -/
def bits (queue : BitQueue) : List Bool := codeWord queue.count queue.value

/-- The number has no bits beyond those that are counted. -/
def IsTidy (queue : BitQueue) : Prop := queue.value < 1 <<< queue.count

@[simp] theorem length_bits (queue : BitQueue) : queue.bits.length = queue.count := by
  simp [bits]

theorem isTidy_empty : empty.IsTidy := by
  show 0 < 1 <<< 0
  decide

/-- The bits and the count of bits taken are all there is to a queue. -/
theorem eq_of_bits_eq {first second : BitQueue} (h : first.IsTidy) (h' : second.IsTidy)
    (bits : first.bits = second.bits) (taken : first.taken = second.taken) : first = second := by
  obtain ⟨value, count, total⟩ := first
  obtain ⟨value', count', total'⟩ := second
  have counts : count = count' := by
    have := congrArg List.length bits
    rwa [length_bits, length_bits] at this
  subst counts
  have values : value = value' := by
    have := congrArg highNumberOf bits
    rwa [BitQueue.bits, BitQueue.bits, highNumberOf_codeWord, highNumberOf_codeWord,
      Nat.mod_eq_of_lt h, Nat.mod_eq_of_lt h'] at this
  subst values
  have totals : total = total' := taken
  rw [totals]

theorem shiftRight_push (value : Nat) (byte : UInt8) :
    (value * 256 + byte.toNat) >>> 8 = value := by
  have := byte.toNat_lt
  rw [Nat.shiftRight_eq_div_pow]
  omega

theorem bits_push (queue : BitQueue) (byte : UInt8) :
    (queue.push byte).bits = queue.bits ++ codeWord 8 byte.toNat := by
  show codeWord (queue.count + 8) (queue.value * 256 + byte.toNat) = _
  rw [Nat.add_comm queue.count 8, codeWord_add, shiftRight_push,
    ← codeWord_mod 8 (queue.value * 256 + byte.toNat)]
  have low : (queue.value * 256 + byte.toNat) % (1 <<< 8) = byte.toNat := by
    have := byte.toNat_lt
    simp only [Nat.one_shiftLeft]
    omega
  rw [low]
  rfl

theorem isTidy_push {queue : BitQueue} (tidy : queue.IsTidy) (byte : UInt8) :
    (queue.push byte).IsTidy := by
  have := byte.toNat_lt
  show queue.value * 256 + byte.toNat < 1 <<< (queue.count + 8)
  rw [IsTidy, Nat.one_shiftLeft] at tidy
  rw [Nat.one_shiftLeft, Nat.pow_add]
  omega

/-- Loading keeps all bits in their order, and the register tidy. It stops for want of bytes or
because the register is full. -/
theorem bits_load {queue : BitQueue} (tidy : queue.IsTidy) (bytes : List UInt8) :
    (queue.load bytes).1.IsTidy
      ∧ (queue.load bytes).1.bits ++ highBitsOf (queue.load bytes).2
        = queue.bits ++ highBitsOf bytes
      ∧ (queue.load bytes).1.taken = queue.taken
      ∧ ((queue.load bytes).2 = [] ∨ 16 < (queue.load bytes).1.count) := by
  induction bytes generalizing queue with
  | nil => exact ⟨tidy, rfl, rfl, .inl rfl⟩
  | cons byte rest ih =>
    rw [load]
    by_cases room : queue.count ≤ 16
    · -- The byte goes from the front of the bytes to the end of the queue.
      rw [if_pos room]
      obtain ⟨tidy', bits, taken, full⟩ := ih (isTidy_push tidy byte)
      refine ⟨tidy', ?_, taken, full⟩
      rw [bits, bits_push, List.append_assoc]
      rfl
    · rw [if_neg room]
      exact ⟨tidy, rfl, rfl, .inr (Nat.lt_of_not_le room)⟩

/-- A register with room for one more byte stops loading only when there are no bytes. -/
theorem load_eq_nil {queue : BitQueue} (tidy : queue.IsTidy) {bytes : List UInt8}
    (room : (queue.load bytes).1.count ≤ 16) : (queue.load bytes).2 = [] :=
  (bits_load tidy bytes).2.2.2.resolve_right (Nat.not_lt.mpr room)

theorem take?_eq_none {queue : BitQueue} {width : Nat} (short : queue.bits.length < width) :
    queue.take? width = none := by
  rw [length_bits] at short
  rw [take?, if_pos short]

/-- A code is the number of the first bits, and the others stay. -/
theorem take?_eq_some {queue : BitQueue} (tidy : queue.IsTidy) {width : Nat}
    (long : width ≤ queue.bits.length) :
    ∃ next : BitQueue,
      queue.take? width = some (highNumberOf (queue.bits.take width), next)
      ∧ next.IsTidy ∧ next.bits = queue.bits.drop width ∧ next.taken = queue.taken + width := by
  obtain ⟨value, count, total⟩ := queue
  rw [length_bits] at long
  -- The highest bits are the code, so the number splits at what is left below them.
  obtain ⟨left, rfl⟩ : ∃ left, count = left + width := ⟨count - width, by simp only at long; omega⟩
  have split : codeWord (left + width) value
      = codeWord width (value >>> left) ++ codeWord left value := codeWord_add width left value
  have fits : value >>> left < 1 <<< width := by
    simp only [IsTidy, Nat.one_shiftLeft, Nat.pow_add] at tidy
    rw [Nat.shiftRight_eq_div_pow, Nat.one_shiftLeft]
    exact Nat.div_lt_of_lt_mul tidy
  refine ⟨⟨value % (1 <<< left), left, total + width⟩, ?_, ?_, ?_, rfl⟩
  · rw [take?, if_neg (by simp only; omega)]
    simp only [Nat.add_sub_cancel, bits, split]
    rw [List.take_left' (length_codeWord _ _), highNumberOf_codeWord, Nat.mod_eq_of_lt fits]
  · exact Nat.mod_lt _ (by rw [Nat.one_shiftLeft]; exact Nat.two_pow_pos left)
  · simp only [bits, split, List.drop_left' (length_codeWord _ _), codeWord_mod]

/-- Loading and taking a code leaves fewer bits. -/
theorem load_take?_shortens {queue left : BitQueue} {bytes : List UInt8} {width code : Nat}
    (took : (queue.load bytes).1.take? width = some (code, left)) (positive : 0 < width) :
    left.count + 8 * (queue.load bytes).2.length < queue.count + 8 * bytes.length := by
  have moved := load_count queue bytes
  have count := count_of_take? took
  omega

end BitQueue

end PdfFilters

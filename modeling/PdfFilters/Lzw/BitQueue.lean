/-!
# A queue of bits

Bytes go in at the low end of a small register and codes of any width come out at its high end,
so the bits of a byte are taken highest first. The register is loaded greedily while it holds at
most 16 bits, hence never holds more than 24. A code is taken only when all its bits are there.
-/

namespace PdfFilters

/-- Bits that have been loaded and not taken yet. -/
structure BitQueue where
  /-- The bits as a number, the next one to be taken highest. -/
  value : Nat := 0
  /-- How many bits there are. -/
  count : Nat := 0
  /-- How many bits have been taken. -/
  taken : Nat := 0
  deriving DecidableEq

namespace BitQueue

/-- No bits at all. -/
def empty : BitQueue := {}

/-- The queue with the bits of a byte at its end. -/
def push (queue : BitQueue) (byte : UInt8) : BitQueue :=
  { queue with value := queue.value * 256 + byte.toNat, count := queue.count + 8 }

/-- Load bytes while the register has room for one more. The rest of the bytes is left over. -/
def load (queue : BitQueue) : List UInt8 → BitQueue × List UInt8
  | [] => (queue, [])
  | byte :: rest => if queue.count ≤ 16 then (queue.push byte).load rest else (queue, byte :: rest)

/-- Take a code of this width, if all its bits are there. -/
def take? (queue : BitQueue) (width : Nat) : Option (Nat × BitQueue) :=
  if queue.count < width then none
  else
    let left := queue.count - width
    some (queue.value >>> left,
      { value := queue.value % (1 <<< left), count := left, taken := queue.taken + width })

/-- Loading only moves bits from the bytes into the queue. -/
theorem load_count (queue : BitQueue) (bytes : List UInt8) :
    (queue.load bytes).1.count + 8 * (queue.load bytes).2.length
      = queue.count + 8 * bytes.length := by
  induction bytes generalizing queue with
  | nil => rfl
  | cons byte rest ih =>
    unfold load
    split
    · rw [ih]
      simp only [push, List.length_cons]
      omega
    · rfl

/-- Taking a code makes the queue shorter by its width. -/
theorem count_of_take? {queue next : BitQueue} {width code : Nat}
    (h : queue.take? width = some (code, next)) : next.count + width = queue.count := by
  unfold take? at h
  split at h
  · contradiction
  · simp only [Option.some.injEq, Prod.mk.injEq] at h
    obtain ⟨_, rfl⟩ := h
    simp only
    omega

end BitQueue

end PdfFilters

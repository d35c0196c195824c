import PdfFilters.Deflate.Block

/-!
# Compressing, byte by byte

`Deflate` is a machine that takes data one byte at a time (`Deflate.push`) and puts a compressed
stream out: a header of two bytes, blocks, and a checksum. Data wait until there are enough of them
for a block and one byte more, so that the last block, which has to be marked, is never empty unless
there are no data at all (`Deflate.close`). Blocks end anywhere in a byte, and the bits that do not
fill one wait for those of the next block.

So what has been put out depends on the data only, and not on how they came.
-/

namespace PdfFilters

/-- The header of a stream: the method, and a hint at the level. -/
def streamHeader (level : Nat) : List UInt8 :=
  [0x78, if level ≤ 1 then 0x01 else if level ≤ 5 then 0x5E else if level = 6 then 0x9C else 0xDA]

/-- How many bytes a block covers that is not the last one. -/
def blockSize : Nat := 32768

/-- The machine between two bytes. -/
structure Deflate where
  level : Nat
  /-- The header, until it goes in front of the first output. -/
  head : List UInt8
  /-- Bits of the last block that do not fill a byte. -/
  tail : List Bool
  /-- Data that are not in a block yet. -/
  pending : Array UInt8
  /-- The checksum of all data so far. -/
  sum : Adler

namespace Deflate

/-- Before the first byte. -/
def start (level : Nat) : Deflate := ⟨level, streamHeader level, [], #[], {}⟩

/-- Take a byte. If there are enough data for a block without it, they become one. -/
def push (machine : Deflate) (byte : UInt8) : Deflate × List UInt8 :=
  match machine with
  | ⟨level, head, tail, pending, sum⟩ =>
    let sum := sum.add byte
    if pending.size < blockSize then (⟨level, head, tail, pending.push byte, sum⟩, [])
    else
      let bits := tail ++ block level tail.length false pending
      let whole := bits.length / 8 * 8
      (⟨level, [], bits.drop whole, #[byte], sum⟩, head ++ packBits (bits.take whole))

/-- The rest of the stream: the last block, and the checksum from the border of a byte on. -/
def close (machine : Deflate) : List UInt8 :=
  match machine with
  | ⟨level, head, tail, pending, sum⟩ =>
    head ++ packBits (tail ++ block level tail.length true pending) ++ sum.encoded

/-- Take bytes until something is put out, and tell which ones are left. -/
def advance (machine : Deflate) : List UInt8 → Deflate × List UInt8 × List UInt8
  | [] => (machine, [], [])
  | byte :: rest =>
    match machine.push byte with
    | (next, []) => next.advance rest
    | (next, first :: more) => (next, first :: more, rest)

/-- Take all of some bytes. -/
def feed (machine : Deflate) : List UInt8 → Deflate × List UInt8
  | [] => (machine, [])
  | byte :: rest =>
    let (next, bytes) := machine.push byte
    let (last, more) := next.feed rest
    (last, bytes ++ more)

/-- Advancing goes on to the end of the bytes, or stops on the way. -/
theorem exists_of_advance (machine : Deflate) (bytes : List UInt8) :
    ∃ taken, bytes = taken ++ (machine.advance bytes).2.2 ∧ (taken = [] → bytes = []) := by
  cases bytes with
  | nil => exact ⟨[], rfl, id⟩
  | cons byte rest =>
    rw [advance]
    rcases machine.push byte with ⟨next, _ | ⟨first, more⟩⟩
    · obtain ⟨taken, eq, _⟩ := exists_of_advance next rest
      exact ⟨byte :: taken, congrArg (List.cons byte) eq, nofun⟩
    · exact ⟨[byte], rfl, nofun⟩

/-- Taking bytes is advancing, and then taking those that are left. -/
theorem feed_eq_advance (machine : Deflate) (bytes : List UInt8) :
    machine.feed bytes
      = (((machine.advance bytes).1.feed (machine.advance bytes).2.2).1,
        (machine.advance bytes).2.1
          ++ ((machine.advance bytes).1.feed (machine.advance bytes).2.2).2) := by
  induction bytes generalizing machine with
  | nil => rfl
  | cons byte rest ih =>
    rw [feed, advance]
    rcases machine.push byte with ⟨next, _ | ⟨first, more⟩⟩
    · exact ih next
    · rfl

/-- How the data come makes no difference. -/
theorem feed_append (machine : Deflate) (first second : List UInt8) :
    machine.feed (first ++ second)
      = (((machine.feed first).1.feed second).1,
        (machine.feed first).2 ++ ((machine.feed first).1.feed second).2) := by
  induction first generalizing machine with
  | nil => rfl
  | cons byte rest ih =>
    rw [List.cons_append, feed, feed]
    simp only [ih, List.append_assoc]

end Deflate

/-- The compressed stream of some data. Level 0 stores them; all other levels compress. -/
def compress (level : Nat) (data : Array UInt8) : List UInt8 :=
  let (machine, bytes) := (Deflate.start level).feed data.toList
  bytes ++ machine.close

end PdfFilters

import PdfFilters.Deflate.Compress
import PdfFilters.Proofs.Deflate.Blocks

/-!
# Inflating undoes compressing

Whatever the level, the machine that reads comes to the end of a compressed stream and has put out
the data then (`Inflate.feed_compress`). It follows the machine that writes, byte by byte of the data:
it stands at the start of a block then, and has put out all but the data that still wait
(`Deflate.Wrote`). At the end it reads them as the last block, and then the checksum.
-/

namespace PdfFilters

namespace Inflate

theorem headerIsGood_streamHeader (level : Nat) :
    headerIsGood (numberOf (bitsOf (streamHeader level))) := by
  rw [streamHeader]
  split
  · decide
  · split
    · decide
    · split <;> decide

theorem pushBits_streamHeader (level : Nat) :
    start.pushBits (bitsOf (streamHeader level))
      = readNumber ⟨.bad, false, 16, #[]⟩ .blockStart 3 := by
  have pushed := pushBits_readNumber ⟨.bad, false, 0, #[]⟩ .header (Nat.succ_pos 15)
    (length_bitsOf (streamHeader level))
  rw [takeNumber, if_pos (headerIsGood_streamHeader level)] at pushed
  exact pushed

variable (lastBlock : Bool) (taken : Nat) (output : Array UInt8)

theorem pushBits_checksumGap :
    (readChecksum ⟨.bad, lastBlock, taken, output⟩).pushBits (List.replicate (padding taken) false)
      = readNumber ⟨.bad, lastBlock, taken + padding taken, output⟩ .checksum 32 := by
  rw [readChecksum]
  have left : gap ⟨.bad, lastBlock, taken, output⟩ = padding taken := rfl
  rw [left]
  split
  next none =>
    rw [none]
    rfl
  next some =>
    exact pushBits_readNumber ⟨.bad, lastBlock, taken, output⟩ .checksumGap (Nat.pos_of_ne_zero some)
      List.length_replicate

theorem pushBits_checksum :
    (readNumber ⟨.bad, lastBlock, taken, output⟩ .checksum 32).pushBits
        (bitsOf (Adler.ofArray output).encoded)
      = ⟨.done, lastBlock, taken + 32, output⟩ := by
  have pushed := pushBits_readNumber ⟨.bad, lastBlock, taken, output⟩ .checksum (Nat.succ_pos 31)
    (length_bitsOf (Adler.ofArray output).encoded)
  rw [takeNumber, if_pos rfl] at pushed
  exact pushed

end Inflate

/-- The machine has taken some data and put out some bytes: what it has put out leads a reader to the
start of the next block, with all data put out but those that wait. -/
structure Deflate.Wrote (machine : Deflate) (data : Array UInt8) (written : List UInt8) : Prop where
  few : machine.pending.size ≤ blockSize
  sum : machine.sum = Adler.ofArray data
  reads : ∃ taken done, Inflate.start.pushBits (bitsOf (written ++ machine.head) ++ machine.tail)
      = Inflate.readNumber ⟨.bad, false, taken, done⟩ .blockStart 3
    ∧ taken % 8 = machine.tail.length % 8 ∧ done ++ machine.pending = data

namespace Deflate

theorem wrote_start (level : Nat) : (start level).Wrote #[] [] where
  few := Nat.zero_le blockSize
  sum := rfl
  reads := by
    have read := Inflate.pushBits_streamHeader level
    rw [← List.append_nil (bitsOf _)] at read
    exact ⟨16, #[], read, show 16 % 8 = 0 % 8 from rfl, rfl⟩

/-- The data that wait become a block. -/
theorem Wrote.pushBits_block {machine : Deflate} {data : Array UInt8} {written : List UInt8}
    (wrote : machine.Wrote data written) (last : Bool) :
    ∃ taken, Inflate.start.pushBits (bitsOf (written ++ machine.head)
          ++ (machine.tail ++ block machine.level machine.tail.length last machine.pending))
        = Inflate.endBlock ⟨.bad, last, taken, data⟩
      ∧ taken % 8
        = (machine.tail ++ block machine.level machine.tail.length last machine.pending).length % 8 := by
  obtain ⟨taken, done, reads, aligned, all⟩ := wrote.reads
  have few : machine.pending.size ≤ maxStored := Nat.le_trans wrote.few (by decide)
  rw [← List.append_assoc, Inflate.pushBits_append, reads,
    Inflate.pushBits_block false taken done machine.level aligned last few, all]
  refine ⟨_, rfl, ?_⟩
  rw [List.length_append]
  omega

theorem Wrote.push {machine : Deflate} {data : Array UInt8} {written : List UInt8}
    (wrote : machine.Wrote data written) (byte : UInt8) :
    (machine.push byte).1.Wrote (data.push byte) (written ++ (machine.push byte).2) := by
  obtain ⟨taken, done, reads, aligned, all⟩ := wrote.reads
  have behind := wrote.pushBits_block false
  have sum : machine.sum.add byte = Adler.ofArray (data.push byte) := by
    rw [wrote.sum, Adler.ofArray, Adler.ofArray, Array.foldl_push]
  obtain ⟨level, head, tail, pending, checksum⟩ := machine
  rw [Deflate.push]
  split
  next room =>
    refine ⟨?_, sum, taken, done, ?_, aligned, ?_⟩
    · rw [Array.size_push]
      exact room
    · rw [List.append_nil]
      exact reads
    · rw [← all]
      exact Array.push_append.symm
  next full =>
    obtain ⟨taken, reads, aligned⟩ := behind
    dsimp only at reads aligned
    generalize tail ++ block level tail.length false pending = bits at reads aligned ⊢
    refine ⟨show 1 ≤ blockSize by decide, sum, taken, data, ?_, ?_, Array.push_eq_append.symm⟩
    · -- The bits that fill bytes are put out, and the others wait.
      have whole : padding (bits.take (bits.length / 8 * 8)).length = 0 := by
        rw [padding, List.length_take]
        omega
      have parts : bitsOf (written ++ (head ++ packBits (bits.take (bits.length / 8 * 8))) ++ [])
          ++ bits.drop (bits.length / 8 * 8) = bitsOf (written ++ head) ++ bits := by
        rw [List.append_nil, ← List.append_assoc, bitsOf_append, bitsOf_packBits, whole,
          List.replicate_zero, List.append_nil, List.append_assoc, List.take_append_drop]
      exact (congrArg Inflate.start.pushBits parts).trans reads
    · rw [aligned, List.length_drop]
      omega

theorem Wrote.feed {machine : Deflate} {data : Array UInt8} {written : List UInt8}
    (wrote : machine.Wrote data written) (bytes : List UInt8) :
    (machine.feed bytes).1.Wrote (data ++ bytes) (written ++ (machine.feed bytes).2) := by
  induction bytes generalizing machine data written with
  | nil =>
    rw [Array.appendList_nil]
    show machine.Wrote data (written ++ [])
    rw [List.append_nil]
    exact wrote
  | cons byte rest ih =>
    have onward := ih (wrote.push byte)
    rw [List.append_assoc, ← Array.appendList_cons] at onward
    exact onward

/-- The rest of the stream leads a reader to its end, with all data put out. -/
theorem Wrote.feed_close {machine : Deflate} {data : Array UInt8} {written : List UInt8}
    (wrote : machine.Wrote data written) :
    ∃ taken, Inflate.start.feed (written ++ machine.close) = ⟨.done, true, taken, data⟩ := by
  obtain ⟨taken, reads, aligned⟩ := wrote.pushBits_block true
  have sum := wrote.sum
  obtain ⟨level, head, tail, pending, checksum⟩ := machine
  dsimp only at reads aligned sum
  generalize coded : tail ++ block level tail.length true pending = bits at reads aligned
  have same : padding bits.length = padding taken := by
    rw [padding, padding, aligned]
  refine ⟨taken + padding taken + 32, ?_⟩
  have parts : bitsOf (written ++ (head ++ packBits bits ++ (Adler.ofArray data).encoded))
      = bitsOf (written ++ head) ++ bits ++ List.replicate (padding taken) false
        ++ bitsOf (Adler.ofArray data).encoded := by
    simp only [bitsOf_append, bitsOf_packBits, same, List.append_assoc]
  rw [close, coded, sum, Inflate.feed_eq_pushBits, parts, Inflate.pushBits_append,
    Inflate.pushBits_append, reads]
  exact (congrArg (Inflate.pushBits · _) (Inflate.pushBits_checksumGap true taken data)).trans
    (Inflate.pushBits_checksum true (taken + padding taken) data)

end Deflate

/-- Inflating a compressed stream comes to its end, and puts out the data. -/
theorem Inflate.feed_compress (level : Nat) (data : Array UInt8) :
    (start.feed (compress level data)).isDone ∧ (start.feed (compress level data)).output = data := by
  have wrote := (Deflate.wrote_start level).feed data.toList
  have all : (#[] : Array UInt8) ++ data.toList = data := by simp
  rw [all, List.nil_append] at wrote
  obtain ⟨taken, reads⟩ := wrote.feed_close
  have stream : start.feed (compress level data) = ⟨.done, true, taken, data⟩ := reads
  rw [stream]
  exact ⟨rfl, rfl⟩

end PdfFilters

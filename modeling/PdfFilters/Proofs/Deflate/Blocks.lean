import PdfFilters.Proofs.Deflate.Describing

/-!
# Reading blocks

Each kind of block puts out what it was made of and leads to its end: a stored block the bytes it
holds (`Inflate.pushBits_storedBlock`), a coded one what its tokens expand to, be it in the fixed
codes or in codes of its own (`Inflate.pushBits_codedBlock`). So a block of some data puts out the
data, whatever came before it (`Inflate.pushBits_block`).
-/

namespace PdfFilters

/-- What a block in codes of its own consists of. -/
theorem exists_of_ownBlock? {last : Bool} {tokens : List Token} {bits : List Bool}
    (made : ownBlock? last tokens = some bits) :
    ∃ (literals distances : List Nat) (codes : BlockCodes) (description body : List Bool),
      (257 ≤ literals.length ∧ literals.length ≤ literalCount)
      ∧ (1 ≤ distances.length ∧ distances.length ≤ distanceCount)
      ∧ (∀ length ∈ literals ++ distances, length ≤ CodeTree.maxLength)
      ∧ CodeTree.ofLengths? literals true = some codes.literals
      ∧ CodeTree.ofLengths? distances true = some codes.distances
      ∧ descriptionBits? literals distances = some description
      ∧ tokenBits? (.ofCodes codes) tokens = some body
      ∧ bits = (last :: field 2 2) ++ description ++ body := by
  obtain ⟨literals, first, made⟩ := Option.bind_eq_some_iff.mp made
  obtain ⟨distances, second, made⟩ := Option.bind_eq_some_iff.mp made
  obtain ⟨description, described, made⟩ := Option.bind_eq_some_iff.mp made
  obtain ⟨body, written, same⟩ := Option.bind_eq_some_iff.mp made
  obtain ⟨sizes, most⟩ :=
    trimZeros_wordLengths (show 257 ≤ literalCount by decide) (show 0 < CodeTree.maxLength by decide)
      (endOfBlock :: tokens.map Token.literalSymbol)
  obtain ⟨sizes', most'⟩ :=
    trimZeros_wordLengths (show 1 ≤ distanceCount by decide) (show 0 < CodeTree.maxLength by decide)
      (tokens.filterMap Token.distanceSymbol?)
  refine ⟨_, _, ⟨literals, distances⟩, description, body, sizes, sizes', ?_, first, second, described,
    written, (Option.some.inj same).symm⟩
  intro length h
  exact (List.mem_append.mp h).elim (most length) (most' length)

namespace Inflate

/-- The three bits before a block tell whether it is the last one and what kind it is. -/
theorem pushBits_blockStart (state : Inflate) (last : Bool) {kind : Nat} (fits : kind < 4) :
    (state.readNumber .blockStart 3).pushBits (last :: field 2 kind)
      = takeNumber ⟨.bad, state.lastBlock, state.taken + 3, state.output⟩ .blockStart
        (last.toNat + 2 * kind) := by
  have size : (last :: field 2 kind).length = 3 := by rw [List.length_cons, length_field]
  have pushed := state.pushBits_readNumber .blockStart (Nat.succ_pos 2) size
  rwa [numberOf, numberOf_field_of_lt (show kind < 1 <<< 2 from fits)] at pushed

/-! ## Stored blocks -/

variable (lastBlock : Bool) (taken : Nat) (output : Array UInt8)

theorem takeNumber_blockStart_stored (last : Bool) :
    takeNumber ⟨.bad, lastBlock, taken, output⟩ .blockStart (last.toNat + 2 * 0)
      = readStoredLength ⟨.bad, last, taken, output⟩ := by
  cases last <;> rfl

theorem takeNumber_blockStart_fixed (last : Bool) :
    takeNumber ⟨.bad, lastBlock, taken, output⟩ .blockStart (last.toNat + 2 * 1)
      = readLiteral ⟨.bad, last, taken, output⟩ fixedCodes := by
  cases last <;> rfl

theorem takeNumber_blockStart_own (last : Bool) :
    takeNumber ⟨.bad, lastBlock, taken, output⟩ .blockStart (last.toNat + 2 * 2)
      = readNumber ⟨.bad, last, taken, output⟩ .sizes 14 := by
  cases last <;> rfl

/-- Stored bytes come in one by one. -/
theorem pushBits_storedBytes (bytes : List UInt8) :
    (readStored ⟨.bad, lastBlock, taken, output⟩ bytes.length).pushBits (bitsOf bytes)
      = endBlock ⟨.bad, lastBlock, taken + 8 * bytes.length, output ++ bytes⟩ := by
  induction bytes generalizing taken output with
  | nil =>
    rw [Array.appendList_nil]
    rfl
  | cons byte rest ih =>
    rw [List.length_cons, readStored, if_neg (Nat.succ_ne_zero _), bitsOf_cons, pushBits_append,
      bitsOfByte, pushBits_field _ _ (Nat.succ_pos 7) byte.toNat_lt, takeNumber, UInt8.ofNat_toNat,
      Nat.add_sub_cancel, emit, ih, Array.appendList_cons, Nat.mul_succ, Nat.add_assoc,
      Nat.add_comm 8]

/-- The rest of the byte before a stored block, and the length of the block. -/
theorem pushBits_storedLength {length : Nat} (few : length ≤ maxStored) :
    (readStoredLength ⟨.bad, lastBlock, taken, output⟩).pushBits
        (List.replicate (padding taken) false
          ++ (field 16 length ++ field 16 (maxStored - length)))
      = readStored ⟨.bad, lastBlock, taken + padding taken + 32, output⟩ length := by
  have value : numberOf (field 16 length ++ field 16 (maxStored - length))
      = length + (maxStored - length) * 65536 := by
    rw [maxStored] at few ⊢
    rw [numberOf_append, numberOf_field_of_lt (by omega), numberOf_field_of_lt (by omega),
      length_field, Nat.shiftLeft_eq]
  have size : (field 16 length ++ field 16 (maxStored - length)).length = 32 := by simp
  generalize field 16 length ++ field 16 (maxStored - length) = bits at value size ⊢
  have number (taken : Nat) :
      (readNumber ⟨.bad, lastBlock, taken, output⟩ .storedLength 32).pushBits bits
        = readStored ⟨.bad, lastBlock, taken + 32, output⟩ length := by
    have parts : (length + (maxStored - length) * 65536) % 65536 = length
        ∧ (length + (maxStored - length) * 65536) / 65536 = maxStored - length := by
      rw [maxStored] at few ⊢
      omega
    rw [pushBits_readNumber _ .storedLength (Nat.succ_pos 31) size, value, takeNumber, parts.1,
      parts.2, if_pos (by rw [maxStored] at few ⊢; omega)]
  have left : gap ⟨.bad, lastBlock, taken, output⟩ = padding taken := rfl
  rw [readStoredLength, left, pushBits_append]
  split
  next none =>
    rw [none]
    exact number taken
  next some =>
    have rest := pushBits_readNumber ⟨.bad, lastBlock, taken, output⟩ .storedGap
      (Nat.pos_of_ne_zero some)
      (List.length_replicate : (List.replicate (padding taken) false).length = padding taken)
    exact (congrArg (pushBits · bits) rest).trans (number (taken + padding taken))

theorem pushBits_storedBlock {offset : Nat} (aligned : taken % 8 = offset % 8) (last : Bool)
    {bytes : List UInt8} (few : bytes.length ≤ maxStored) :
    (readNumber ⟨.bad, lastBlock, taken, output⟩ .blockStart 3).pushBits
        (storedBlock offset last bytes)
      = endBlock ⟨.bad, last, taken + (storedBlock offset last bytes).length, output ++ bytes⟩ := by
  -- The writer and the reader are at the same place of a byte.
  have same : padding (offset + 3) = padding (taken + 3) := by
    rw [padding, padding]
    omega
  rw [storedBlock, same, pushBits_append, pushBits_append,
    pushBits_blockStart _ last (Nat.succ_pos 3), takeNumber_blockStart_stored,
    pushBits_storedLength _ _ _ few, pushBits_storedBytes]
  congr 2
  simp only [List.length_append, List.length_cons, length_field, List.length_replicate,
    length_bitsOf]
  omega

/-! ## Coded blocks -/

theorem pushBits_fixedBlock (last : Bool) {tokens : List Token} {final : Array UInt8}
    (expands : Expands output tokens final) :
    (readNumber ⟨.bad, lastBlock, taken, output⟩ .blockStart 3).pushBits (fixedBlock last tokens)
      = endBlock ⟨.bad, last, taken + (fixedBlock last tokens).length, final⟩ := by
  obtain ⟨bits, written⟩ := exists_tokenBits?_fixedWords expands
  rw [fixedBlock, written, Option.getD_some, pushBits_append,
    pushBits_blockStart _ last (by decide), takeNumber_blockStart_fixed]
  have pushed := pushBits_tokens branches_fixedCodes ⟨.bad, last, taken + 3, output⟩ expands written
  refine pushed.trans ?_
  rw [List.length_append, ← Nat.add_assoc]
  rfl

theorem pushBits_ownBlock {last : Bool} {tokens : List Token} {final : Array UInt8}
    (expands : Expands output tokens final) {bits : List Bool}
    (made : ownBlock? last tokens = some bits) :
    (readNumber ⟨.bad, lastBlock, taken, output⟩ .blockStart 3).pushBits bits
      = endBlock ⟨.bad, last, taken + bits.length, final⟩ := by
  obtain ⟨literals, distances, codes, description, body, sizes, sizes', most, first, second,
    described, written, rfl⟩ := exists_of_ownBlock? made
  have branches : codes.Branches :=
    ⟨CodeTree.ofLengths?_ne_leaf first, CodeTree.ofLengths?_ne_leaf second⟩
  -- The end of the block could be written, so it has a word, and the reader insists on that.
  obtain ⟨word, found⟩ := exists_wordOf?_of_tokenBits? written
  have ends := CodeTree.getD_ne_zero_of_wordOf? first found
  rw [pushBits_append, pushBits_append, pushBits_blockStart _ last (by decide),
    takeNumber_blockStart_own]
  refine (congrArg (pushBits · body)
    (pushBits_description ⟨.bad, last, taken + 3, output⟩ sizes sizes' most ends first second
      described)).trans ?_
  rw [pushBits_tokens branches _ expands written]
  congr 2
  simp only [List.length_append, List.length_cons, length_field]
  omega

/-- A coded block is in the fixed codes or in its own. -/
theorem pushBits_codedBlock (last : Bool) {tokens : List Token} {final : Array UInt8}
    (expands : Expands output tokens final) (size : Nat) :
    (readNumber ⟨.bad, lastBlock, taken, output⟩ .blockStart 3).pushBits
        (codedBlock last size tokens)
      = endBlock ⟨.bad, last, taken + (codedBlock last size tokens).length, final⟩ := by
  rw [codedBlock]
  split
  · exact pushBits_fixedBlock lastBlock taken output last expands
  · cases own : ownBlock? last tokens with
    | none => exact pushBits_fixedBlock lastBlock taken output last expands
    | some bits => exact pushBits_ownBlock lastBlock taken output expands own

/-- Whatever was put out before, a block puts out its data behind that. -/
theorem pushBits_block (level : Nat) {offset : Nat} (aligned : taken % 8 = offset % 8) (last : Bool)
    {data : Array UInt8} (few : data.size ≤ maxStored) :
    (readNumber ⟨.bad, lastBlock, taken, output⟩ .blockStart 3).pushBits
        (block level offset last data)
      = endBlock ⟨.bad, last, taken + (block level offset last data).length, output ++ data⟩ := by
  have stored := pushBits_storedBlock lastBlock taken output aligned last
    (show data.toList.length ≤ maxStored from few)
  have all : output ++ data.toList = output ++ data := Array.ext' (by simp)
  rw [all] at stored
  have expands := (expands_tokens level data).behind output
  rw [Array.append_empty] at expands
  have coded := pushBits_codedBlock lastBlock taken output last expands data.size
  rw [block]
  split
  · exact stored
  · dsimp only
    split
    · exact stored
    · exact coded

end Inflate

end PdfFilters

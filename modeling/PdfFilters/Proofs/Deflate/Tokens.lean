import PdfFilters.Deflate.Block
import PdfFilters.Proofs.Deflate.Cutting
import PdfFilters.Proofs.Deflate.Pushing
import PdfFilters.Proofs.Deflate.Trees

/-!
# Reading tokens

A number has a slot as long as the slots leave out none (`exists_isSlot`), and the field of extra
bits picks it from the range of its slot (`IsSlot.fits`). So the bits of a valid
token put out its expansion (`Inflate.pushBits_token`), and those of tokens and of the end of their
block put out all of them (`Inflate.pushBits_tokens`), in any codes that have words for them. The
fixed codes have words for all tokens (`exists_tokenBits?_fixedWords`).
-/

namespace PdfFilters

/-! ## Slots -/

/-- Slots leave out no number from the first one up to a bound. -/
def leavesOutNone (bound : Nat) : List (Nat × Nat) → Bool
  | [] => true
  | (first, width) :: rest =>
    (rest.head?.map Prod.fst).getD bound ≤ first + 2 ^ width && leavesOutNone bound rest

/-- The slot of a number starts at the number or below it, and its field reaches the number. -/
structure IsSlot (slots : List (Nat × Nat)) (value first width : Nat) : Prop where
  listed : slots[slotOf slots value]? = some (first, width)
  above : first ≤ value
  below : value < first + 2 ^ width

theorem slotOf_cons_of_lt {slot : Nat × Nat} {rest : List (Nat × Nat)} {value : Nat}
    (last : ∀ next ∈ rest.head?, value < next.1) : slotOf (slot :: rest) value = 0 := by
  have none : rest.takeWhile (fun next => decide (next.1 ≤ value)) = [] := by
    cases rest with
    | nil => rfl
    | cons next rest =>
      have before := Nat.not_le_of_gt (last next rfl)
      exact List.takeWhile_cons_of_neg (by simpa using before)
  show ((slot :: rest).takeWhile fun next => decide (next.1 ≤ value)).length - 1 = 0
  rw [List.takeWhile_cons, none]
  split <;> rfl

theorem slotOf_cons_of_le {slot next : Nat × Nat} {rest : List (Nat × Nat)} {value : Nat}
    (above : slot.1 ≤ value) (further : next.1 ≤ value) :
    slotOf (slot :: next :: rest) value = slotOf (next :: rest) value + 1 := by
  rw [slotOf, slotOf, List.takeWhile_cons_of_pos (by simpa using above),
    List.takeWhile_cons_of_pos (by simpa using further)]
  rfl

theorem exists_isSlot {bound value : Nat} {slots : List (Nat × Nat)}
    (all : leavesOutNone bound slots) (below : value < bound)
    (above : ∃ slot ∈ slots.head?, slot.1 ≤ value) :
    ∃ first width, IsSlot slots value first width := by
  induction slots with
  | nil =>
    obtain ⟨_, h, -⟩ := above
    cases h
  | cons slot rest ih =>
    obtain ⟨_, h, above⟩ := above
    obtain rfl := Option.some.inj h
    rw [leavesOutNone, Bool.and_eq_true, decide_eq_true_eq] at all
    -- The slot is this one unless the next one starts at the number or below it.
    by_cases further : ∃ next ∈ rest.head?, next.1 ≤ value
    · obtain ⟨first, width, listed, above', below'⟩ := ih all.2 further
      refine ⟨first, width, ?_, above', below'⟩
      obtain ⟨next, h, further⟩ := further
      obtain ⟨rest, rfl⟩ := List.head?_eq_some_iff.mp h
      rw [slotOf_cons_of_le above further, List.getElem?_cons_succ, listed]
    · have last : ∀ next ∈ rest.head?, value < next.1 := by
        intro next h
        exact Nat.lt_of_not_le fun before => further ⟨next, h, before⟩
      refine ⟨slot.1, slot.2, ?_, above, Nat.lt_of_lt_of_le ?_ all.1⟩
      · rw [slotOf_cons_of_lt last, List.getElem?_cons_zero]
      · cases next : rest.head? with
        | none => exact below
        | some other => exact last other next

theorem exists_isSlot_length {length : Nat} (least : Token.minLength ≤ length)
    (most : length ≤ Token.maxLength) : ∃ first width, IsSlot lengthSlots length first width := by
  have all : leavesOutNone (Token.maxLength + 1) lengthSlots := by decide
  exact exists_isSlot all (Nat.lt_succ_of_le most) ⟨_, rfl, least⟩

theorem exists_isSlot_distance {distance : Nat} (back : 0 < distance)
    (near : distance ≤ Token.maxDistance) :
    ∃ first width, IsSlot distanceSlots distance first width := by
  have all : leavesOutNone (Token.maxDistance + 1) distanceSlots := by decide
  exact exists_isSlot all (Nat.lt_succ_of_le near) ⟨_, rfl, back⟩

namespace IsSlot

variable {slots : List (Nat × Nat)} {value first width : Nat}

theorem slotBits_eq (slot : IsSlot slots value first width) :
    slotBits slots value = field width (value - first) := by
  rw [slotBits, List.getD_eq_getElem?_getD, slot.listed]
  rfl

theorem fits (slot : IsSlot slots value first width) : value - first < 2 ^ width := by
  have above := slot.above
  have below := slot.below
  omega

theorem length_slotBits (slot : IsSlot slots value first width) :
    (slotBits slots value).length = width := by
  rw [slot.slotBits_eq, length_field]

/-- A slot without a field is a single number. -/
theorem eq_of_width (slot : IsSlot slots value first width) (single : width = 0) :
    slotBits slots value = [] ∧ value = first := by
  have above := slot.above
  have below := slot.below
  subst single
  refine ⟨slot.slotBits_eq, ?_⟩
  omega

theorem index_lt (slot : IsSlot slots value first width) : slotOf slots value < slots.length :=
  (List.getElem?_eq_some_iff.mp slot.listed).1

end IsSlot

/-! ## Words -/

theorem exists_of_mapM_cons {α β : Type} {word? : α → Option β} {first : α} {rest : List α}
    {words : List β} (each : (first :: rest).mapM word? = some words) :
    ∃ word others, word? first = some word ∧ rest.mapM word? = some others
      ∧ words = word :: others := by
  rw [List.mapM_cons] at each
  obtain ⟨word, head, each⟩ := Option.bind_eq_some_iff.mp each
  obtain ⟨others, tail, same⟩ := Option.bind_eq_some_iff.mp each
  exact ⟨word, others, head, tail, (Option.some.inj same).symm⟩

namespace BlockWords

variable {codes : BlockCodes} {symbol : Nat} {word : List Bool}

theorem getD_map_range (count : Nat) (tree : CodeTree) :
    ((Array.range count).map tree.wordOf?).getD symbol none
      = if symbol < count then tree.wordOf? symbol else none := by
  rw [Array.getD_eq_getD_getElem?, Array.getElem?_map, Array.getElem?_range]
  split <;> rfl

theorem literal?_ofCodes :
    (ofCodes codes).literal? symbol
      = if symbol < literalCount then codes.literals.wordOf? symbol else none := by
  rw [literal?, ofCodes, getD_map_range]

theorem distance?_ofCodes :
    (ofCodes codes).distance? symbol
      = if symbol < distanceCount then codes.distances.wordOf? symbol else none := by
  rw [distance?, ofCodes, getD_map_range]

end BlockWords

/-- Behind tokens that can be written there is a word for the end of their block. -/
theorem exists_wordOf?_of_tokenBits? {codes : BlockCodes} {tokens : List Token} {bits : List Bool}
    (written : tokenBits? (.ofCodes codes) tokens = some bits) :
    ∃ word, codes.literals.wordOf? endOfBlock = some word := by
  obtain ⟨words, each, written⟩ := Option.bind_eq_some_iff.mp written
  obtain ⟨last, found, same⟩ := Option.bind_eq_some_iff.mp written
  rw [BlockWords.literal?_ofCodes] at found
  exact ⟨last, found⟩

/-- The words of both codes are nowhere empty. -/
structure BlockCodes.Branches (codes : BlockCodes) : Prop where
  literals : ∀ symbol, codes.literals ≠ .leaf symbol
  distances : ∀ symbol, codes.distances ≠ .leaf symbol

namespace Inflate

variable {codes : BlockCodes} (branches : codes.Branches) (state : Inflate)
include branches

/-- A byte, block end or length comes in as its word. -/
theorem pushBits_literal {symbol : Nat} {word : List Bool}
    (found : (BlockWords.ofCodes codes).literal? symbol = some word) :
    (state.readLiteral codes).pushBits word
      = takeSymbol ⟨.bad, state.lastBlock, state.taken + word.length, state.output⟩
        (.literal codes) symbol := by
  rw [BlockWords.literal?_ofCodes] at found
  split at found
  · exact state.pushBits_symbol _ (CodeTree.wordOf?_ne_nil branches.literals found)
      (CodeTree.walk_wordOf? found)
  · cases found

/-- A distance comes in as its word. -/
theorem pushBits_distance {length symbol : Nat} {word : List Bool}
    (found : (BlockWords.ofCodes codes).distance? symbol = some word) :
    (state.readDistance codes length).pushBits word
      = takeSymbol ⟨.bad, state.lastBlock, state.taken + word.length, state.output⟩
        (.distance codes length) symbol := by
  rw [BlockWords.distance?_ofCodes] at found
  split at found
  · exact state.pushBits_symbol _ (CodeTree.wordOf?_ne_nil branches.distances found)
      (CodeTree.walk_wordOf? found)
  · cases found

omit branches

/-- The extra bits of a number tell how far above the start of its slot it is. -/
theorem pushBits_extra {slots : List (Nat × Nat)} {value first width : Nat}
    (slot : IsSlot slots value first width) (meaning : Meaning) (some : width ≠ 0) :
    (state.readNumber meaning width).pushBits (slotBits slots value)
      = takeNumber ⟨.bad, state.lastBlock, state.taken + (slotBits slots value).length,
        state.output⟩ meaning (value - first) := by
  rw [slot.length_slotBits, slot.slotBits_eq]
  exact state.pushBits_field meaning (Nat.pos_of_ne_zero some) slot.fits

theorem pushBits_lengthExtra {length first width : Nat}
    (slot : IsSlot lengthSlots length first width) :
    (state.readLengthExtra codes first width).pushBits (slotBits lengthSlots length)
      = readDistance ⟨.bad, state.lastBlock, state.taken + (slotBits lengthSlots length).length,
        state.output⟩ codes length := by
  by_cases single : width = 0
  · obtain ⟨empty, same⟩ := slot.eq_of_width single
    rw [readLengthExtra, if_pos single, empty, ← same]
    rfl
  · rw [readLengthExtra, if_neg single, state.pushBits_extra slot _ single, takeNumber,
      Nat.add_sub_cancel' slot.above]

theorem pushBits_distanceExtra {length distance first width : Nat}
    (slot : IsSlot distanceSlots distance first width) (inside : distance ≤ state.output.size) :
    (state.readDistanceExtra codes length first width).pushBits (slotBits distanceSlots distance)
      = readLiteral ⟨.bad, state.lastBlock, state.taken + (slotBits distanceSlots distance).length,
        copyBack distance length state.output⟩ codes := by
  by_cases single : width = 0
  · obtain ⟨empty, same⟩ := slot.eq_of_width single
    rw [readDistanceExtra, if_pos single, empty, ← same, copy]
    rw [if_pos inside]
    rfl
  · rw [readDistanceExtra, if_neg single, state.pushBits_extra slot _ single, takeNumber,
      Nat.add_sub_cancel' slot.above, copy]
    rw [if_pos inside]

theorem takeSymbol_byte (value : UInt8) :
    state.takeSymbol (.literal codes) value.toNat = (state.emit value).readLiteral codes := by
  have below : value.toNat < endOfBlock := value.toNat_lt
  rw [takeSymbol, if_pos below, UInt8.ofNat_toNat]

theorem takeSymbol_length {length first width : Nat} (slot : IsSlot lengthSlots length first width) :
    state.takeSymbol (.literal codes) (257 + slotOf lengthSlots length)
      = state.readLengthExtra codes first width := by
  have above : endOfBlock < 257 + slotOf lengthSlots length := by
    rw [endOfBlock]
    omega
  rw [takeSymbol, if_neg (Nat.lt_asymm above), if_neg (Nat.ne_of_gt above), Nat.add_sub_cancel_left]
  rw [slot.listed]

theorem takeSymbol_distance {length distance first width : Nat}
    (slot : IsSlot distanceSlots distance first width) :
    state.takeSymbol (.distance codes length) (slotOf distanceSlots distance)
      = state.readDistanceExtra codes length first width := by
  rw [takeSymbol]
  rw [slot.listed]

include branches

/-- The bits of a token put out its expansion. -/
theorem pushBits_token {token : Token} (valid : token.IsValid state.output.size) {bits : List Bool}
    (written : token.bits? (.ofCodes codes) = some bits) :
    (state.readLiteral codes).pushBits bits
      = readLiteral ⟨.bad, state.lastBlock, state.taken + bits.length, token.expand state.output⟩
        codes := by
  cases valid with
  | byte value =>
    rw [state.pushBits_literal branches written]
    exact takeSymbol_byte _ value
  | copy least most back near inside =>
    rename_i length distance
    obtain ⟨lengthWord, foundLength, written⟩ := Option.bind_eq_some_iff.mp written
    obtain ⟨distanceWord, foundDistance, written⟩ := Option.bind_eq_some_iff.mp written
    obtain rfl := Option.some.inj written
    obtain ⟨firstLength, lengthWidth, lengthSlot⟩ := exists_isSlot_length least most
    obtain ⟨firstDistance, distanceWidth, distanceSlot⟩ := exists_isSlot_distance back near
    -- Word and field of the length, then word and field of the distance.
    rw [pushBits_append, pushBits_append _ lengthWord, pushBits_append _ distanceWord]
    rw [state.pushBits_literal branches foundLength, Token.literalSymbol,
      takeSymbol_length _ lengthSlot, pushBits_lengthExtra _ lengthSlot]
    rw [pushBits_distance branches _ foundDistance, takeSymbol_distance _ distanceSlot]
    dsimp only
    rw [pushBits_distanceExtra _ distanceSlot]
    · simp only [List.length_append, Nat.add_assoc]
      rfl
    · exact inside

/-- The bits of tokens, each valid where it stands, put out their expansion. -/
theorem pushBits_words {tokens : List Token} {final : Array UInt8}
    (expands : Expands state.output tokens final) {words : List (List Bool)}
    (each : tokens.mapM (Token.bits? (.ofCodes codes)) = some words) :
    (state.readLiteral codes).pushBits words.flatten
      = readLiteral ⟨.bad, state.lastBlock, state.taken + words.flatten.length, final⟩ codes := by
  induction tokens generalizing state words with
  | nil =>
    cases expands
    rw [List.mapM_nil] at each
    obtain rfl := Option.some.inj each
    rfl
  | cons token rest ih =>
    obtain _ | ⟨valid, further⟩ := expands
    obtain ⟨first, others, head, tail, rfl⟩ := exists_of_mapM_cons each
    rw [List.flatten_cons, pushBits_append, state.pushBits_token branches valid head,
      ih _ further tail]
    dsimp only
    rw [List.length_append, Nat.add_assoc]

/-- Behind the tokens of a block comes its end. -/
theorem pushBits_tokens {tokens : List Token} {final : Array UInt8}
    (expands : Expands state.output tokens final) {bits : List Bool}
    (written : tokenBits? (.ofCodes codes) tokens = some bits) :
    (state.readLiteral codes).pushBits bits
      = endBlock ⟨.bad, state.lastBlock, state.taken + bits.length, final⟩ := by
  obtain ⟨words, each, written⟩ := Option.bind_eq_some_iff.mp written
  obtain ⟨last, found, same⟩ := Option.bind_eq_some_iff.mp written
  obtain rfl := Option.some.inj same
  rw [pushBits_append, state.pushBits_words branches expands each, pushBits_literal branches _ found]
  dsimp only
  rw [List.length_append, Nat.add_assoc]
  rfl

end Inflate

/-! ## The fixed codes -/

theorem branches_fixedCodes : fixedCodes.Branches where
  literals := CodeTree.ofLengths?_ne_leaf ofLengths?_fixedLiteralLengths
  distances := CodeTree.ofLengths?_ne_leaf ofLengths?_fixedDistanceLengths

theorem exists_literal?_fixedWords {symbol : Nat} (below : symbol < literalCount) :
    ∃ word, fixedWords.literal? symbol = some word := by
  rw [fixedWords, BlockWords.literal?_ofCodes, if_pos below]
  exact exists_wordOf?_literals below

theorem exists_distance?_fixedWords {symbol : Nat} (below : symbol < distanceCount) :
    ∃ word, fixedWords.distance? symbol = some word := by
  rw [fixedWords, BlockWords.distance?_ofCodes, if_pos below]
  exact exists_wordOf?_distances below

theorem exists_bits?_fixedWords {size : Nat} {token : Token} (valid : token.IsValid size) :
    ∃ bits, token.bits? fixedWords = some bits := by
  cases valid with
  | byte value =>
    have below : value.toNat < literalCount := Nat.lt_trans value.toNat_lt (by decide)
    exact exists_literal?_fixedWords below
  | copy least most back near inside =>
    rename_i length distance
    obtain ⟨_, _, lengthSlot⟩ := exists_isSlot_length least most
    obtain ⟨_, _, distanceSlot⟩ := exists_isSlot_distance back near
    have below : 257 + slotOf lengthSlots length < literalCount :=
      Nat.add_lt_add_left lengthSlot.index_lt 257
    obtain ⟨lengthWord, foundLength⟩ := exists_literal?_fixedWords below
    obtain ⟨distanceWord, foundDistance⟩ := exists_distance?_fixedWords distanceSlot.index_lt
    rw [Token.bits?, Token.literalSymbol, foundLength, foundDistance]
    exact ⟨_, rfl⟩

/-- The fixed codes have words for all tokens, and for the end of the block. -/
theorem exists_tokenBits?_fixedWords {data final : Array UInt8} {tokens : List Token}
    (expands : Expands data tokens final) : ∃ bits, tokenBits? fixedWords tokens = some bits := by
  have each : ∃ words, tokens.mapM (Token.bits? fixedWords) = some words := by
    induction expands with
    | nil data => exact ⟨[], List.mapM_nil⟩
    | cons valid _ ih =>
      obtain ⟨bits, written⟩ := exists_bits?_fixedWords valid
      obtain ⟨words, each⟩ := ih
      rw [List.mapM_cons, written, each]
      exact ⟨_, rfl⟩
  obtain ⟨words, each⟩ := each
  have below : endOfBlock < literalCount := by decide
  obtain ⟨last, found⟩ := exists_literal?_fixedWords below
  rw [tokenBits?, each, found]
  exact ⟨_, rfl⟩

end PdfFilters

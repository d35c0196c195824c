import PdfFilters.Proofs.Deflate.Lengths
import PdfFilters.Proofs.Deflate.Tokens

/-!
# Reading a description

The items that a list of word lengths is cut into are valid where they stand
(`LengthItem.areValid_describe`), so a reader that has their words makes the same list of them
(`Inflate.pushBits_items`). The code of the items comes before, and how many lengths there are
before that. In all, a description leaves the reader with the two codes that it describes
(`Inflate.pushBits_description`).
-/

namespace PdfFilters

namespace LengthItem

/-- An item that can be written after some word lengths. -/
inductive IsValid (known : List Nat) : LengthItem → Prop
  | once {length : Nat} (most : length ≤ CodeTree.maxLength) : IsValid known (.once length)
  | again {count : Nat} (least : leastRepeated ≤ count) (most : count ≤ mostAgain)
      (some : known ≠ []) : IsValid known (.again count)
  | zeros {count : Nat} (least : leastRepeated ≤ count) (most : count ≤ mostZeros) :
      IsValid known (.zeros count)

/-- Items each of which is valid after those before it. -/
def AreValid (known : List Nat) : List LengthItem → Prop
  | [] => True
  | item :: rest => item.IsValid known ∧ AreValid (item.expand known) rest

theorem areValid_append {known : List Nat} {first second : List LengthItem} :
    AreValid known (first ++ second)
      ↔ AreValid known first ∧ AreValid (first.foldl expand known) second := by
  induction first generalizing known with
  | nil => rw [List.nil_append, AreValid, true_and, List.foldl_nil]
  | cons item rest ih => rw [List.cons_append, AreValid, AreValid, ih, List.foldl_cons, and_assoc]

theorem areValid_replicate_once {length : Nat} (most : length ≤ CodeTree.maxLength) (count : Nat)
    (known : List Nat) : AreValid known (List.replicate count (.once length)) := by
  induction count generalizing known with
  | zero => trivial
  | succ count ih => exact ⟨.once most, ih _⟩

theorem areValid_describeZeros (known : List Nat) (count : Nat) :
    AreValid known (describeZeros count) := by
  fun_induction describeZeros count generalizing known with
  | case1 count many ih => exact ⟨.zeros (by decide) (Nat.le_refl _), ih _⟩
  | case2 count few some => exact ⟨.zeros some (Nat.le_of_not_le few), trivial⟩
  | case3 count => exact areValid_replicate_once (Nat.zero_le _) count known

theorem areValid_describeAgain {known : List Nat} (some : known ≠ []) {length : Nat}
    (most : length ≤ CodeTree.maxLength) (count : Nat) :
    AreValid known (describeAgain length count) := by
  fun_induction describeAgain length count generalizing known with
  | case1 count many ih =>
    exact ⟨.again (by decide) (Nat.le_refl _) some, ih (List.append_ne_nil_of_left_ne_nil some _)⟩
  | case2 count few least => exact ⟨.again least (Nat.le_of_not_le few) some, trivial⟩
  | case3 count => exact areValid_replicate_once most count known

/-- The items of word lengths are valid where they stand. -/
theorem areValid_describe {lengths : List Nat}
    (most : ∀ length ∈ lengths, length ≤ CodeTree.maxLength) (known : List Nat) :
    AreValid known (describe lengths) := by
  fun_induction describe lengths generalizing known with
  | case1 => trivial
  | case2 length rest count ih =>
    have first : length ≤ CodeTree.maxLength := most length List.mem_cons_self
    refine areValid_append.mpr ⟨?_, ih (fun other h => ?_) _⟩
    · split
      · exact areValid_describeZeros known _
      · exact ⟨.once first, areValid_describeAgain (by simp [expand]) first _⟩
    · exact most other (List.mem_cons_of_mem _ ((List.dropWhile_sublist _).mem h))

/-- A valid item stands for some lengths. -/
theorem IsValid.length_lt {known : List Nat} {item : LengthItem} (valid : item.IsValid known) :
    known.length < (item.expand known).length := by
  cases valid with
  | once => simp [expand]
  | again least =>
    rw [leastRepeated] at least
    rw [expand, List.length_append, List.length_replicate]
    omega
  | zeros least =>
    rw [leastRepeated] at least
    rw [expand, List.length_append, List.length_replicate]
    omega

theorem length_le_length_expand {known : List Nat} {items : List LengthItem}
    (valid : AreValid known items) : known.length ≤ (items.foldl expand known).length := by
  induction items generalizing known with
  | nil => exact Nat.le_refl _
  | cons item rest ih =>
    rw [List.foldl_cons]
    exact Nat.le_trans (Nat.le_of_lt valid.1.length_lt) (ih valid.2)

end LengthItem

/-! ## The code for items -/

/-- The word lengths of the code for items in the order in which a block lists them. -/
def listedLengths (lengths : List Nat) : List Nat :=
  trimZeros 4 (lengthOrder.map (lengths.getD · 0))

theorem length_listedLengths (lengths : List Nat) :
    4 ≤ (listedLengths lengths).length ∧ (listedLengths lengths).length ≤ 19 := by
  have length : (lengthOrder.map (lengths.getD · 0)).length = 19 := List.length_map ..
  exact ⟨le_length_trimZeros (by omega), length ▸ length_trimZeros_le 4 _⟩

theorem le_of_mem_listedLengths {bound : Nat} {lengths : List Nat}
    (most : ∀ length ∈ lengths, length ≤ bound) {length : Nat} (h : length ∈ listedLengths lengths) :
    length ≤ bound := by
  obtain ⟨symbol, -, rfl⟩ := List.mem_map.mp (mem_of_mem_trimZeros h)
  exact getD_le_of_forall most symbol

/-- The lengths are found again by the places of their symbols in the order. -/
theorem map_getD_listedLengths {lengths : List Nat} (size : lengths.length = 19) :
    ((List.range 19).map fun symbol => (listedLengths lengths).getD (lengthOrder.idxOf symbol) 0)
      = lengths := by
  apply List.ext_getElem
  · rw [List.length_map, List.length_range, size]
  · intro symbol inside inside'
    have listed : ∀ symbol < 19, symbol ∈ lengthOrder := by decide
    have place := List.idxOf_lt_length_of_mem (listed symbol (size ▸ inside'))
    rw [List.getElem_map, List.getElem_range, listedLengths, getD_trimZeros,
      List.getD_eq_getElem?_getD, List.getElem?_map, List.getElem?_eq_getElem place,
      List.getElem_idxOf place, Option.map_some, Option.getD_some, List.getD_eq_getElem?_getD,
      List.getElem?_eq_getElem inside', Option.getD_some]

/-- What a description consists of. -/
theorem exists_of_descriptionBits? {literals distances : List Nat} {bits : List Bool}
    (written : descriptionBits? literals distances = some bits) :
    ∃ lengths tree words, lengths.length = 19 ∧ (∀ length ∈ lengths, length ≤ maxItemWord)
      ∧ CodeTree.ofLengths? lengths false = some tree
      ∧ (describe (literals ++ distances)).mapM
          (fun item => (· ++ item.extraBits) <$> tree.wordOf? item.symbol) = some words
      ∧ bits = field 5 (literals.length - 257) ++ field 5 (distances.length - 1)
          ++ field 4 ((listedLengths lengths).length - 4) ++ (listedLengths lengths).flatMap (field 3)
          ++ words.flatten := by
  obtain ⟨tree, made, written⟩ := Option.bind_eq_some_iff.mp written
  obtain ⟨words, each, same⟩ := Option.bind_eq_some_iff.mp written
  refine ⟨_, tree, words, ?_, ?_, made, each, (Option.some.inj same).symm⟩
  · rw [length_wordLengths, length_countSymbols]
  · intro length h
    exact le_of_mem_wordLengths (by decide) h

namespace Inflate

variable (state : Inflate)

theorem pushBits_repetition (reader : LengthReader) {length base width count : Nat}
    (some : 0 < width) (least : base ≤ count) (most : count - base < 2 ^ width) :
    (state.readNumber (.repetition reader length base) width).pushBits (field width (count - base))
      = readWordLength ⟨.bad, state.lastBlock, state.taken + width, state.output⟩
        { reader with lengths := reader.lengths ++ List.replicate count length } := by
  rw [state.pushBits_field _ some most, takeNumber, Nat.add_sub_cancel' least]

theorem toArray_toList_append (known : Array Nat) (more : List Nat) :
    (known.toList ++ more).toArray = known ++ more :=
  Array.toList_inj.mp Array.toList_appendList.symm

/-- The word of an item and its extra bits add what the item stands for. -/
theorem pushBits_item {reader : LengthReader}
    (below : reader.lengths.size < reader.sizes.literals + reader.sizes.distances)
    (branching : ∀ symbol, reader.tree ≠ .leaf symbol) {item : LengthItem}
    (valid : item.IsValid reader.lengths.toList) {word : List Bool}
    (found : reader.tree.wordOf? item.symbol = some word) :
    (state.readWordLength reader).pushBits (word ++ item.extraBits)
      = readWordLength
        ⟨.bad, state.lastBlock, state.taken + (word ++ item.extraBits).length, state.output⟩
        { reader with lengths := (item.expand reader.lengths.toList).toArray } := by
  rw [pushBits_append, readWordLength, if_pos below,
    state.pushBits_symbol _ (CodeTree.wordOf?_ne_nil branching found) (CodeTree.walk_wordOf? found),
    List.length_append, ← Nat.add_assoc]
  cases valid with
  | once most =>
    rename_i length
    have short : length < 16 := Nat.lt_succ_of_le most
    rw [LengthItem.symbol, takeSymbol, if_pos short, LengthItem.expand, ← Array.toList_push]
    rfl
  | again least most some =>
    rename_i count
    rw [leastRepeated] at least
    rw [mostAgain] at most
    obtain ⟨length, last⟩ : ∃ length, reader.lengths.toList.getLast? = .some length :=
      Option.isSome_iff_exists.mp (List.getLast?_isSome.mpr some)
    have back : reader.lengths.back? = .some length := by
      rw [← Array.getLast?_toList, last]
    rw [LengthItem.symbol, takeSymbol, if_neg (by decide), if_pos rfl, back]
    dsimp only
    rw [LengthItem.extraBits, pushBits_repetition _ _ Nat.two_pos least (by omega),
      LengthItem.expand, last, length_field, toArray_toList_append]
    rfl
  | zeros least most =>
    rename_i count
    rw [leastRepeated] at least
    rw [mostZeros] at most
    rw [LengthItem.symbol, LengthItem.extraBits, LengthItem.expand]
    by_cases few : count ≤ LengthItem.fewZeros
    · have fits := few
      rw [LengthItem.fewZeros] at fits
      rw [if_pos few, if_pos few, takeSymbol, if_neg (by decide), if_neg (by decide),
        if_pos rfl, pushBits_repetition _ _ (Nat.succ_pos 2) least (by omega), length_field,
        toArray_toList_append]
    · have fits := few
      rw [LengthItem.fewZeros] at fits
      rw [if_neg few, if_neg few, takeSymbol, if_neg (by decide), if_neg (by decide),
        if_neg (by decide), pushBits_repetition _ _ (Nat.succ_pos 6) (by omega) (by omega),
        length_field, toArray_toList_append]

/-- The bits of items add what they stand for, as long as no more lengths are wanted. -/
theorem pushBits_items (lastBlock : Bool) (taken : Nat) (output : Array UInt8) {sizes : BlockSizes}
    {tree : CodeTree} (branching : ∀ symbol, tree ≠ .leaf symbol) {items : List LengthItem}
    {known : List Nat} (valid : LengthItem.AreValid known items)
    (within : (items.foldl LengthItem.expand known).length ≤ sizes.literals + sizes.distances)
    {words : List (List Bool)}
    (each : items.mapM (fun item => (· ++ item.extraBits) <$> tree.wordOf? item.symbol)
      = some words) :
    (readWordLength ⟨.bad, lastBlock, taken, output⟩ ⟨sizes, tree, known.toArray⟩).pushBits
        words.flatten
      = readWordLength ⟨.bad, lastBlock, taken + words.flatten.length, output⟩
        ⟨sizes, tree, (items.foldl LengthItem.expand known).toArray⟩ := by
  induction items generalizing known taken words with
  | nil =>
    rw [List.mapM_nil] at each
    obtain rfl := Option.some.inj each
    rfl
  | cons item rest ih =>
    obtain ⟨first, others, head, tail, rfl⟩ := exists_of_mapM_cons each
    obtain ⟨word, found, rfl⟩ := Option.map_eq_some_iff.mp head
    -- Each item adds a length, so before the last one some are still wanted.
    have below : known.length < sizes.literals + sizes.distances :=
      Nat.lt_of_lt_of_le valid.1.length_lt
        (Nat.le_trans (LengthItem.length_le_length_expand valid.2) within)
    rw [List.flatten_cons, pushBits_append, pushBits_item _ below branching valid.1 found]
    dsimp only
    rw [ih _ valid.2 within tail]
    simp only [List.length_append, Nat.add_assoc, List.foldl_cons]

/-- The word lengths of the code for items come in one by one. -/
theorem pushBits_listed (lastBlock : Bool) (taken : Nat) (output : Array UInt8) {sizes : BlockSizes}
    (known : List Nat) {listed : List Nat} (most : ∀ length ∈ listed, length ≤ maxItemWord)
    (within : known.length + listed.length ≤ sizes.lengths) :
    (readLengthLength ⟨.bad, lastBlock, taken, output⟩ sizes known).pushBits
        (listed.flatMap (field 3))
      = readLengthLength ⟨.bad, lastBlock, taken + (listed.flatMap (field 3)).length, output⟩ sizes
        (known ++ listed) := by
  induction listed generalizing known taken with
  | nil =>
    rw [List.append_nil]
    rfl
  | cons length rest ih =>
    rw [List.length_cons] at within
    have below : known.length < sizes.lengths := by omega
    have fits : length < 2 ^ 3 := Nat.lt_succ_of_le (most length List.mem_cons_self)
    rw [List.flatMap_cons, pushBits_append, readLengthLength, if_pos below,
      pushBits_field _ _ (Nat.succ_pos 2) fits, takeNumber]
    dsimp only
    rw [ih _ _ (fun other h => most other (List.mem_cons_of_mem _ h)), List.length_append,
      length_field, Nat.add_assoc, List.append_assoc, List.singleton_append]
    rw [List.length_append, List.length_singleton]
    omega

/-- All lengths are known, and both codes can be made of them. -/
theorem readWordLength_of_all {literals distances : List Nat} {codes : BlockCodes}
    {lengths : Nat} {tree : CodeTree} (ends : literals.getD endOfBlock 0 ≠ 0)
    (first : CodeTree.ofLengths? literals true = some codes.literals)
    (second : CodeTree.ofLengths? distances true = some codes.distances) :
    state.readWordLength
        ⟨⟨literals.length, distances.length, lengths⟩, tree, (literals ++ distances).toArray⟩
      = state.readLiteral codes := by
  have all : (literals ++ distances).toArray.size = literals.length + distances.length := by
    rw [List.size_toArray, List.length_append]
  rw [readWordLength]
  dsimp only
  rw [all, if_neg (Nat.lt_irrefl _), if_pos rfl, openBlock]
  dsimp only
  rw [List.take_left, List.drop_left, if_neg ends, first, second]

/-- Three fields in one number tell how many lengths there are of each kind. -/
theorem pushBits_sizes {literals distances lengths : Nat}
    (first : 257 ≤ literals ∧ literals ≤ literalCount)
    (second : 1 ≤ distances ∧ distances ≤ distanceCount) (third : 4 ≤ lengths ∧ lengths ≤ 19) :
    (state.readNumber .sizes 14).pushBits
        (field 5 (literals - 257) ++ field 5 (distances - 1) ++ field 4 (lengths - 4))
      = readLengthLength ⟨.bad, state.lastBlock, state.taken + 14, state.output⟩
        ⟨literals, distances, lengths⟩ [] := by
  have few : literals ≤ 286 := first.2
  have few' : distances ≤ 30 := second.2
  have value : numberOf (field 5 (literals - 257) ++ field 5 (distances - 1) ++ field 4 (lengths - 4))
      = literals - 257 + (distances - 1) * 32 + (lengths - 4) * 1024 := by
    rw [numberOf_append, numberOf_append, numberOf_field_of_lt (by omega),
      numberOf_field_of_lt (by omega), numberOf_field_of_lt (by omega), List.length_append,
      length_field, length_field, Nat.shiftLeft_eq, Nat.shiftLeft_eq]
  have length : (field 5 (literals - 257) ++ field 5 (distances - 1)
      ++ field 4 (lengths - 4)).length = 14 := by
    simp
  generalize field 5 (literals - 257) ++ field 5 (distances - 1) ++ field 4 (lengths - 4) = bits
    at value length ⊢
  have pushed := state.pushBits_readNumber .sizes (Nat.succ_pos 13) length
  rw [value, takeNumber] at pushed
  rw [pushed]
  dsimp only
  have parts : (literals - 257 + (distances - 1) * 32 + (lengths - 4) * 1024) % 32 + 257 = literals
      ∧ (literals - 257 + (distances - 1) * 32 + (lengths - 4) * 1024) / 32 % 32 + 1 = distances
      ∧ (literals - 257 + (distances - 1) * 32 + (lengths - 4) * 1024) / 1024 + 4 = lengths := by
    omega
  rw [parts.1, parts.2.1, parts.2.2, if_pos ⟨few, few'⟩]

/-- A description leaves the reader with the codes that it describes. -/
theorem pushBits_description {literals distances : List Nat} {codes : BlockCodes}
    (sizes : 257 ≤ literals.length ∧ literals.length ≤ literalCount)
    (sizes' : 1 ≤ distances.length ∧ distances.length ≤ distanceCount)
    (most : ∀ length ∈ literals ++ distances, length ≤ CodeTree.maxLength)
    (ends : literals.getD endOfBlock 0 ≠ 0)
    (first : CodeTree.ofLengths? literals true = some codes.literals)
    (second : CodeTree.ofLengths? distances true = some codes.distances) {bits : List Bool}
    (written : descriptionBits? literals distances = some bits) :
    (state.readNumber .sizes 14).pushBits bits
      = readLiteral ⟨.bad, state.lastBlock, state.taken + bits.length, state.output⟩ codes := by
  obtain ⟨lengths, tree, words, size, short, made, each, rfl⟩ := exists_of_descriptionBits? written
  have all : (describe (literals ++ distances)).foldl LengthItem.expand [] = literals ++ distances :=
    (expand_describe [] _).trans (List.nil_append _)
  rw [pushBits_append, pushBits_append, state.pushBits_sizes sizes sizes' (length_listedLengths _),
    pushBits_listed _ _ _ [] (fun _ => le_of_mem_listedLengths short) (Nat.le_of_eq (Nat.zero_add _)),
    List.nil_append, readLengthLength, if_neg (Nat.lt_irrefl _)]
  dsimp only
  rw [map_getD_listedLengths size, made]
  dsimp only
  refine (pushBits_items _ _ _ (CodeTree.ofLengths?_ne_leaf made)
    (LengthItem.areValid_describe most []) ?_ each).trans ?_
  · have size : ((describe (literals ++ distances)).foldl LengthItem.expand []).length
        = literals.length + distances.length := by rw [all, List.length_append]
    exact Nat.le_of_eq size
  · rw [all, readWordLength_of_all _ ends first second]
    have taken : state.taken + 14 + ((listedLengths lengths).flatMap (field 3)).length
          + words.flatten.length
        = state.taken + (field 5 (literals.length - 257) ++ field 5 (distances.length - 1)
          ++ field 4 ((listedLengths lengths).length - 4)
          ++ (listedLengths lengths).flatMap (field 3) ++ words.flatten).length := by
      simp only [List.length_append, length_field]
      omega
    rw [taken]

end Inflate

end PdfFilters

import PdfFilters.Deflate.Alphabet

/-!
# Words in code trees

What a reader needs to know of the words of a code: none is empty, unless the tree is a single leaf
(`CodeTree.wordOf?_ne_nil`), which no tree is that was grown from word lengths
(`CodeTree.ofLengths?_ne_leaf`); and the symbols with a word are those with a length
(`CodeTree.getD_ne_zero_of_wordOf?`). The fixed codes have a word for every symbol.
-/

namespace PdfFilters

namespace CodeTree

theorem wordOf?_ne_nil {tree : CodeTree} (branching : ∀ symbol, tree ≠ .leaf symbol) {symbol : Nat}
    {word : List Bool} (found : tree.wordOf? symbol = some word) : word ≠ [] := by
  rintro rfl
  exact branching symbol (walk_wordOf? found)

/-- The symbols that a branch leaves over are the last ones. -/
theorem grow_suffix (levels depth : Nat) (words : List (Nat × Nat)) :
    (grow levels depth words).2 <:+ words := by
  fun_induction grow levels depth words with
  | case1 => exact List.suffix_rfl
  | case2 depth length symbol rest => exact List.suffix_cons _ rest
  | case3 levels depth length symbol rest short => exact List.suffix_cons _ rest
  | case4 levels depth length symbol rest long zero afterZero first one afterOne second ihZero ihOne =>
    rw [first] at ihZero
    rw [second] at ihOne
    exact ihOne.trans ihZero

theorem eq_of_wordOf?_leaf {other symbol : Nat} {word : List Bool}
    (found : (leaf other).wordOf? symbol = some word) : other = symbol := by
  rw [wordOf?] at found
  split at found
  next same => exact same
  next => cases found

/-- A branch bears no symbols but those it is grown from. -/
theorem mem_of_wordOf?_grow {levels depth : Nat} {words : List (Nat × Nat)} {symbol : Nat}
    {word : List Bool} (found : (grow levels depth words).1.wordOf? symbol = some word) :
    ∃ length, (length, symbol) ∈ words := by
  fun_induction grow levels depth words generalizing word with
  | case1 => cases found
  | case2 depth length other rest =>
    rw [← eq_of_wordOf?_leaf found]
    exact ⟨length, List.mem_cons_self⟩
  | case3 levels depth length other rest short =>
    rw [← eq_of_wordOf?_leaf found]
    exact ⟨length, List.mem_cons_self⟩
  | case4 levels depth length other rest long zero afterZero first one afterOne second ihZero ihOne =>
    rw [first] at ihZero
    rw [second] at ihOne
    have last := grow_suffix levels (depth + 1) ((length, other) :: rest)
    rw [first] at last
    rw [wordOf?, Option.or_eq_some_iff, Option.map_eq_some_iff, Option.map_eq_some_iff] at found
    rcases found with ⟨_, found, -⟩ | ⟨-, _, found, -⟩
    · exact ihZero found
    · -- The second branch is grown from what the first one leaves over.
      obtain ⟨length, h⟩ := ihOne found
      exact ⟨length, last.mem h⟩

/-- A symbol that a branch is grown from is on it, or left over. -/
theorem mem_or_mem_of_grow {levels depth length symbol : Nat} {words : List (Nat × Nat)}
    (h : (length, symbol) ∈ words) :
    (∃ word, (grow levels depth words).1.wordOf? symbol = some word)
      ∨ (length, symbol) ∈ (grow levels depth words).2 := by
  have first_or_rest {length' other : Nat} {rest : List (Nat × Nat)}
      (h : (length, symbol) ∈ (length', other) :: rest) :
      (∃ word, (leaf other).wordOf? symbol = some word) ∨ (length, symbol) ∈ rest := by
    rcases List.mem_cons.mp h with same | h
    · obtain ⟨rfl, rfl⟩ := Prod.mk.inj same
      exact .inl ⟨[], if_pos rfl⟩
    · exact .inr h
  fun_induction grow levels depth words with
  | case1 => cases h
  | case2 => exact first_or_rest h
  | case3 => exact first_or_rest h
  | case4 levels depth length' other rest long zero afterZero first one afterOne second ihZero ihOne =>
    rw [first] at ihZero
    rw [second] at ihOne
    rcases ihZero h with ⟨word, found⟩ | h
    · refine .inl ⟨false :: word, ?_⟩
      rw [wordOf?, found, Option.map_some, Option.some_or]
    · rcases ihOne h with ⟨word, found⟩ | h
      · rw [wordOf?, found]
        cases zero.wordOf? symbol <;> exact .inl ⟨_, rfl⟩
      · exact .inr h

variable {lengths : List Nat} {length symbol : Nat}

theorem mem_ordered :
    (length, symbol) ∈ ordered lengths
      ↔ lengths[symbol]? = some length ∧ 0 < length ∧ length ≤ maxLength := by
  simp only [ordered, List.mem_flatMap, List.mem_filter, decide_eq_true_eq, List.mem_range,
    List.mem_zipIdx_iff_getElem?]
  constructor
  · rintro ⟨shorter, below, listed, rfl⟩
    exact ⟨listed, Nat.succ_pos shorter, below⟩
  · rintro ⟨listed, some, most⟩
    exact ⟨length - 1, by omega, listed, by omega⟩

/-- A tree for word lengths is grown from all the symbols that have one. -/
theorem grow_of_ofLengths? {allowSingle : Bool} {tree : CodeTree}
    (made : ofLengths? lengths allowSingle = some tree) :
    grow maxLength 0 (ordered lengths) = (tree, []) := by
  rw [ofLengths?] at made
  split at made
  next none =>
    rw [none, ← Option.some.inj made]
    rfl
  next =>
    dsimp only at made
    split at made
    next all =>
      rw [← Option.some.inj made, ← all.1]
    next => cases made

/-- A symbol with a word has a length. -/
theorem getD_ne_zero_of_wordOf? {allowSingle : Bool} {tree : CodeTree}
    (made : ofLengths? lengths allowSingle = some tree) {word : List Bool}
    (found : tree.wordOf? symbol = some word) : lengths.getD symbol 0 ≠ 0 := by
  have grown := grow_of_ofLengths? made
  rw [show tree = (grow maxLength 0 (ordered lengths)).1 by rw [grown]] at found
  obtain ⟨length, h⟩ := mem_of_wordOf?_grow found
  obtain ⟨listed, some, -⟩ := mem_ordered.mp h
  rw [List.getD_eq_getElem?_getD, listed]
  exact Nat.ne_of_gt some

/-- A symbol with a length has a word. -/
theorem exists_wordOf? {allowSingle : Bool} {tree : CodeTree}
    (made : ofLengths? lengths allowSingle = some tree) (listed : lengths[symbol]? = some length)
    (least : 0 < length) (most : length ≤ maxLength) : ∃ word, tree.wordOf? symbol = some word := by
  have grown := grow_of_ofLengths? made
  rcases mem_or_mem_of_grow (mem_ordered.mpr ⟨listed, least, most⟩) with found | h
  · rwa [grown] at found
  · rw [grown] at h
    cases h

theorem exists_wordOf?_of_forall {allowSingle : Bool} {tree : CodeTree}
    (made : ofLengths? lengths allowSingle = some tree)
    (all : ∀ length ∈ lengths, 0 < length ∧ length ≤ maxLength) (below : symbol < lengths.length) :
    ∃ word, tree.wordOf? symbol = some word := by
  obtain ⟨least, most⟩ := all _ (List.getElem_mem below)
  exact exists_wordOf? made (List.getElem?_eq_getElem below) least most

/-- Every word that is asked for has a length, so there is a branch at the root. -/
theorem ofLengths?_ne_leaf {allowSingle : Bool} {tree : CodeTree}
    (made : ofLengths? lengths allowSingle = some tree) (symbol : Nat) : tree ≠ .leaf symbol := by
  have grown := grow_of_ofLengths? made
  cases words : ordered lengths with
  | nil =>
    rw [words] at grown
    rw [← (Prod.mk.inj grown).1]
    nofun
  | cons word rest =>
    obtain ⟨length, first⟩ := word
    -- No word is empty, so the first symbol does not sit at the root.
    have some := (mem_ordered.mp (words ▸ List.mem_cons_self)).2.1
    rw [words, maxLength, grow, if_neg (Nat.not_le_of_gt some)] at grown
    rw [← (Prod.mk.inj grown).1]
    nofun

end CodeTree

theorem ofLengths?_fixedLiteralLengths :
    CodeTree.ofLengths? fixedLiteralLengths false = some fixedCodes.literals := by
  have made : (CodeTree.ofLengths? fixedLiteralLengths false).isSome := by decide +kernel
  obtain ⟨tree, made⟩ := Option.isSome_iff_exists.mp made
  rw [fixedCodes, made]
  rfl

theorem ofLengths?_fixedDistanceLengths :
    CodeTree.ofLengths? fixedDistanceLengths false = some fixedCodes.distances := by
  have made : (CodeTree.ofLengths? fixedDistanceLengths false).isSome := by decide +kernel
  obtain ⟨tree, made⟩ := Option.isSome_iff_exists.mp made
  rw [fixedCodes, made]
  rfl

theorem exists_wordOf?_literals {symbol : Nat} (below : symbol < literalCount) :
    ∃ word, fixedCodes.literals.wordOf? symbol = some word := by
  have all : ∀ length ∈ fixedLiteralLengths, 0 < length ∧ length ≤ CodeTree.maxLength := by
    decide +kernel
  exact CodeTree.exists_wordOf?_of_forall ofLengths?_fixedLiteralLengths all
    (Nat.lt_of_lt_of_le below (by decide +kernel))

theorem exists_wordOf?_distances {symbol : Nat} (below : symbol < distanceCount) :
    ∃ word, fixedCodes.distances.wordOf? symbol = some word := by
  have all : ∀ length ∈ fixedDistanceLengths, 0 < length ∧ length ≤ CodeTree.maxLength := by
    decide +kernel
  exact CodeTree.exists_wordOf?_of_forall ofLengths?_fixedDistanceLengths all
    (Nat.lt_of_lt_of_le below (by decide))

end PdfFilters

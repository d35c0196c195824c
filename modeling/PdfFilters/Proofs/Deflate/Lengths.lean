import PdfFilters.Deflate.Description

/-!
# The lists of word lengths

However the lengths of words are chosen, there is one for every symbol (`length_wordLengths`), and
none is beyond the limit (`le_of_mem_wordLengths`). Zeros that are left out at the end of a list
are still what is found there (`getD_trimZeros`).
-/

namespace PdfFilters

/-! ## Counts by length -/

theorem length_lengthen (longer : Nat) (rest : List Nat) :
    (lengthen longer rest).length = rest.length + 1 := by
  induction rest generalizing longer with
  | nil => rfl
  | cons count rest ih =>
    rw [lengthen]
    split
    · rw [List.length_cons, ih, List.length_cons]
    · rfl

theorem length_takeOff (excess : Nat) (counts : List Nat) :
    (takeOff excess counts).length = counts.length := by
  induction excess generalizing counts with
  | zero => rfl
  | succ excess ih =>
    cases counts with
    | nil => rfl
    | cons longest rest => rw [takeOff, ih, length_lengthen, List.length_cons]

theorem length_shorten (limit : Nat) (counts : List Nat) : (shorten limit counts).length = limit := by
  have capped : ((counts ++ List.replicate limit 0).take limit).reverse.length = limit := by
    rw [List.length_reverse, List.length_take, List.length_append, List.length_replicate]
    omega
  rw [shorten]
  split
  next none =>
    rw [none] at capped
    exact capped
  next longest rest some =>
    rw [some] at capped
    rw [List.length_reverse, length_takeOff]
    exact capped

theorem length_lengthCounts_le {limit : Nat} (some : 0 < limit) (counts : List Nat) :
    (lengthCounts limit counts).length ≤ limit := by
  rw [lengthCounts.eq_def]
  split
  · exact Nat.zero_le limit
  · exact some
  · exact Nat.le_of_eq (length_shorten _ _)

theorem le_of_mem_spread {counts : List Nat} {length : Nat} (h : length ∈ spread counts) :
    length ≤ counts.length := by
  simp only [spread, List.mem_flatMap] at h
  obtain ⟨⟨count, length'⟩, listed, h⟩ := h
  obtain rfl := (List.mem_replicate.mp h).2
  have := List.snd_lt_of_mem_zipIdx listed
  omega

/-! ## Lengths by symbol -/

section Dealing

variable {dealt : List (Nat × Nat)} {known : Array Nat}

theorem size_deal :
    (dealt.foldl (fun known (symbol, length) => known.setIfInBounds symbol length) known).size
      = known.size := by
  induction dealt generalizing known with
  | nil => rfl
  | cons card rest ih => exact ih.trans Array.size_setIfInBounds

theorem le_of_mem_deal {bound : Nat} (most : ∀ card ∈ dealt, card.2 ≤ bound)
    (sofar : ∀ length ∈ known, length ≤ bound) :
    ∀ length ∈ dealt.foldl (fun known (symbol, length) => known.setIfInBounds symbol length) known,
      length ≤ bound := by
  induction dealt generalizing known with
  | nil => exact sofar
  | cons card rest ih =>
    refine ih (fun card h => most card (List.mem_cons_of_mem _ h)) ?_
    intro length h
    rcases Array.mem_or_eq_of_mem_setIfInBounds h with h | rfl
    · exact sofar length h
    · exact most card List.mem_cons_self

end Dealing

theorem length_wordLengths (limit : Nat) (counts : List Nat) :
    (wordLengths limit counts).length = counts.length := by
  rw [wordLengths, Array.length_toList, size_deal, Array.size_replicate]

theorem le_of_mem_wordLengths {limit : Nat} (some : 0 < limit) {counts : List Nat} {length : Nat}
    (h : length ∈ wordLengths limit counts) : length ≤ limit := by
  rw [wordLengths, Array.mem_toList_iff] at h
  refine le_of_mem_deal ?_ ?_ length h
  · intro card h
    exact Nat.le_trans (le_of_mem_spread (List.of_mem_zip h).2) (length_lengthCounts_le some _)
  · intro length h
    rw [(Array.mem_replicate.mp h).2]
    exact Nat.zero_le limit

theorem length_countSymbols (bound : Nat) (symbols : List Nat) :
    (countSymbols bound symbols).length = bound := by
  rw [countSymbols, Array.length_toList]
  have size (counts : Array Nat) :
      (symbols.foldl (fun counts symbol => counts.modify symbol (· + 1)) counts).size
        = counts.size := by
    induction symbols generalizing counts with
    | nil => rfl
    | cons symbol rest ih => exact (ih _).trans (Array.size_modify ..)
  rw [size, Array.size_replicate]

/-- A bound of some numbers is one of what is found at any place. -/
theorem getD_le_of_forall {bound : Nat} {numbers : List Nat}
    (most : ∀ number ∈ numbers, number ≤ bound) (index : Nat) : numbers.getD index 0 ≤ bound := by
  rw [List.getD_eq_getElem?_getD]
  cases there : numbers[index]? with
  | none => exact Nat.zero_le bound
  | some number => exact most number (List.mem_of_getElem? there)

/-! ## Zeros at the end -/

theorem length_trimZeros_le (least : Nat) (numbers : List Nat) :
    (trimZeros least numbers).length ≤ numbers.length := by
  rw [trimZeros, List.length_take]
  exact Nat.min_le_right _ _

theorem le_length_trimZeros {least : Nat} {numbers : List Nat} (enough : least ≤ numbers.length) :
    least ≤ (trimZeros least numbers).length := by
  rw [trimZeros, List.length_take]
  omega

theorem mem_of_mem_trimZeros {least number : Nat} {numbers : List Nat}
    (h : number ∈ trimZeros least numbers) : number ∈ numbers :=
  List.mem_of_mem_take h

/-- The word lengths of a code that suits some symbols, as a block describes it. -/
theorem trimZeros_wordLengths {least bound limit : Nat} (enough : least ≤ bound) (some : 0 < limit)
    (symbols : List Nat) :
    (least ≤ (trimZeros least (wordLengths limit (countSymbols bound symbols))).length
        ∧ (trimZeros least (wordLengths limit (countSymbols bound symbols))).length ≤ bound)
      ∧ ∀ length ∈ trimZeros least (wordLengths limit (countSymbols bound symbols)),
          length ≤ limit := by
  have size : (wordLengths limit (countSymbols bound symbols)).length = bound := by
    rw [length_wordLengths, length_countSymbols]
  refine ⟨⟨le_length_trimZeros (by omega), ?_⟩, ?_⟩
  · exact Nat.le_trans (length_trimZeros_le least _) (Nat.le_of_eq size)
  · intro length h
    exact le_of_mem_wordLengths some (mem_of_mem_trimZeros h)

/-- What is left out at the end are zeros. -/
theorem getD_trimZeros (least : Nat) (numbers : List Nat) (index : Nat) :
    (trimZeros least numbers).getD index 0 = numbers.getD index 0 := by
  simp only [trimZeros, List.getD_eq_getElem?_getD, List.getElem?_take]
  split
  next => rfl
  next outside =>
    have parts : numbers = (numbers.reverse.dropWhile (· = 0)).reverse
        ++ (numbers.reverse.takeWhile (· = 0)).reverse := by
      rw [← List.reverse_append, List.takeWhile_append_dropWhile, List.reverse_reverse]
    -- Beyond what is kept there are only the zeros that were taken off.
    have right : (numbers.reverse.dropWhile (· = 0)).reverse.length ≤ index := by
      rw [List.length_reverse]
      omega
    rw [parts, List.getElem?_append_right right]
    generalize index - _ = index
    cases there : (numbers.reverse.takeWhile (· = 0)).reverse[index]? with
    | none => rfl
    | some number =>
      have h := List.mem_reverse.mp (List.mem_of_getElem? there)
      have zero := List.all_eq_true.mp List.all_takeWhile number h
      exact (of_decide_eq_true zero).symm

end PdfFilters

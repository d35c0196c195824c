import PdfFilters.Proofs.RoundTrip

/-!
# The same base-85 text in other words

Blanks may be put into a text anywhere, and every zero group may be written out in digits
(`Base85.IsVariant`). A variant of a row of texts is a row of their variants
(`Base85.IsVariant.exists_append`). In a group only the short form of a zero group can change, and
the five digits it changes to stand for the same bytes (`Base85.AreGroups.variant`). So a variant
stands for the same bytes as the text (`Base85.StandsFor.variant`).

The writer's text stands for the data, and the end mark may be missing or be followed by anything.
Hence each way of writing that text is read as the data again, however the data and the text are cut
into blocks (`Filter.runBlocks_base85`).
-/

namespace PdfFilters

namespace Base85

/-- The same text in other words: blanks are put in, and zero groups are written out in digits, maybe
with blanks among them. -/
inductive IsVariant : List UInt8 → List UInt8 → Prop
  | nil : IsVariant [] []
  | keep (byte : UInt8) {text other : List UInt8} (rest : IsVariant text other) :
      IsVariant (byte :: text) (byte :: other)
  | blank {byte : UInt8} (isBlank : byte ∈ blanks) {text other : List UInt8}
      (rest : IsVariant text other) : IsVariant text (byte :: other)
  | zero {five : List UInt8} (zeros : letters five = List.replicate 5 0x21)
      {text other : List UInt8} (rest : IsVariant text other) :
      IsVariant (0x7A :: text) (five ++ other)

namespace IsVariant

/-- Blanks that are in the text already need not be kept. -/
theorem of_letters {text other : List UInt8} (variant : IsVariant text other) :
    IsVariant (letters text) other := by
  induction variant with
  | nil => exact .nil
  | keep byte rest ih =>
    by_cases blank : byte ∈ blanks
    · rw [letters_cons_of_blank blank]
      exact .blank blank ih
    · rw [letters_cons_of_solid blank]
      exact .keep byte ih
  | blank isBlank rest ih => exact .blank isBlank ih
  | zero zeros rest ih => exact .zero zeros ih

/-- A variant of one text after another is made of a variant of each. -/
theorem exists_append {first second other : List UInt8} (variant : IsVariant (first ++ second) other) :
    ∃ left right, other = left ++ right ∧ IsVariant first left ∧ IsVariant second right := by
  generalize whole_eq : first ++ second = whole at variant
  induction variant generalizing first with
  | nil =>
    obtain ⟨rfl, rfl⟩ := List.append_eq_nil_iff.mp whole_eq
    exact ⟨[], [], rfl, .nil, .nil⟩
  | @keep byte text other rest ih =>
    cases first with
    | nil =>
      refine ⟨[], byte :: other, rfl, .nil, ?_⟩
      rw [List.nil_append] at whole_eq
      rw [whole_eq]
      exact .keep byte rest
    | cons head tail =>
      obtain ⟨rfl, rfl⟩ := List.cons.inj whole_eq
      obtain ⟨left, right, rfl, first, second⟩ := ih rfl
      exact ⟨head :: left, right, rfl, .keep head first, second⟩
  | @blank byte isBlank text other rest ih =>
    obtain ⟨left, right, rfl, first, second⟩ := ih whole_eq
    exact ⟨byte :: left, right, rfl, .blank isBlank first, second⟩
  | @zero five zeros text other rest ih =>
    cases first with
    | nil =>
      refine ⟨[], five ++ other, rfl, .nil, ?_⟩
      rw [List.nil_append] at whole_eq
      rw [whole_eq]
      exact .zero zeros rest
    | cons head tail =>
      obtain ⟨rfl, rfl⟩ := List.cons.inj whole_eq
      obtain ⟨left, right, rfl, first, second⟩ := ih rfl
      exact ⟨five ++ left, right, (List.append_assoc ..).symm, .zero zeros first, second⟩

/-- Without zero groups, only blanks can be put in. -/
theorem letters_eq {text other : List UInt8} (variant : IsVariant text other)
    (digits : ∀ digit ∈ text, IsDigit digit) : letters other = text := by
  induction variant with
  | nil => rfl
  | keep byte rest ih =>
    rw [letters_cons_of_solid (digits byte List.mem_cons_self).solid,
      ih fun digit h => digits digit (List.mem_cons_of_mem _ h)]
  | blank isBlank rest ih => rw [letters_cons_of_blank isBlank, ih digits]
  | zero zeros rest ih =>
    have notDigit : ¬ IsDigit 0x7A := by decide
    exact absurd (digits 0x7A List.mem_cons_self) notDigit

/-- The digits of a zero group that is written out. -/
theorem isGroup_zeros : IsGroup (List.replicate 5 0x21) [0, 0, 0, 0] := by
  refine IsGroup.five rfl ?_ ⟨rfl, rfl⟩
  intro digit h
  rw [List.eq_of_mem_replicate h]
  decide

theorem isGroup_zero {text other : List UInt8} (variant : IsVariant text other)
    (short : text = [0x7A]) : IsGroup (letters other) [0, 0, 0, 0] := by
  induction variant with
  | nil => cases short
  | keep byte rest ih =>
    obtain ⟨rfl, rfl⟩ := List.cons.inj short
    rw [letters_cons_of_solid (by decide), rest.letters_eq (List.forall_mem_nil _)]
    exact .zero
  | blank isBlank rest ih =>
    rw [letters_cons_of_blank isBlank]
    exact ih short
  | zero zeros rest ih =>
    obtain ⟨_, rfl⟩ := List.cons.inj short
    rw [letters_append, zeros, rest.letters_eq (List.forall_mem_nil _), List.append_nil]
    exact isGroup_zeros

end IsVariant

theorem IsGroup.variant {group four other : List UInt8} (isGroup : IsGroup group four)
    (variant : IsVariant group other) : IsGroup (letters other) four := by
  cases isGroup with
  | zero => exact variant.isGroup_zero rfl
  | five five digits areBytes =>
    rw [variant.letters_eq digits]
    exact .five five digits areBytes

theorem AreGroups.variant {whole output other : List UInt8} (groups : AreGroups whole output)
    (variant : IsVariant whole other) : AreGroups (letters other) output := by
  induction groups generalizing other with
  | nil =>
    rw [variant.letters_eq (List.forall_mem_nil _)]
    exact .nil
  | cons first others ih =>
    obtain ⟨left, right, rfl, variant, variants⟩ := variant.exists_append
    rw [letters_append]
    exact .cons (first.variant variant) (ih variants)

theorem IsOpen.variant {text output tail other : List UInt8} (opened : IsOpen text output tail)
    (variant : IsVariant text other) : IsOpen other output tail := by
  obtain ⟨⟨whole, groups, letters_eq⟩, few, digits⟩ := opened
  have variant := variant.of_letters
  rw [letters_eq] at variant
  obtain ⟨left, right, rfl, front, back⟩ := variant.exists_append
  refine ⟨⟨letters left, groups.variant front, ?_⟩, few, digits⟩
  rw [letters_append, back.letters_eq digits]

/-- A text in other words stands for the same bytes. -/
theorem StandsFor.variant {text data other : List UInt8} (stands : StandsFor text data)
    (variant : IsVariant text other) : StandsFor other data := by
  cases stands with
  | single opened single => exact .single (opened.variant variant) single
  | several opened several areBytes => exact .several (opened.variant variant) several areBytes

end Base85

namespace Filter

open Base85 in
/-- The base-85 filter reads what it has written, however the data and the text are cut into blocks,
and also in other words: with blanks anywhere before the end mark, with zero groups written out, and
without the end mark or with anything behind it. -/
theorem runBlocks_base85 [Host] (blocks : List (List UInt8)) :
    ∃ body : List UInt8, (∀ state parameters accepted failure,
        (base85 state).runBlocks .encode parameters blocks (.endless accepted failure)
          = ⟨base85 .idle, .endless (accepted ++ (body ++ [0x7E, 0x3E])) failure, .ok ()⟩)
      ∧ ∀ other ending pieces, IsVariant body other → IsEnding ending →
        pieces.flatten = other ++ ending → ∀ state parameters accepted failure,
        (base85 state).runBlocks .decode parameters pieces (.endless accepted failure)
          = ⟨base85 .idle, .endless (accepted ++ blocks.flatten) failure, .ok ()⟩ := by
  obtain ⟨body, written, stands⟩ := exists_run_encode_base85 blocks.flatten
  refine ⟨body, ?_, ?_⟩
  · intro state parameters accepted failure
    exact runBlocks_of_run (written state parameters) trivial accepted failure
  · intro other ending pieces variant ends cut state parameters accepted failure
    have ran : ((base85 state).run .decode parameters pieces.flatten).2 = .ok blocks.flatten := by
      rw [cut]
      exact run_of_spells (.mk (stands.variant variant) ends) state parameters
    exact runBlocks_of_run ran trivial accepted failure

open Base85 in
/-- A zero group and one more zero byte: the group is written out with a line feed in it, a blank comes
behind it, and the end mark is missing. -/
theorem runBlocks_base85_zeros :
    ((base85 .idle).runBlocks .encode none [[0, 0, 0], [0, 0]] (.endless #[] .stalled)).sink.accepted
        = #[0x7A, 0x21, 0x21, 0x7E, 0x3E]
      ∧ (IsVariant [0x7A, 0x21, 0x21] [0x21, 0x21, 0x0A, 0x21, 0x21, 0x21, 0x20, 0x21, 0x21]
        ∧ IsEnding [])
      ∧ (base85 .idle).runBlocks .decode none
          [[0x21, 0x21, 0x0A], [0x21, 0x21, 0x21, 0x20, 0x21], [], [0x21]] (.endless #[] .stalled)
        = ⟨base85 .idle, .endless ((#[] : Array UInt8) ++ ([0, 0, 0, 0, 0] : List UInt8)) .stalled,
          .ok ()⟩ := by
  obtain ⟨body, writes, reads⟩ := runBlocks_base85 [[0, 0, 0], [0, 0]]
  have written : ((base85 .idle).runBlocks .encode none [[0, 0, 0], [0, 0]]
      (.endless #[] .stalled)).sink.accepted = #[0x7A, 0x21, 0x21, 0x7E, 0x3E] := by
    decide +kernel
  have body_eq : body = [0x7A, 0x21, 0x21] := by
    have same : (#[] : Array UInt8) ++ (body ++ [0x7E, 0x3E])
        = #[0x7A, 0x21, 0x21, 0x7E, 0x3E] := by
      rw [writes] at written
      exact written
    have same : body ++ [0x7E, 0x3E] = [0x7A, 0x21, 0x21] ++ [0x7E, 0x3E] := by
      simpa using congrArg Array.toList same
    exact List.append_cancel_right same
  have five : letters [0x21, 0x21, 0x0A, 0x21, 0x21, 0x21] = List.replicate 5 0x21 := rfl
  have variant : IsVariant [0x7A, 0x21, 0x21]
      [0x21, 0x21, 0x0A, 0x21, 0x21, 0x21, 0x20, 0x21, 0x21] :=
    .zero five (.blank (by decide) (.keep 0x21 (.keep 0x21 .nil)))
  rw [← body_eq] at variant ⊢
  exact ⟨written, ⟨variant, .inl rfl⟩, reads _ _ _ variant (.inl rfl) rfl _ _ _ _⟩

end Filter

end PdfFilters

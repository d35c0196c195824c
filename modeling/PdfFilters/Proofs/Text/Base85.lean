import PdfFilters.Proofs.Text.Grammar

/-!
# What is written in base 85 stands for the data

The digits of a number come to it again (`Base85.value_take_digits`), so a whole group is written as a
group that stands for it (`Base85.isGroup_groupText`). Of the number of a last group some digits are
missing, and filling them up changes it only below the bytes that it holds (`Base85.padded_div`).

Writing keeps that the text so far is read as the whole groups so far (`Base85.Wrote`), and nothing
but whole groups is read like that (`Base85.isOpen_of_reads`). With the digits that are written at the
end, the text stands for all the data (`Base85.exists_standsFor`).
-/

namespace PdfFilters

namespace Base85

/-! ## Digits -/

/-- What the first digits of a number come to. -/
def kept (value count : Nat) : Nat := value / 85 ^ (5 - count) * 85 ^ (5 - count)

/-- The next digit of a number. -/
theorem kept_succ (value : Nat) {count : Nat} (few : count < 5) :
    kept value (count + 1) = kept value count + value / 85 ^ (4 - count) % 85 * 85 ^ (4 - count) := by
  have places : 85 ^ (5 - count) = 85 ^ (4 - count) * 85 := by
    rw [show 5 - count = 4 - count + 1 by omega, Nat.pow_succ]
  rw [kept, kept, show 5 - (count + 1) = 4 - count by omega, places, ← Nat.div_div_eq_div_mul]
  generalize value / 85 ^ (4 - count) = quotient
  rw [Nat.mul_left_comm, Nat.mul_comm (85 ^ (4 - count)), ← Nat.add_mul]
  congr 1
  omega

theorem kept_zero {value : Nat} (small : value ≤ maxGroup) : kept value 0 = 0 := by
  rw [kept, Nat.div_eq_of_lt (Nat.lt_of_le_of_lt small (by decide)), Nat.zero_mul]

theorem kept_five (value : Nat) : kept value 5 = value := by
  rw [kept, Nat.sub_self, Nat.pow_zero, Nat.div_one, Nat.mul_one]

theorem digit_spec {digit : Nat} (below : digit < 85) :
    IsDigit (UInt8.ofNat digit + zeroDigit)
      ∧ (UInt8.ofNat digit + zeroDigit - 0x21).toNat = digit := by
  have each : ∀ digit : Fin 85, IsDigit (UInt8.ofNat digit + zeroDigit)
      ∧ (UInt8.ofNat digit + zeroDigit - 0x21).toNat = digit := by
    decide +kernel
  exact each ⟨digit, below⟩

theorem take_succ_digits (value : Nat) {count : Nat} (few : count < 5) :
    (digits value).take (count + 1)
      = (digits value).take count ++ [UInt8.ofNat (value / 85 ^ (4 - count) % 85) + zeroDigit] := by
  match count with
  | 0 | 1 | 2 | 3 | 4 => rfl

/-- The first digits of a number come to what is kept of it. -/
theorem value_take_digits {value : Nat} (small : value ≤ maxGroup) {count : Nat} (few : count ≤ 5) :
    ((digits value).take count).length = count
      ∧ Base85.value ((digits value).take count) = kept value count
      ∧ ∀ digit ∈ (digits value).take count, IsDigit digit := by
  induction count with
  | zero =>
    rw [kept_zero small]
    exact ⟨rfl, rfl, List.forall_mem_nil _⟩
  | succ count ih =>
    obtain ⟨length, total, valid⟩ := ih (Nat.le_of_succ_le few)
    obtain ⟨isDigit, read⟩ := digit_spec (Nat.mod_lt (value / 85 ^ (4 - count)) (Nat.succ_pos 84))
    rw [take_succ_digits value few]
    refine ⟨?_, ?_, ?_⟩
    · rw [List.length_append, List.length_singleton, length]
    · rw [value_concat, total, length, read, kept_succ value few]
    · exact List.forall_mem_append.mpr ⟨valid, List.forall_mem_singleton.mpr isDigit⟩

/-! ## Whole groups -/

/-- Between two groups, a reader puts out these bytes for the text. -/
def Reads (text bytes : List UInt8) : Prop :=
  ∀ offset output, ∃ further, scan step ⟨0, 0, false, false, offset⟩ output text
    = (⟨0, 0, false, false, further⟩, output ++ bytes, .ok ())

/-- Only whole groups are read like that. -/
theorem isOpen_of_reads {text bytes : List UInt8} (reads : Reads text bytes) :
    IsOpen text bytes [] := by
  obtain ⟨further, read⟩ := reads 0 #[]
  have ended : decoded text = ⟨bytes, .ok idle⟩ := by
    rw [decoded_of_scan read]
    show Emission.mk (((#[] : Array UInt8) ++ bytes).toList ++ []) _ = _
    rw [Array.toList_appendList, List.append_nil]
    rfl
  rcases exists_spells_or_firstFlaw text with ⟨output, spells⟩ | ⟨offset, flaw, first⟩
  · obtain @⟨front, _, ending, stands, ends⟩ := spells
    obtain ⟨produced, tail, opened⟩ : ∃ produced tail, IsOpen front produced tail := by
      cases stands with
      | single opened single => exact ⟨_, _, opened⟩
      | several opened several areBytes => exact ⟨_, _, opened⟩
    rcases ends with rfl | ⟨ignored, rfl⟩
    · -- A reader that holds no digits has read none behind the last group.
      have same := (opened.scan_front []).symm.trans read
      have between : tail.length = 0 := congrArg (fun answer => answer.1.count) same
      have output : produced.toArray = (#[] : Array UInt8) ++ bytes :=
        congrArg (fun answer => answer.2.1) same
      have output : produced = bytes := by simpa using congrArg Array.toList output
      rw [List.append_nil, ← output, ← List.length_eq_zero_iff.mp between]
      exact opened
    · have finished := (opened.scan_front _).symm.trans read
      have same := (scan_finished _ _ _ _ ignored).symm.trans finished
      cases congrArg (fun answer => answer.1.finished) same
  · have refused := first.output_decoded
    rw [ended] at refused
    cases refused

theorem Reads.append {text text' bytes bytes' : List UInt8} (first : Reads text bytes)
    (second : Reads text' bytes') : Reads (text ++ text') (bytes ++ bytes') := by
  intro offset output
  obtain ⟨between, first⟩ := first offset output
  obtain ⟨further, second⟩ := second between (output ++ bytes)
  refine ⟨further, ?_⟩
  rw [scan_append, first]
  dsimp only
  rw [second, Sink.append_append]

/-- Four bytes are written as a group that stands for them, in digits or as a zero group. -/
theorem isGroup_groupText {group : List UInt8} (four : group.length = 4) :
    IsGroup (groupText (groupOf group) 4) group := by
  have small := le_maxGroup (Nat.le_of_eq four) (groupOf_div group)
  have back : bytes (groupOf group) = group := by
    have taken := take_bytes (Nat.le_of_eq four) (groupOf_div group)
    rw [four] at taken
    exact taken
  rw [groupText, Nat.mod_eq_of_lt (Nat.lt_succ_of_le small)]
  split
  next zero =>
    rw [zero.2] at back
    rw [← back]
    exact .zero
  next =>
    obtain ⟨length, total, valid⟩ := value_take_digits small (Nat.le_refl 5)
    rw [kept_five] at total
    have areBytes : AreBytes (value ((digits (groupOf group)).take 5)) group := by
      rw [total]
      exact areBytes_iff.mpr ⟨small, back.symm⟩
    exact .five length valid areBytes

theorem reads_groupText {group : List UInt8} (four : group.length = 4) :
    Reads (groupText (groupOf group) 4) group := by
  intro offset output
  have isGroup := isGroup_groupText four
  exact ⟨_, isGroup.scan_eq offset output isGroup.letters_eq⟩

/-- A writer that was given some bytes has written their whole groups, and holds the others. -/
def Wrote (data : List UInt8) (writer : Base85) (text : List UInt8) : Prop :=
  ∃ groups tail, data = groups ++ tail ∧ tail.length < 4
    ∧ writer = ⟨groupOf tail, tail.length, false, false, 0⟩ ∧ Reads text groups

theorem wrote_nil : Wrote [] idle [] :=
  ⟨[], [], rfl, Nat.succ_pos 3, rfl, fun offset _ => ⟨offset, by rw [Array.appendList_nil]; rfl⟩⟩

theorem Wrote.step {data text : List UInt8} {writer : Base85} (wrote : Wrote data writer text)
    (byte : UInt8) :
    ∃ next more, encodeStep writer byte = (next, .ok more)
      ∧ Wrote (data ++ [byte]) next (text ++ more) := by
  obtain ⟨groups, tail, rfl, few, rfl, reads⟩ := wrote
  have length : (tail ++ [byte]).length = tail.length + 1 := by
    rw [List.length_append, List.length_singleton]
  rw [encodeStep]
  dsimp only
  rw [groupOf_concat few]
  split
  next full =>
    refine ⟨_, _, rfl, groups ++ (tail ++ [byte]), [], ?_, Nat.succ_pos 3, rfl, ?_⟩
    · rw [List.append_nil, List.append_assoc]
    · exact reads.append (reads_groupText (length.trans full))
  next =>
    refine ⟨_, _, rfl, groups, tail ++ [byte], List.append_assoc .., ?_, ?_, ?_⟩
    · omega
    · rw [length]
    · rwa [List.append_nil]

theorem Wrote.scan {data : List UInt8} {writer : Base85} {output : Array UInt8}
    (wrote : Wrote data writer output.toList) (more : List UInt8) :
    ∃ next text, PdfFilters.scan encodeStep writer output more = (next, text, .ok ())
      ∧ Wrote (data ++ more) next text.toList := by
  induction more generalizing data writer output with
  | nil =>
    refine ⟨writer, output, rfl, ?_⟩
    rwa [List.append_nil]
  | cons byte rest ih =>
    obtain ⟨next, more, taken, wrote⟩ := wrote.step byte
    rw [PdfFilters.scan, taken]
    dsimp only
    have wrote : Wrote (data ++ [byte]) next (output ++ more).toList := by
      rwa [Array.toList_appendList]
    obtain ⟨last, text, scanned, wrote⟩ := ih wrote
    refine ⟨last, text, scanned, ?_⟩
    rwa [List.append_assoc, List.singleton_append] at wrote

/-! ## The last group -/

/-- Padding a last group changes its number only below the bytes that it holds. -/
theorem padded_div {tail : List UInt8} (few : tail.length < 4) :
    (kept (groupOf tail) (tail.length + 1) + (85 ^ (4 - tail.length) - 1)) / 2 ^ (32 - 8 * tail.length)
      = number tail := by
  have light : 0 < 85 ^ (4 - tail.length)
      ∧ 85 ^ (4 - tail.length) ≤ 2 ^ (32 - 8 * tail.length) := by
    generalize tail.length = count at few
    match count with
    | 0 | 1 | 2 | 3 => decide
  rw [kept, groupOf, Nat.shiftLeft_eq, show 5 - (tail.length + 1) = 4 - tail.length by omega]
  generalize 85 ^ (4 - tail.length) = weight at light ⊢
  generalize 2 ^ (32 - 8 * tail.length) = place at light ⊢
  -- Rounding down to the weight takes off less than the weight, and the padding adds one less than
  -- it. So the sum is not below the group, and less than a place above it.
  have whole := Nat.div_add_mod (number tail * place) weight
  have rest := Nat.mod_lt (number tail * place) light.1
  rw [Nat.mul_comm weight] at whole
  apply Nat.div_eq_of_lt_le
  · omega
  · rw [Nat.succ_mul]
    omega

/-- The text of the bytes that do not fill a group, and the end mark. -/
def lastText (tail : List UInt8) : List UInt8 :=
  (if tail.length = 0 then [] else groupText (groupOf tail) tail.length) ++ [tilde, closing]

/-- Behind whole groups, the digits that are written at the end stand for the bytes that do not fill
a group. -/
theorem exists_lastText_eq {tail : List UInt8} (few : tail.length < 4) :
    ∃ last, lastText tail = last ++ [tilde, closing]
      ∧ ∀ {text groups}, IsOpen text groups [] → StandsFor (text ++ last) (groups ++ tail) := by
  unfold lastText
  by_cases none : tail.length = 0
  · rw [if_pos none, List.length_eq_zero_iff.mp none]
    refine ⟨[], rfl, ?_⟩
    intro text groups opened
    rw [List.append_nil, List.append_nil]
    exact .single opened (Nat.zero_le 1)
  · have small := le_maxGroup (Nat.le_of_lt few) (groupOf_div tail)
    -- There is no short form for fewer than four bytes.
    have short : ¬ (tail.length = 4 ∧ groupOf tail = 0) := fun full => Nat.ne_of_lt few full.1
    obtain ⟨length, total, valid⟩ := value_take_digits small (Nat.succ_le_succ (Nat.le_of_lt few))
    rw [if_neg none, groupText, Nat.mod_eq_of_lt (Nat.lt_succ_of_le small), if_neg short]
    generalize (digits (groupOf tail)).take (tail.length + 1) = last at length total valid
    have above : value (padded last) / 2 ^ (32 - 8 * tail.length) = number tail := by
      rw [value_padded last (by omega), total, length,
        show 5 - (tail.length + 1) = 4 - tail.length by omega]
      exact padded_div few
    have areBytes := areBytes_iff.mpr ⟨le_maxGroup (Nat.le_of_lt few) above, rfl⟩
    refine ⟨last, rfl, ?_⟩
    intro text groups opened
    have stands := StandsFor.several (opened.digits_append rfl (by omega) valid) (by omega) areBytes
    rwa [length, Nat.succ_sub_one, take_bytes (Nat.le_of_lt few) above] at stands

/-- What is written for some bytes stands for them, up to the end mark. -/
theorem exists_standsFor (data : List UInt8) :
    ∃ text writer last, scanned encodeStep idle data = ⟨text, .ok writer⟩
      ∧ writer.closingText = ⟨last ++ [tilde, closing], .ok idle⟩ ∧ StandsFor (text ++ last) data := by
  have none : Wrote [] idle (#[] : Array UInt8).toList := wrote_nil
  obtain ⟨writer, text, written, groups, tail, parts, few, rfl, reads⟩ := none.scan data
  obtain ⟨last, closed, stands⟩ := exists_lastText_eq few
  have parts : data = groups ++ tail := parts
  refine ⟨text.toList, _, last, by rw [scanned, written], ?_, ?_⟩
  · rw [← closed]
    rfl
  · rw [parts]
    exact stands (isOpen_of_reads reads)

end Base85

end PdfFilters

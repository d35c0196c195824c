import PdfFilters.Proofs.Session
import PdfFilters.Proofs.Text.Numbers

/-!
# The rules of base-85 text

Up to its end mark, a text without its blanks is a row of whole groups and the digits of a group that
has begun (`Base85.IsOpen`). Either it goes on like this to its end (`Base85.Spells`), or there is a
first place where it does not (`Base85.FirstFlaw`): every text is one or the other
(`Base85.exists_spells_or_firstFlaw`).

After a text that is in order so far, a reader has put out the bytes of the whole groups and knows
the number of the digits that follow (`Base85.IsOpen.scan_eq`). So it accepts exactly the text that
follows the rules, with the bytes it stands for, and otherwise reports the first flaw
(`Filter.run_decode_base85`).

The rules name the bytes of the text themselves, as the format does, and not what the reader calls
them.
-/

namespace PdfFilters

namespace Base85

/-! ## The rules -/

/-- A digit, from `!` (0) to `u` (84). -/
def IsDigit (byte : UInt8) : Prop := 0x21 ≤ byte ∧ byte ≤ 0x75

instance (byte : UInt8) : Decidable (IsDigit byte) :=
  inferInstanceAs (Decidable (0x21 ≤ byte ∧ byte ≤ 0x75))

/-- Null, backspace, tab, line feed, form feed, carriage return, space and delete. -/
def blanks : List UInt8 := [0x00, 0x08, 0x09, 0x0A, 0x0C, 0x0D, 0x20, 0x7F]

/-- A text without its blanks. -/
def letters (text : List UInt8) : List UInt8 := text.filter (· ∉ blanks)

/-- What digits come to that stand in a group from this place on. A group has the places 0 to 4, and
the weight of a digit is 85 to the number of places behind its own. -/
def valueFrom (place : Nat) : List UInt8 → Nat
  | [] => 0
  | digit :: rest => (digit - 0x21).toNat * 85 ^ (4 - place) + valueFrom (place + 1) rest

/-- The number of a group, or what the digits come to that it begins with. -/
def value (group : List UInt8) : Nat := valueFrom 0 group

/-- A whole group, and its bytes: `z`, or five digits of a number that four bytes hold. -/
inductive IsGroup : List UInt8 → List UInt8 → Prop
  | zero : IsGroup [0x7A] [0, 0, 0, 0]
  | five {group four : List UInt8} (five : group.length = 5) (digits : ∀ digit ∈ group, IsDigit digit)
      (areBytes : AreBytes (value group) four) : IsGroup group four

/-- Whole groups in a row, and the bytes of all of them. -/
inductive AreGroups : List UInt8 → List UInt8 → Prop
  | nil : AreGroups [] []
  | cons {group four text output : List UInt8} (first : IsGroup group four)
      (others : AreGroups text output) : AreGroups (group ++ text) (four ++ output)

/-- A text that is in order as far as it goes: without its blanks it is whole groups with this
output, and then fewer than five digits. So there is no `~` in it. -/
structure IsOpen (text output tail : List UInt8) : Prop where
  groups : ∃ whole, AreGroups whole output ∧ letters text = whole ++ tail
  few : tail.length < 5
  digits : ∀ digit ∈ tail, IsDigit digit

/-- A last group of fewer than five digits, filled up with `u`. -/
def padded (tail : List UInt8) : List UInt8 := tail ++ List.replicate (5 - tail.length) 0x75

/-- A text without an end mark that follows the rules, and its bytes. -/
inductive StandsFor : List UInt8 → List UInt8 → Prop
  /-- A last group of a single digit stands for nothing. -/
  | single {text output tail : List UInt8} (opened : IsOpen text output tail)
      (single : tail.length ≤ 1) : StandsFor text output
  /-- A last group stands for one byte less than it has digits. -/
  | several {text output tail four : List UInt8} (opened : IsOpen text output tail)
      (several : 2 ≤ tail.length) (areBytes : AreBytes (value (padded tail)) four) :
      StandsFor text (output ++ four.take (tail.length - 1))

/-- What may come behind such a text: nothing, or `~>` and anything at all. -/
def IsEnding (ending : List UInt8) : Prop :=
  ending = [] ∨ ∃ ignored, ending = 0x7E :: 0x3E :: ignored

/-- A text that follows the rules, and its bytes. -/
inductive Spells : List UInt8 → List UInt8 → Prop
  | mk {front output ending : List UInt8} (stands : StandsFor front output) (ends : IsEnding ending) :
      Spells (front ++ ending) output

/-- What is wrong with a byte behind a text in order that ends with these digits. -/
inductive IsFlaw (tail : List UInt8) : UInt8 → Flaw → Prop
  | notBase85 {byte : UInt8} (notDigit : ¬ IsDigit byte) (notZero : byte ≠ 0x7A) (notMark : byte ≠ 0x7E)
      (solid : byte ∉ blanks) : IsFlaw tail byte (.notBase85 byte)
  | zeroInsideGroup (inside : tail ≠ []) : IsFlaw tail 0x7A .zeroInsideGroup
  | groupTooLarge {digit : UInt8} (fifth : tail.length = 4) (isDigit : IsDigit digit)
      (large : 2 ^ 32 ≤ value (tail ++ [digit])) :
      IsFlaw tail digit (.groupTooLarge (value (tail ++ [digit])))

/-- The first flaw of a text, and where it is: at the byte that is wrong, or, if it shows at the end,
behind the text and its end mark. -/
inductive FirstFlaw : List UInt8 → Nat → Flaw → Prop
  | ofByte {front output tail : List UInt8} {byte : UInt8} {flaw : Flaw}
      (opened : IsOpen front output tail) (wrong : IsFlaw tail byte flaw) (rest : List UInt8) :
      FirstFlaw (front ++ byte :: rest) front.length flaw
  | brokenEndMark {front output tail : List UInt8} {byte : UInt8}
      (opened : IsOpen front output tail) (other : byte ≠ 0x3E) (rest : List UInt8) :
      FirstFlaw (front ++ 0x7E :: byte :: rest) (front.length + 1) (.brokenEndMark byte)
  | openEndMark {front output tail : List UInt8} (opened : IsOpen front output tail) :
      FirstFlaw (front ++ [0x7E]) (front.length + 1) .openEndMark
  | lastTooLarge {front output tail ending : List UInt8} (opened : IsOpen front output tail)
      (several : 2 ≤ tail.length) (large : 2 ^ 32 ≤ value (padded tail)) (ends : IsEnding ending) :
      FirstFlaw (front ++ ending) (front.length + (ending.take 2).length)
        (.groupTooLarge (value (padded tail)))

/-! ## Letters and numbers -/

theorem AreGroups.concat {text output group four : List UInt8} (groups : AreGroups text output)
    (last : IsGroup group four) : AreGroups (text ++ group) (output ++ four) := by
  induction groups with
  | nil => simpa using AreGroups.cons last .nil
  | cons first _ ih =>
    rw [List.append_assoc, List.append_assoc]
    exact .cons first ih

theorem letters_append (first second : List UInt8) :
    letters (first ++ second) = letters first ++ letters second :=
  List.filter_append _ _

theorem letters_cons_of_blank {byte : UInt8} (blank : byte ∈ blanks) (rest : List UInt8) :
    letters (byte :: rest) = letters rest :=
  List.filter_cons_of_neg (by simpa using blank)

theorem letters_cons_of_solid {byte : UInt8} (solid : byte ∉ blanks) (rest : List UInt8) :
    letters (byte :: rest) = byte :: letters rest :=
  List.filter_cons_of_pos (by simpa using solid)

theorem IsDigit.solid {byte : UInt8} (isDigit : IsDigit byte) : byte ∉ blanks := by
  intro blank
  simp only [blanks, List.mem_cons, List.not_mem_nil, or_false] at blank
  rcases blank with rfl | rfl | rfl | rfl | rfl | rfl | rfl | rfl <;> revert isDigit <;> decide

theorem letters_of_digits {digits : List UInt8} (valid : ∀ digit ∈ digits, IsDigit digit) :
    letters digits = digits := by
  apply List.filter_eq_self.mpr
  intro digit h
  rw [decide_eq_true_iff]
  exact (valid digit h).solid

theorem IsGroup.letters_eq {group four : List UInt8} (isGroup : IsGroup group four) :
    letters group = group := by
  cases isGroup with
  | zero => rfl
  | five _ digits _ => exact letters_of_digits digits

theorem valueFrom_append (place : Nat) (first second : List UInt8) :
    valueFrom place (first ++ second)
      = valueFrom place first + valueFrom (place + first.length) second := by
  induction first generalizing place with
  | nil => rw [List.nil_append, valueFrom, Nat.zero_add, List.length_nil, Nat.add_zero]
  | cons digit rest ih =>
    have places : place + 1 + rest.length = place + (rest.length + 1) := by omega
    rw [List.cons_append, valueFrom, valueFrom, ih, List.length_cons, places, Nat.add_assoc]

theorem value_concat (tail : List UInt8) (digit : UInt8) :
    value (tail ++ [digit]) = value tail + (digit - 0x21).toNat * 85 ^ (4 - tail.length) := by
  unfold value
  rw [valueFrom_append, valueFrom, valueFrom, Nat.add_zero, Nat.zero_add]

theorem weights_getD {count : Nat} (few : count < 5) : weights.getD count 0 = 85 ^ (4 - count) := by
  match count with
  | 0 | 1 | 2 | 3 | 4 => rfl

/-! ## One byte -/

/-- A reader of a text in order that ends with these digits. -/
def begun (tail : List UInt8) (offset : Nat) : Base85 :=
  ⟨value tail, tail.length, false, false, offset⟩

section Step

variable {tail : List UInt8} {byte : UInt8} (offset : Nat)

theorem isBlank_iff : isBlank byte = true ↔ byte ∈ blanks := by
  simp [isBlank, blanks]

theorem step_blank (blank : byte ∈ blanks) (tail : List UInt8) :
    step (begun tail offset) byte = (begun tail (offset + 1), .ok []) := by
  have notDigit : ¬ (zeroDigit ≤ byte ∧ byte ≤ lastDigit) := fun isDigit => IsDigit.solid isDigit blank
  have notZero : byte ≠ zeroGroup := by
    rintro rfl
    revert blank
    decide
  have notMark : byte ≠ tilde := by
    rintro rfl
    revert blank
    decide
  unfold step begun
  dsimp only
  rw [if_neg Bool.false_ne_true, if_neg Bool.false_ne_true, if_neg notDigit, if_neg notZero,
    if_neg notMark, if_pos (isBlank_iff.mpr blank)]

theorem step_of_isDigit (isDigit : IsDigit byte) (tail : List UInt8) :
    step (begun tail offset) byte = readDigit (begun tail offset) (byte - 0x21).toNat := by
  have isDigit : zeroDigit ≤ byte ∧ byte ≤ lastDigit := isDigit
  unfold step begun
  dsimp only
  rw [if_neg Bool.false_ne_true, if_neg Bool.false_ne_true, if_pos isDigit]
  rfl

theorem step_digit (few : tail.length < 4) (isDigit : IsDigit byte) :
    step (begun tail offset) byte = (begun (tail ++ [byte]) (offset + 1), .ok []) := by
  have further : ¬ tail.length + 1 = 5 := by omega
  rw [step_of_isDigit offset isDigit]
  unfold readDigit begun
  dsimp only
  rw [if_neg further, weights_getD (by omega), ← value_concat, List.length_append,
    List.length_singleton]

theorem step_fifth {four : List UInt8} (fifth : tail.length = 4) (isDigit : IsDigit byte)
    (areBytes : AreBytes (value (tail ++ [byte])) four) :
    step (begun tail offset) byte = (begun [] (offset + 1), .ok four) := by
  have full : tail.length + 1 = 5 := by omega
  obtain ⟨small, rfl⟩ := areBytes_iff.mp areBytes
  rw [step_of_isDigit offset isDigit]
  unfold readDigit begun
  dsimp only
  rw [if_pos full, weights_getD (by omega), ← value_concat, bytes?, if_pos small]
  rfl

theorem step_zeroGroup : step (begun [] offset) 0x7A = (begun [] (offset + 1), .ok [0, 0, 0, 0]) :=
  rfl

theorem step_tilde (tail : List UInt8) :
    step (begun tail offset) 0x7E = (⟨value tail, tail.length, true, false, offset + 1⟩, .ok []) :=
  rfl

theorem exists_step_of_isFlaw {flaw : Flaw} (wrong : IsFlaw tail byte flaw) :
    ∃ next, step (begun tail offset) byte
      = (next, .error (.malformed Kind.ascii85.name offset flaw)) := by
  cases wrong with
  | notBase85 notDigit notZero notMark solid =>
    have notDigit : ¬ (zeroDigit ≤ byte ∧ byte ≤ lastDigit) := notDigit
    have notZero : byte ≠ zeroGroup := notZero
    have notMark : byte ≠ tilde := notMark
    have notBlank : ¬ isBlank byte = true := fun blank => solid (isBlank_iff.mp blank)
    unfold step begun
    dsimp only
    rw [if_neg Bool.false_ne_true, if_neg Bool.false_ne_true, if_neg notDigit, if_neg notZero,
      if_neg notMark, if_neg notBlank]
    exact ⟨_, rfl⟩
  | zeroInsideGroup inside =>
    have inside : ¬ tail.length = 0 := fun none => inside (List.length_eq_zero_iff.mp none)
    have notDigit : ¬ (zeroDigit ≤ 0x7A ∧ 0x7A ≤ lastDigit) := by decide
    have isZero : 0x7A = zeroGroup := rfl
    unfold step begun
    dsimp only
    rw [if_neg Bool.false_ne_true, if_neg Bool.false_ne_true, if_neg notDigit, if_pos isZero,
      if_neg inside]
    exact ⟨_, rfl⟩
  | groupTooLarge fifth isDigit large =>
    have full : tail.length + 1 = 5 := by omega
    rw [step_of_isDigit offset isDigit]
    unfold readDigit begun
    dsimp only
    rw [if_pos full, weights_getD (by omega), ← value_concat, bytes?,
      if_neg (maxGroup_lt_iff.mpr large)]
    exact ⟨_, rfl⟩

end Step

/-! ## Text in order -/

section Scan

variable {text : List UInt8} (offset : Nat) (output : Array UInt8)

theorem begun_add (tail : List UInt8) (offset : Nat) (byte : UInt8) (rest : List UInt8) :
    begun tail (offset + 1 + rest.length) = begun tail (offset + (byte :: rest).length) := by
  rw [List.length_cons, Nat.add_assoc, Nat.add_comm 1]

/-- Digits that do not complete a group. -/
theorem scan_digits {start : List UInt8} (digits : ∀ digit ∈ letters text, IsDigit digit)
    (few : start.length + (letters text).length < 5) :
    scan step (begun start offset) output text
      = (begun (start ++ letters text) (offset + text.length), output, .ok ()) := by
  induction text generalizing start offset with
  | nil => rw [letters, List.filter_nil, List.append_nil]; rfl
  | cons byte rest ih =>
    by_cases blank : byte ∈ blanks
    · rw [letters_cons_of_blank blank] at digits few ⊢
      rw [scan_cons_of_ok (step_blank offset blank start), Array.appendList_nil,
        ih (offset + 1) digits few, begun_add]
    · rw [letters_cons_of_solid blank] at digits few ⊢
      rw [List.length_cons] at few
      have isDigit := digits byte List.mem_cons_self
      have others : ∀ digit ∈ letters rest, IsDigit digit :=
        fun digit h => digits digit (List.mem_cons_of_mem _ h)
      have fewer : (start ++ [byte]).length + (letters rest).length < 5 := by
        rw [List.length_append, List.length_singleton]
        omega
      rw [scan_cons_of_ok (step_digit offset (by omega) isDigit), Array.appendList_nil,
        ih (offset + 1) others fewer, begun_add, List.append_assoc, List.singleton_append]

theorem scan_blanks (none : letters text = []) (tail : List UInt8) (few : tail.length < 5) :
    scan step (begun tail offset) output text
      = (begun tail (offset + text.length), output, .ok ()) := by
  have digits : ∀ digit ∈ letters text, IsDigit digit := by
    rw [none]
    exact List.forall_mem_nil _
  have short : tail.length + (letters text).length < 5 := by
    rw [none]
    exact few
  rw [scan_digits offset output digits short, none, List.append_nil]

/-- The digits that complete a group. -/
theorem scan_five {start four : List UInt8} (few : start.length < 5)
    (five : start.length + (letters text).length = 5) (digits : ∀ digit ∈ letters text, IsDigit digit)
    (areBytes : AreBytes (value (start ++ letters text)) four) :
    scan step (begun start offset) output text
      = (begun [] (offset + text.length), output ++ four, .ok ()) := by
  induction text generalizing start offset with
  | nil =>
    rw [letters, List.filter_nil, List.length_nil] at five
    omega
  | cons byte rest ih =>
    by_cases blank : byte ∈ blanks
    · rw [letters_cons_of_blank blank] at five digits areBytes
      rw [scan_cons_of_ok (step_blank offset blank start), Array.appendList_nil,
        ih (offset + 1) few five digits areBytes, begun_add]
    · rw [letters_cons_of_solid blank] at five digits areBytes
      rw [List.length_cons] at five
      have isDigit := digits byte List.mem_cons_self
      by_cases fifth : start.length = 4
      · -- The last digit, so only blanks can follow.
        have last : letters rest = [] := List.length_eq_zero_iff.mp (by omega)
        rw [last] at areBytes
        rw [scan_cons_of_ok (step_fifth offset fifth isDigit areBytes),
          scan_blanks (offset + 1) _ last [] (Nat.succ_pos 4), begun_add]
      · have others : ∀ digit ∈ letters rest, IsDigit digit :=
          fun digit h => digits digit (List.mem_cons_of_mem _ h)
        have length : (start ++ [byte]).length = start.length + 1 := by
          rw [List.length_append, List.length_singleton]
        rw [List.append_cons] at areBytes
        rw [scan_cons_of_ok (step_digit offset (by omega) isDigit), Array.appendList_nil,
          ih (offset + 1) (by omega) (by omega) others areBytes, begun_add]

theorem scan_zeroGroup (alone : letters text = [0x7A]) :
    scan step (begun [] offset) output text
      = (begun [] (offset + text.length), output ++ ([0, 0, 0, 0] : List UInt8), .ok ()) := by
  induction text generalizing offset with
  | nil => cases alone
  | cons byte rest ih =>
    by_cases blank : byte ∈ blanks
    · rw [letters_cons_of_blank blank] at alone
      rw [scan_cons_of_ok (step_blank offset blank []), Array.appendList_nil, ih (offset + 1) alone,
        begun_add]
    · rw [letters_cons_of_solid blank] at alone
      obtain ⟨rfl, last⟩ := List.cons.inj alone
      rw [scan_cons_of_ok (step_zeroGroup offset),
        scan_blanks (offset + 1) _ last [] (Nat.succ_pos 4), begun_add]

theorem IsGroup.scan_eq {group four : List UInt8} (isGroup : IsGroup group four)
    (letters_eq : letters text = group) :
    scan step (begun [] offset) output text
      = (begun [] (offset + text.length), output ++ four, .ok ()) := by
  cases isGroup with
  | zero => exact scan_zeroGroup offset output letters_eq
  | five five digits areBytes =>
    rw [← letters_eq] at five digits areBytes
    exact scan_five offset output (Nat.succ_pos 4) ((Nat.zero_add _).trans five) digits areBytes

theorem AreGroups.scan_eq {whole produced : List UInt8} (groups : AreGroups whole produced)
    (letters_eq : letters text = whole) :
    scan step (begun [] offset) output text
      = (begun [] (offset + text.length), output ++ produced, .ok ()) := by
  induction groups generalizing text offset output with
  | nil =>
    rw [Array.appendList_nil]
    exact scan_blanks offset output letters_eq [] (Nat.succ_pos 4)
  | cons first others ih =>
    obtain ⟨front, back, rfl, front_eq, back_eq⟩ := List.filter_eq_append_iff.mp letters_eq
    rw [scan_append, first.scan_eq offset output front_eq]
    dsimp only
    rw [ih (offset + front.length) _ back_eq, Sink.append_append, List.length_append, Nat.add_assoc]

/-- After a text in order, the bytes of its whole groups have been put out, and what its last digits
come to is known. -/
theorem IsOpen.scan_eq {produced tail : List UInt8} (opened : IsOpen text produced tail) :
    scan step (begun [] offset) output text
      = (begun tail (offset + text.length), output ++ produced, .ok ()) := by
  obtain ⟨⟨whole, groups, letters_eq⟩, few, digits⟩ := opened
  obtain ⟨front, back, rfl, front_eq, back_eq⟩ := List.filter_eq_append_iff.mp letters_eq
  have back_eq : letters back = tail := back_eq
  subst back_eq
  rw [scan_append, groups.scan_eq offset output front_eq]
  dsimp only
  rw [scan_digits _ _ digits ((Nat.zero_add _).symm ▸ few), List.nil_append, List.length_append,
    Nat.add_assoc]

end Scan

/-! ## The end -/

theorem value_padded (tail : List UInt8) (few : tail.length < 5) :
    value (padded tail) = value tail + (85 ^ (5 - tail.length) - 1) := by
  unfold value padded
  rw [valueFrom_append, Nat.zero_add]
  generalize tail.length = count at few
  match count with
  | 0 | 1 | 2 | 3 | 4 => rfl

theorem paddedGroup_eq (reader : Base85) (few : reader.count < 5) :
    reader.paddedGroup = reader.group + (85 ^ (5 - reader.count) - 1) := by
  obtain ⟨group, count, halfEnded, finished, offset⟩ := reader
  match count with
  | 0 | 1 | 2 | 3 | 4 =>
    simp only [paddedGroup, weights, List.drop_zero, List.drop_succ_cons, List.foldl_cons,
      List.foldl_nil, Nat.add_assoc, Nat.reduceMul, Nat.reduceAdd, Nat.reduceSub, Nat.reducePow]

theorem scan_finished (group count offset : Nat) (output : Array UInt8) (ignored : List UInt8) :
    scan step ⟨group, count, false, true, offset⟩ output ignored
      = (⟨group, count, false, true, offset⟩, output, .ok ()) :=
  scan_ignored (fun _ => rfl) output ignored

theorem IsEnding.exists_scan_eq {ending : List UInt8} (ends : IsEnding ending) (tail : List UInt8)
    (offset : Nat) (output : Array UInt8) :
    ∃ finished, scan step (begun tail offset) output ending
      = (⟨value tail, tail.length, false, finished, offset + (ending.take 2).length⟩, output,
        .ok ()) := by
  rcases ends with rfl | ⟨ignored, rfl⟩
  · exact ⟨false, rfl⟩
  · exact ⟨true, scan_finished (value tail) tail.length (offset + 2) output ignored⟩

section Ending

variable {tail : List UInt8} (few : tail.length < 5) (finished : Bool) (offset : Nat)

include few

theorem ending_of_areBytes {four : List UInt8} (several : 2 ≤ tail.length)
    (areBytes : AreBytes (value (padded tail)) four) :
    ending ⟨value tail, tail.length, false, finished, offset⟩
      = ⟨four.take (tail.length - 1), .ok idle⟩ := by
  have single : ¬ tail.length ≤ 1 := by omega
  obtain ⟨small, rfl⟩ := areBytes_iff.mp areBytes
  unfold ending
  rw [if_neg Bool.false_ne_true, if_neg single, paddedGroup_eq _ few, ← value_padded tail few, bytes?,
    if_pos small]

theorem ending_of_large (several : 2 ≤ tail.length) (large : 2 ^ 32 ≤ value (padded tail)) :
    ending ⟨value tail, tail.length, false, finished, offset⟩
      = .quiet (.error
          (.malformed Kind.ascii85.name offset (.groupTooLarge (value (padded tail))))) := by
  have single : ¬ tail.length ≤ 1 := by omega
  unfold ending
  rw [if_neg Bool.false_ne_true, if_neg single, paddedGroup_eq _ few, ← value_padded tail few, bytes?,
    if_neg (maxGroup_lt_iff.mpr large)]
  rfl

end Ending

/-! ## Whole texts -/

/-- What reading a whole text emits. -/
def decoded (text : List UInt8) : Emission Base85 := (scanned step idle text).andThen ending

theorem IsOpen.scan_front {front output tail : List UInt8} (opened : IsOpen front output tail)
    (rest : List UInt8) :
    scan step idle #[] (front ++ rest) = scan step (begun tail front.length) output.toArray rest := by
  have produced : (#[] : Array UInt8) ++ output = output.toArray := Array.ext' (by simp)
  have known : scan step idle #[] front = (begun tail front.length, output.toArray, .ok ()) := by
    rw [← produced, ← Nat.zero_add front.length]
    exact opened.scan_eq 0 #[]
  rw [scan_append, known]

theorem decoded_of_scan {text : List UInt8} {reader : Base85} {output : Array UInt8}
    (read : scan step idle #[] text = (reader, output, .ok ())) :
    decoded text = ⟨output.toList ++ reader.ending.bytes, reader.ending.result⟩ := by
  unfold decoded scanned
  rw [read]
  rfl

theorem decoded_of_scan_error {text : List UInt8} {reader : Base85} {output : Array UInt8}
    {fault : Fault} (failed : scan step idle #[] text = (reader, output, .error fault)) :
    decoded text = .quiet (.error fault) := by
  unfold decoded scanned
  rw [failed]
  rfl

theorem Spells.decoded_eq {text output : List UInt8} (spells : Spells text output) :
    decoded text = ⟨output, .ok idle⟩ := by
  obtain ⟨stands, ends⟩ := spells
  cases stands with
  | single opened single =>
    obtain ⟨finished, read⟩ := ends.exists_scan_eq _ _ _
    rw [decoded_of_scan ((opened.scan_front _).trans read), ending, if_neg Bool.false_ne_true,
      if_pos single]
    exact congrArg (Emission.mk · _) (List.append_nil output)
  | several opened several areBytes =>
    obtain ⟨finished, read⟩ := ends.exists_scan_eq _ _ _
    rw [decoded_of_scan ((opened.scan_front _).trans read),
      ending_of_areBytes opened.few _ _ several areBytes]

theorem FirstFlaw.output_decoded {text : List UInt8} {offset : Nat} {flaw : Flaw}
    (first : FirstFlaw text offset flaw) :
    (decoded text).output = .error (.malformed Kind.ascii85.name offset flaw) := by
  cases first with
  | ofByte opened wrong rest =>
    obtain ⟨next, failed⟩ := exists_step_of_isFlaw _ wrong
    rw [decoded_of_scan_error ((opened.scan_front _).trans (scan_cons_of_error failed _ rest))]
    rfl
  | @brokenEndMark front output tail byte opened other rest =>
    have failed : step ⟨value tail, tail.length, true, false, front.length + 1⟩ byte
        = (⟨value tail, tail.length, true, false, front.length + 1⟩,
          .error (.malformed Kind.ascii85.name (front.length + 1) (.brokenEndMark byte))) := by
      have other : byte ≠ closing := other
      unfold step
      dsimp only
      rw [if_neg Bool.false_ne_true, if_pos rfl, if_neg other]
      rfl
    have read := (opened.scan_front _).trans (scan_cons_of_ok (step_tilde _ tail) _ (byte :: rest))
    rw [decoded_of_scan_error (read.trans (scan_cons_of_error failed _ rest))]
    rfl
  | openEndMark opened =>
    rw [decoded_of_scan (opened.scan_front _)]
    rfl
  | lastTooLarge opened several large ends =>
    obtain ⟨finished, read⟩ := ends.exists_scan_eq _ _ _
    rw [decoded_of_scan ((opened.scan_front _).trans read),
      ending_of_large opened.few _ _ several large]
    rfl

/-! ## Going on -/

namespace IsOpen

theorem nil : IsOpen [] [] [] := ⟨⟨[], .nil, rfl⟩, Nat.succ_pos 4, List.forall_mem_nil _⟩

variable {text output tail : List UInt8} {byte : UInt8} (opened : IsOpen text output tail)

include opened

theorem blank (isBlank : byte ∈ blanks) : IsOpen (text ++ [byte]) output tail := by
  obtain ⟨⟨whole, groups, letters_eq⟩, few, digits⟩ := opened
  refine ⟨⟨whole, groups, ?_⟩, few, digits⟩
  rw [letters_append, letters_cons_of_blank isBlank, letters_eq]
  exact List.append_nil _

theorem letters_concat (solid : byte ∉ blanks) :
    ∃ whole, AreGroups whole output ∧ letters (text ++ [byte]) = whole ++ (tail ++ [byte]) := by
  obtain ⟨whole, groups, letters_eq⟩ := opened.groups
  refine ⟨whole, groups, ?_⟩
  rw [letters_append, letters_cons_of_solid solid, letters_eq, List.append_assoc]
  rfl

theorem digits_concat (isDigit : IsDigit byte) : ∀ digit ∈ tail ++ [byte], IsDigit digit :=
  List.forall_mem_append.mpr ⟨opened.digits, List.forall_mem_singleton.mpr isDigit⟩

theorem digit (few : tail.length < 4) (isDigit : IsDigit byte) :
    IsOpen (text ++ [byte]) output (tail ++ [byte]) := by
  refine ⟨opened.letters_concat isDigit.solid, ?_, opened.digits_concat isDigit⟩
  rw [List.length_append, List.length_singleton]
  omega

/-- Behind whole groups there may be up to four digits. -/
theorem digits_append {more : List UInt8} (between : tail = []) (few : more.length < 5)
    (digits : ∀ digit ∈ more, IsDigit digit) : IsOpen (text ++ more) output more := by
  obtain ⟨whole, groups, letters_eq⟩ := opened.groups
  refine ⟨⟨whole, groups, ?_⟩, few, digits⟩
  rw [letters_append, letters_eq, between, List.append_nil, letters_of_digits digits]

/-- With its last byte, the digits of a group or the short form of a zero group are whole. -/
theorem group {four : List UInt8} (solid : byte ∉ blanks)
    (isGroup : IsGroup (tail ++ [byte]) four) : IsOpen (text ++ [byte]) (output ++ four) [] := by
  obtain ⟨whole, groups, letters_eq⟩ := opened.letters_concat solid
  refine ⟨⟨whole ++ (tail ++ [byte]), groups.concat isGroup, ?_⟩, Nat.succ_pos 4,
    List.forall_mem_nil _⟩
  rw [letters_eq, List.append_nil]

theorem fifth {four : List UInt8} (fifth : tail.length = 4) (isDigit : IsDigit byte)
    (areBytes : AreBytes (value (tail ++ [byte])) four) :
    IsOpen (text ++ [byte]) (output ++ four) [] := by
  refine opened.group isDigit.solid (.five ?_ (opened.digits_concat isDigit) areBytes)
  rw [List.length_append, List.length_singleton, fifth]

end IsOpen

/-- A text in order up to an end follows the rules, or its last group is too large. -/
theorem IsOpen.spells_or_firstFlaw {front output tail ending : List UInt8}
    (opened : IsOpen front output tail) (ends : IsEnding ending) :
    (∃ output, Spells (front ++ ending) output)
      ∨ ∃ offset flaw, FirstFlaw (front ++ ending) offset flaw := by
  by_cases single : tail.length ≤ 1
  · exact .inl ⟨_, .mk (.single opened single) ends⟩
  · have several : 2 ≤ tail.length := by omega
    by_cases small : value (padded tail) ≤ maxGroup
    · exact .inl ⟨_, .mk (.several opened several (areBytes_iff.mpr ⟨small, rfl⟩)) ends⟩
    · exact .inr ⟨_, _, .lastTooLarge opened several (maxGroup_lt_iff.mp small) ends⟩

/-- However a text in order goes on, in the end it follows the rules, or there is a first flaw. -/
theorem IsOpen.spells_or_firstFlaw_append {front output tail : List UInt8}
    (opened : IsOpen front output tail) (rest : List UInt8) :
    (∃ output, Spells (front ++ rest) output)
      ∨ ∃ offset flaw, FirstFlaw (front ++ rest) offset flaw := by
  induction rest generalizing front output tail with
  | nil => exact opened.spells_or_firstFlaw (.inl rfl)
  | cons byte rest ih =>
    have wrong {flaw : Flaw} (wrong : IsFlaw tail byte flaw) :
        (∃ output, Spells (front ++ byte :: rest) output)
          ∨ ∃ offset flaw, FirstFlaw (front ++ byte :: rest) offset flaw :=
      .inr ⟨_, _, .ofByte opened wrong rest⟩
    have onward {output tail : List UInt8} (opened : IsOpen (front ++ [byte]) output tail) :
        (∃ output, Spells (front ++ byte :: rest) output)
          ∨ ∃ offset flaw, FirstFlaw (front ++ byte :: rest) offset flaw := by
      rw [List.append_cons]
      exact ih opened
    by_cases isDigit : IsDigit byte
    · by_cases fifth : tail.length = 4
      · by_cases small : value (tail ++ [byte]) ≤ maxGroup
        · exact onward (opened.fifth fifth isDigit (areBytes_iff.mpr ⟨small, rfl⟩))
        · exact wrong (.groupTooLarge fifth isDigit (maxGroup_lt_iff.mp small))
      · have := opened.few
        exact onward (opened.digit (by omega) isDigit)
    · by_cases zero : byte = 0x7A
      · subst zero
        by_cases between : tail = []
        · subst between
          exact onward (opened.group (by decide) .zero)
        · exact wrong (.zeroInsideGroup between)
      · by_cases mark : byte = 0x7E
        · subst mark
          match rest with
          | [] => exact .inr ⟨_, _, .openEndMark opened⟩
          | second :: ignored =>
            by_cases closed : second = 0x3E
            · exact opened.spells_or_firstFlaw (.inr ⟨ignored, by rw [closed]⟩)
            · exact .inr ⟨_, _, .brokenEndMark opened closed ignored⟩
        · by_cases blank : byte ∈ blanks
          · exact onward (opened.blank blank)
          · exact wrong (.notBase85 isDigit zero mark blank)

/-- Every text follows the rules, or there is a first flaw. -/
theorem exists_spells_or_firstFlaw (text : List UInt8) :
    (∃ output, Spells text output) ∨ ∃ offset flaw, FirstFlaw text offset flaw :=
  IsOpen.nil.spells_or_firstFlaw_append text

end Base85

namespace Filter

variable [Host]

open Base85 in
theorem run_decode_base85_eq (state : Base85) (parameters : Option Parameters) (text : List UInt8) :
    ((base85 state).run .decode parameters text).2 = (decoded text).output := by
  have begun : (base85 state).begin .decode parameters = (Codec.base85Reading.filter idle, .ok ()) :=
    rfl
  rw [Session.run_eq_output Codec.base85Reading trivial begun]
  exact Emission.output_andThen_map (scanned step idle text) ending base85

theorem run_of_spells {text output : List UInt8} (spells : Base85.Spells text output)
    (state : Base85) (parameters : Option Parameters) :
    ((base85 state).run .decode parameters text).2 = .ok output := by
  rw [run_decode_base85_eq, spells.decoded_eq]
  rfl

theorem run_of_firstFlaw {text : List UInt8} {offset : Nat} {flaw : Flaw}
    (first : Base85.FirstFlaw text offset flaw) (state : Base85) (parameters : Option Parameters) :
    ((base85 state).run .decode parameters text).2
      = .error (.malformed Kind.ascii85.name offset flaw) := by
  rw [run_decode_base85_eq, first.output_decoded]

/-- The base-85 filter decodes exactly the text that follows the rules, to the bytes that the text
stands for. For any other text it reports the first flaw where that is. -/
theorem run_decode_base85 (state : Base85) (parameters : Option Parameters) (text : List UInt8) :
    (∀ output, ((base85 state).run .decode parameters text).2 = .ok output
        ↔ Base85.Spells text output)
      ∧ ∀ fault, ((base85 state).run .decode parameters text).2 = .error fault
        ↔ ∃ offset flaw, fault = .malformed Kind.ascii85.name offset flaw
          ∧ Base85.FirstFlaw text offset flaw := by
  have accepted {output : List UInt8} (spells : Base85.Spells text output) :=
    run_of_spells spells state parameters
  have refused {offset : Nat} {flaw : Flaw} (first : Base85.FirstFlaw text offset flaw) :=
    run_of_firstFlaw first state parameters
  refine ⟨fun output => ⟨?_, accepted⟩, fun fault => ⟨?_, ?_⟩⟩
  · intro fine
    rcases Base85.exists_spells_or_firstFlaw text with ⟨known, spells⟩ | ⟨offset, flaw, first⟩
    · obtain rfl := Except.ok.inj ((accepted spells).symm.trans fine)
      exact spells
    · cases (refused first).symm.trans fine
  · intro failed
    rcases Base85.exists_spells_or_firstFlaw text with ⟨known, spells⟩ | ⟨offset, flaw, first⟩
    · cases (accepted spells).symm.trans failed
    · exact ⟨offset, flaw, (Except.error.inj ((refused first).symm.trans failed)).symm, first⟩
  · rintro ⟨offset, flaw, rfl, first⟩
    exact refused first

end Filter

end PdfFilters

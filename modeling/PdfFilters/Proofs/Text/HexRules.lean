import PdfFilters.Proofs.Chunking

/-!
# The rules of hexadecimal text

What counts of a text is its front, up to the first end mark. It follows the rules if it is made of
digits of either case and of blanks only, and then it stands for its digits paired up, where a last digit
without a partner is followed by a zero (`Hex.paired`).

A reader knows a digit that waits for its partner, and how far it has come. After a front that follows
the rules, what it has put out and the digit that waits make up the pairs (`Hex.exists_scan_eq`). So a
session accepts exactly such texts, however they are cut into blocks, and otherwise reports the first
byte of the front that is wrong (`Session.pass_decode_hex`).

The rules name the bytes of the text themselves, as the format does, and not what the reader calls
them.
-/

namespace PdfFilters

namespace Hex

/-! ## The rules -/

/-- The digits `0` to `9` and `A` to `F`, in the order of their values. -/
def upperDigits : List UInt8 :=
  [0x30, 0x31, 0x32, 0x33, 0x34, 0x35, 0x36, 0x37, 0x38, 0x39, 0x41, 0x42, 0x43, 0x44, 0x45, 0x46]

/-- The digits `0` to `9` and `a` to `f`, in the order of their values. -/
def lowerDigits : List UInt8 :=
  [0x30, 0x31, 0x32, 0x33, 0x34, 0x35, 0x36, 0x37, 0x38, 0x39, 0x61, 0x62, 0x63, 0x64, 0x65, 0x66]

/-- Null, backspace, tab, line feed, form feed, carriage return and space. -/
def blanks : List UInt8 := [0x00, 0x08, 0x09, 0x0A, 0x0C, 0x0D, 0x20]

/-- The value of a digit of either case. -/
def value? (byte : UInt8) : Option Nat := (upperDigits.idxOf? byte).or (lowerDigits.idxOf? byte)

/-- A byte that may stand in a text: a digit or a blank. -/
def IsLetter (byte : UInt8) : Prop := byte ∈ upperDigits ∨ byte ∈ lowerDigits ∨ byte ∈ blanks

instance (byte : UInt8) : Decidable (IsLetter byte) :=
  inferInstanceAs (Decidable (byte ∈ upperDigits ∨ byte ∈ lowerDigits ∨ byte ∈ blanks))

/-- The part of a text that counts: what stands before the first `>`, or all of it. -/
def front (text : List UInt8) : List UInt8 := text.takeWhile (· ≠ 0x3E)

/-- The values of the digits of a text. -/
def values (text : List UInt8) : List Nat := text.filterMap value?

/-- The bytes that values stand for, two to a byte and the high one first. A last value without a
partner is followed by zero. -/
def paired : List Nat → List UInt8
  | [] => []
  | [high] => [UInt8.ofNat (16 * high)]
  | high :: low :: rest => UInt8.ofNat (16 * high + low) :: paired rest

/-! ## One byte -/

/-- The reader knows the values of the digits. -/
theorem digit?_eq (byte : UInt8) : digit? byte = (value? byte).map UInt8.ofNat := by
  have each : ∀ byte : Fin 256,
      digit? (UInt8.ofNat byte) = (value? (UInt8.ofNat byte)).map UInt8.ofNat := by
    decide +kernel
  have known := each ⟨byte.toNat, byte.toNat_lt⟩
  rwa [UInt8.ofNat_toNat] at known

theorem isBlank_iff {byte : UInt8} : isBlank byte = true ↔ byte ∈ blanks := by
  simp [isBlank, blanks]

theorem isSome_value? {byte : UInt8} :
    (value? byte).isSome = true ↔ byte ∈ upperDigits ∨ byte ∈ lowerDigits := by
  rw [value?, Option.isSome_or, Bool.or_eq_true, List.isSome_idxOf?, List.isSome_idxOf?]

theorem isLetter_iff {byte : UInt8} : IsLetter byte ↔ (value? byte).isSome = true ∨ byte ∈ blanks := by
  rw [IsLetter, isSome_value?, or_assoc]

/-- No byte of a text is the end mark, and no digit is a blank. -/
theorem IsLetter.apart {byte : UInt8} (letter : IsLetter byte) :
    byte ≠ 0x3E ∧ ((value? byte).isSome = true → byte ∉ blanks) := by
  have notMark : (0x3E : UInt8) ∉ upperDigits ∧ (0x3E : UInt8) ∉ lowerDigits
      ∧ (0x3E : UInt8) ∉ blanks := by
    decide
  have notDigits : (blanks.all fun byte => byte ∉ upperDigits ∧ byte ∉ lowerDigits) = true := by
    decide
  rw [isSome_value?]
  refine ⟨?_, ?_⟩
  · rintro rfl
    rcases letter with digit | digit | blank
    · exact notMark.1 digit
    · exact notMark.2.1 digit
    · exact notMark.2.2 blank
  · intro isDigit blank
    have neither := of_decide_eq_true (List.all_eq_true.mp notDigits byte blank)
    rcases isDigit with digit | digit
    · exact neither.1 digit
    · exact neither.2 digit

/-- A reader that has come so far, perhaps with the value of a digit that waits for its partner. -/
def begun (pending : Option Nat) (offset : Nat) : Hex := ⟨pending.map UInt8.ofNat, false, offset⟩

section Step

variable {byte : UInt8} (pending : Option Nat) (offset : Nat)

theorem step_blank (blank : byte ∈ blanks) :
    step (begun pending offset) byte = (begun pending (offset + 1), .ok []) := by
  have letter : IsLetter byte := .inr (.inr blank)
  have notMark : byte ≠ endMark := letter.apart.1
  unfold step begun
  dsimp only
  rw [if_neg Bool.false_ne_true, if_neg notMark, if_pos (isBlank_iff.mpr blank)]

/-- Reading a byte that is neither blank nor the end mark. -/
theorem step_of_solid (notMark : byte ≠ 0x3E) (solid : byte ∉ blanks) :
    step (begun pending offset) byte
      = match (value? byte).map UInt8.ofNat, pending.map UInt8.ofNat with
        | none, _ => (begun pending (offset + 1),
          .error (.malformed Kind.asciiHex.name offset (.notHexDigit byte)))
        | some value, none => (⟨some value, false, offset + 1⟩, .ok [])
        | some value, some high => (begun none (offset + 1), .ok [high * 16 + value]) := by
  have notMark : byte ≠ endMark := notMark
  have notBlank : ¬ isBlank byte = true := fun blank => solid (isBlank_iff.mp blank)
  unfold step begun
  dsimp only
  rw [if_neg Bool.false_ne_true, if_neg notMark, if_neg notBlank, digit?_eq]
  rfl

variable {value : Nat} (known : value? byte = some value)

include known

theorem solid_of_value : byte ≠ 0x3E ∧ byte ∉ blanks := by
  have isDigit : (value? byte).isSome = true := Option.isSome_of_eq_some known
  obtain ⟨notMark, solid⟩ := (isLetter_iff.mpr (.inl isDigit)).apart
  exact ⟨notMark, solid isDigit⟩

theorem step_first :
    step (begun none offset) byte = (begun (some value) (offset + 1), .ok []) := by
  obtain ⟨notMark, solid⟩ := solid_of_value known
  rw [step_of_solid none offset notMark solid, known]
  rfl

theorem step_second (high : Nat) :
    step (begun (some high) offset) byte
      = (begun none (offset + 1), .ok [UInt8.ofNat (16 * high + value)]) := by
  obtain ⟨notMark, solid⟩ := solid_of_value known
  have sum : UInt8.ofNat high * 16 + UInt8.ofNat value = UInt8.ofNat (16 * high + value) := by
    rw [UInt8.ofNat_add, UInt8.ofNat_mul, UInt8.mul_comm]
    rfl
  rw [step_of_solid (some high) offset notMark solid, known, ← sum]
  rfl

end Step

theorem step_wrong {byte : UInt8} (wrong : ¬ IsLetter byte) (notMark : byte ≠ 0x3E)
    (pending : Option Nat) (offset : Nat) :
    step (begun pending offset) byte
      = (begun pending (offset + 1),
        .error (.malformed Kind.asciiHex.name offset (.notHexDigit byte))) := by
  have solid : byte ∉ blanks := fun blank => wrong (.inr (.inr blank))
  have unknown : value? byte = none := by
    apply Option.not_isSome_iff_eq_none.mp
    intro isDigit
    exact wrong (isLetter_iff.mpr (.inl isDigit))
  rw [step_of_solid pending offset notMark solid, unknown]
  rfl

/-! ## Text in order -/

/-- After digits and blanks, what has been put out and the value that waits make up the pairs. -/
theorem exists_scan_eq {text : List UInt8} (letters : ∀ byte ∈ text, IsLetter byte)
    (pending : Option Nat) (offset : Nat) (output : Array UInt8) :
    ∃ (whole : List UInt8) (left : Option Nat), scan step (begun pending offset) output text
        = (begun left (offset + text.length), output ++ whole, .ok ())
      ∧ paired (pending.toList ++ values text) = whole ++ paired left.toList := by
  induction text generalizing pending offset output with
  | nil =>
    refine ⟨[], pending, ?_, ?_⟩
    · rw [Array.appendList_nil]
      rfl
    · show paired (pending.toList ++ []) = paired pending.toList
      rw [List.append_nil]
  | cons byte rest ih =>
    obtain ⟨letter, others⟩ := List.forall_mem_cons.mp letters
    have further : offset + 1 + rest.length = offset + (byte :: rest).length := by
      rw [List.length_cons, Nat.add_assoc, Nat.add_comm 1]
    cases known : value? byte with
    | none =>
      have blank : byte ∈ blanks := by
        rcases isLetter_iff.mp letter with isDigit | blank
        · rw [known] at isDigit
          cases isDigit
        · exact blank
      obtain ⟨whole, left, read, pairs⟩ := ih others pending (offset + 1) output
      have values_eq : values (byte :: rest) = values rest := List.filterMap_cons_none known
      refine ⟨whole, left, ?_, values_eq ▸ pairs⟩
      rw [scan_cons_of_ok (step_blank pending offset blank), Array.appendList_nil, read, further]
    | some value =>
      have values_eq : values (byte :: rest) = value :: values rest := List.filterMap_cons_some known
      rw [values_eq]
      cases pending with
      | none =>
        obtain ⟨whole, left, read, pairs⟩ := ih others (some value) (offset + 1) output
        refine ⟨whole, left, ?_, pairs⟩
        rw [scan_cons_of_ok (step_first offset known), Array.appendList_nil, read, further]
      | some high =>
        -- The byte is whole, and what follows begins anew.
        obtain ⟨whole, left, read, pairs⟩ :=
          ih others none (offset + 1) (output ++ [UInt8.ofNat (16 * high + value)])
        refine ⟨UInt8.ofNat (16 * high + value) :: whole, left, ?_, ?_⟩
        · rw [scan_cons_of_ok (step_second offset known high), read, further,
            ← Sink.append_append, List.singleton_append]
        · show UInt8.ofNat (16 * high + value) :: paired (values rest) = _
          rw [List.cons_append, ← pairs]
          rfl

/-- Behind the front there is nothing, or the end mark and bytes that do not matter. -/
theorem exists_front_append (text : List UInt8) :
    ∃ rest, text = front text ++ rest ∧ (rest = [] ∨ ∃ ignored, rest = 0x3E :: ignored) := by
  refine ⟨text.dropWhile (· ≠ 0x3E), List.takeWhile_append_dropWhile.symm, ?_⟩
  cases behind : text.dropWhile (· ≠ 0x3E) with
  | nil => exact .inl rfl
  | cons byte ignored =>
    have some : text.dropWhile (· ≠ 0x3E) ≠ [] := by
      rw [behind]
      exact List.cons_ne_nil _ _
    have mark := List.head_dropWhile_not (fun byte : UInt8 => byte ≠ 0x3E) some
    simp only [behind, List.head_cons] at mark
    have mark : byte = 0x3E := by simpa using mark
    exact .inr ⟨ignored, by rw [mark]⟩

/-- Reading goes on behind digits and blanks with the value that waits. -/
theorem exists_scan_append {text : List UInt8} (letters : ∀ byte ∈ text, IsLetter byte)
    (rest : List UInt8) :
    ∃ (whole : List UInt8) (left : Option Nat),
      scan step idle #[] (text ++ rest)
          = scan step (begun left text.length) ((#[] : Array UInt8) ++ whole) rest
        ∧ paired (values text) = whole ++ paired left.toList := by
  obtain ⟨whole, left, read, pairs⟩ := exists_scan_eq letters none 0 #[]
  have read : scan step idle #[] text = (begun left (0 + text.length), #[] ++ whole, .ok ()) := read
  refine ⟨whole, left, ?_, pairs⟩
  rw [scan_append, read, Nat.zero_add]

/-! ## Whole texts -/

/-- What reading a whole text emits. -/
def decoded (text : List UInt8) : Emission Hex := (scanned step idle text).andThen ending

theorem ending_begun (pending : Option Nat) (finished : Bool) (offset : Nat) :
    ending ⟨pending.map UInt8.ofNat, finished, offset⟩ = ⟨paired pending.toList, .ok idle⟩ := by
  cases pending with
  | none => rfl
  | some high =>
    have byte : UInt8.ofNat high * 16 = UInt8.ofNat (16 * high) := by
      rw [UInt8.ofNat_mul, UInt8.mul_comm]
      rfl
    show (⟨[UInt8.ofNat high * 16], .ok idle⟩ : Emission Hex) = _
    rw [byte]
    rfl

theorem decoded_of_letters {text : List UInt8} (letters : ∀ byte ∈ front text, IsLetter byte) :
    decoded text = ⟨paired (values (front text)), .ok idle⟩ := by
  obtain ⟨rest, text_eq, behind⟩ := exists_front_append text
  obtain ⟨whole, left, read, pairs⟩ := exists_scan_append letters rest
  rw [← text_eq] at read
  have ended : ∃ finished offset,
      scan step (begun left (front text).length) ((#[] : Array UInt8) ++ whole) rest
        = (⟨left.map UInt8.ofNat, finished, offset⟩, (#[] : Array UInt8) ++ whole, .ok ()) := by
    rcases behind with rfl | ⟨ignored, rfl⟩
    · exact ⟨false, _, rfl⟩
    · exact ⟨true, _, scan_ignored (fun _ => rfl) _ ignored⟩
  obtain ⟨finished, offset, ended⟩ := ended
  have output : ((#[] : Array UInt8) ++ whole).toList = whole := by simp
  unfold decoded scanned
  rw [read, ended, pairs]
  dsimp only
  rw [Emission.andThen_ok, output, ending_begun]

theorem ne_mark_of_mem_front {text : List UInt8} {byte : UInt8} (listed : byte ∈ front text) :
    byte ≠ 0x3E := by
  have apart := List.all_eq_true.mp List.all_takeWhile byte listed
  simpa using apart

theorem decoded_of_wrong {text before after : List UInt8} {byte : UInt8}
    (front_eq : front text = before ++ byte :: after)
    (letters : ∀ earlier ∈ before, IsLetter earlier) (wrong : ¬ IsLetter byte) :
    decoded text
      = .quiet (.error (.malformed Kind.asciiHex.name before.length (.notHexDigit byte))) := by
  have notMark : byte ≠ 0x3E := by
    have listed : byte ∈ front text := by
      rw [front_eq]
      exact List.mem_append_right _ List.mem_cons_self
    exact ne_mark_of_mem_front listed
  obtain ⟨rest, text_eq, _⟩ := exists_front_append text
  obtain ⟨whole, left, read, _⟩ := exists_scan_append letters (byte :: (after ++ rest))
  have same : before ++ byte :: (after ++ rest) = text := by
    rw [← List.cons_append, ← List.append_assoc, ← front_eq, ← text_eq]
  rw [same, scan_cons_of_error (step_wrong wrong notMark left _)] at read
  unfold decoded scanned
  rw [read]
  rfl

theorem message_notHexDigit (offset : Nat) (byte : UInt8) :
    (Fault.malformed "ASCIIHexDecode" offset (.notHexDigit byte)).message
      = "Value out of range in ASCIIHexDecode at offset " ++ toString offset
        ++ ": invalid hex digit " ++ byteText byte := by
  have start : "Value out of range in " ++ "ASCIIHexDecode" ++ " at offset "
      = "Value out of range in ASCIIHexDecode at offset " := by decide +kernel
  have middle : ": " ++ "invalid hex digit " = ": invalid hex digit " := by decide +kernel
  show "Value out of range in " ++ "ASCIIHexDecode" ++ " at offset " ++ toString offset ++ ": "
    ++ ("invalid hex digit " ++ byteText byte) = _
  rw [start, ← middle, ← String.append_assoc, ← String.append_assoc]

/-- A front follows the rules, or it has a first byte that does not. -/
theorem letters_or_exists_wrong (text : List UInt8) :
    (∀ byte ∈ text, IsLetter byte)
      ∨ ∃ before byte after, text = before ++ byte :: after
        ∧ (∀ earlier ∈ before, IsLetter earlier) ∧ ¬ IsLetter byte := by
  cases found : text.find? (fun byte => ¬ IsLetter byte) with
  | none =>
    left
    intro byte listed
    simpa using List.find?_eq_none.mp found byte listed
  | some byte =>
    right
    obtain ⟨wrong, before, after, text_eq, earlier⟩ := List.find?_eq_some_iff_append.mp found
    exact ⟨before, byte, after, text_eq, by simpa using earlier, by simpa using wrong⟩

end Hex

variable [Host]

namespace Filter

open Hex in
theorem run_decode_hex_eq (state : Hex) (parameters : Option Parameters) (text : List UInt8) :
    ((hex state).run .decode parameters text).2 = (decoded text).output := by
  have begun : (hex state).begin .decode parameters = (Codec.hexReading.filter idle, .ok ()) := rfl
  rw [Session.run_eq_output Codec.hexReading trivial begun]
  exact Emission.output_andThen_map (scanned step idle text) ending hex

end Filter

namespace Session

open Hex in
/-- A session decodes exactly the hexadecimal text of which the front, up to the first `>`, is made of
digits and blanks, to the bytes that its digits stand for. Otherwise it reports the first byte of the
front that is neither, and where that is. Nothing behind the front makes a difference, and neither do the
blocks. -/
theorem pass_decode_hex (state : Hex) (parameters : Option Parameters) (blocks : List (List UInt8))
    (accepted : Array UInt8) (failure : WriteFailure) :
    let text := front blocks.flatten
    let reply := pass (.hex state) .decode parameters blocks (.endless accepted failure)
    (reply.result = .ok () ↔ ∀ byte ∈ text, IsLetter byte)
      ∧ ((∀ byte ∈ text, IsLetter byte) →
        reply = ⟨.hex .idle, .endless (accepted ++ paired (values text)) failure, .ok ()⟩)
      ∧ (∀ fault, reply.result = .error fault ↔ ∃ before byte after, text = before ++ byte :: after
        ∧ (∀ earlier ∈ before, IsLetter earlier) ∧ ¬ IsLetter byte
        ∧ fault = .malformed "ASCIIHexDecode" before.length (.notHexDigit byte))
      ∧ ∀ offset byte, (Fault.malformed "ASCIIHexDecode" offset (.notHexDigit byte)).message
        = "Value out of range in ASCIIHexDecode at offset " ++ toString offset
          ++ ": invalid hex digit " ++ byteText byte := by
  intro text reply
  have result : reply.result = (decoded blocks.flatten).output.map fun _ => () := by
    rw [← Filter.run_decode_hex_eq state parameters]
    exact result_pass_endless (.hex state) trivial parameters blocks accepted failure
  have accepts (letters : ∀ byte ∈ text, IsLetter byte) :
      reply = ⟨.hex .idle, .endless (accepted ++ paired (values text)) failure, .ok ()⟩ := by
    have ran : ((Filter.hex state).run .decode parameters blocks.flatten).2
        = .ok (paired (values text)) := by
      rw [Filter.run_decode_hex_eq, decoded_of_letters letters]
      rfl
    exact pass_of_output (output_passed_of_run ran trivial) accepted failure
  have refuses {before after : List UInt8} {byte : UInt8} (text_eq : text = before ++ byte :: after)
      (letters : ∀ earlier ∈ before, IsLetter earlier) (wrong : ¬ IsLetter byte) :
      reply.result
        = .error (.malformed "ASCIIHexDecode" before.length (.notHexDigit byte)) := by
    rw [result, decoded_of_wrong text_eq letters wrong]
    rfl
  refine ⟨⟨?_, ?_⟩, accepts, fun fault => ⟨?_, ?_⟩, fun offset byte => ?_⟩
  · intro fine
    rcases letters_or_exists_wrong text with letters | ⟨before, byte, after, text_eq, letters, wrong⟩
    · exact letters
    · cases (refuses text_eq letters wrong).symm.trans fine
  · intro letters
    rw [accepts letters]
  · intro failed
    rcases letters_or_exists_wrong text with letters | ⟨before, byte, after, text_eq, letters, wrong⟩
    · rw [accepts letters] at failed
      cases failed
    · have same := (refuses text_eq letters wrong).symm.trans failed
      exact ⟨before, byte, after, text_eq, letters, wrong, (Except.error.inj same).symm⟩
  · rintro ⟨before, byte, after, text_eq, letters, wrong, rfl⟩
    exact refuses text_eq letters wrong
  · exact message_notHexDigit offset byte

end Session

end PdfFilters

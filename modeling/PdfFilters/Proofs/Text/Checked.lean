import PdfFilters.Proofs.Phases
import PdfFilters.Proofs.Text.Base85
import PdfFilters.Proofs.Words

/-!
# Base-85 text with machine words and slices

The writer and the reader of base-85 text share a number and a count. A machine shifts a byte by a
place that it finds from the count, looks the weight of a digit up by it, cuts digits and bytes out of
arrays with it, and adds in a word. The checked steps do all this and have no answer where a machine
would have none (`Base85.encodeStepChecked`, `Base85.stepChecked` and what is checked at the end). The
offset only tells where a fault is; it is not checked.

A `Base85.Moment` is a filter right before it takes a byte or ends. On a filter that is used for any
sessions and whole runs, one after another, every moment is safe: the number is that of what the group
has so far, and the checked step has the answer of the step (`Filter.isSafe_of_mem_moments`). A group
that is found too large leaves a count of five behind, with which the next digit would have no weight.
But every use ends with the filter at rest, however it ends, so there is no such moment.
-/

namespace PdfFilters

namespace Base85

/-! ## Checked steps -/

/-- The text of a group, cut out of its five digits. -/
def groupTextChecked (group count : Nat) : Option (List UInt8) :=
  let value := group % (maxGroup + 1)
  if count = 4 ∧ value = 0 then some [zeroGroup] else front? (digits value) (count + 1)

/-- Write one byte into the current group, shifted to its place. -/
def encodeStepChecked (writer : Base85) (byte : UInt8) :
    Option (Base85 × Except Fault (List UInt8)) := do
  let place ← minus? 24 (8 * writer.count)
  let added ← word? (byte.toNat <<< place)
  let group := writer.group ||| added
  if writer.count + 1 = 4 then
    return ({ writer with group := 0, count := 0 }, .ok (← groupTextChecked group 4))
  else return ({ writer with group, count := writer.count + 1 }, .ok [])

/-- The text of an incomplete last group, if there is one. -/
def lastGroupChecked (writer : Base85) : Option (List UInt8) :=
  if writer.count = 0 then some [] else groupTextChecked writer.group writer.count

/-- End the text: write an incomplete last group and the end mark. -/
def endEncodeChecked (writer : Base85) (sink : Sink) : Option (Reply Base85) := do
  let last ← writer.lastGroupChecked
  match sink.write (last ++ [tilde, closing]) with
  | (sink, .ok ()) => return ⟨idle, sink, .ok ()⟩
  | (sink, .error fault) => return ⟨{ writer with group := 0, count := 0 }, sink, .error fault⟩

/-- Read one digit of a group, with its weight looked up. -/
def readDigitChecked (reader : Base85) (digit : Nat) :
    Option (Base85 × Except Fault (List UInt8)) := do
  let weight ← weights[reader.count]?
  let added ← word? (digit * weight)
  let group ← word? (reader.group + added)
  if reader.count + 1 = 5 then
    match reader.bytes? group with
    | .ok produced =>
      return ({ reader with group := 0, count := 0, offset := reader.offset + 1 }, .ok produced)
    | .error fault => return ({ reader with group, count := 5 }, .error fault)
  else return ({ reader with group, count := reader.count + 1, offset := reader.offset + 1 }, .ok [])

/-- Read one byte. Only a digit is added to anything. -/
def stepChecked (reader : Base85) (byte : UInt8) : Option (Base85 × Except Fault (List UInt8)) :=
  if reader.finished = false ∧ reader.halfEnded = false ∧ IsDigit byte then
    reader.readDigitChecked (byte - zeroDigit).toNat
  else some (reader.step byte)

/-- The number of an incomplete group, its missing weights cut out of all of them. -/
def paddedGroupChecked (reader : Base85) : Option Nat := do
  let missing ← back? weights reader.count
  missing.foldlM (fun group weight => word? (group + 84 * weight)) reader.group

/-- End the text: write the bytes of an incomplete last group, cut out of its four bytes. -/
def endDecodeChecked (reader : Base85) (sink : Sink) : Option (Reply Base85) := do
  if reader.halfEnded then return ⟨reader, sink, .error (reader.fault .openEndMark)⟩
  else if reader.count ≤ 1 then return ⟨idle, sink, .ok ()⟩
  else
    match reader.bytes? (← reader.paddedGroupChecked) with
    | .error fault => return ⟨reader, sink, .error fault⟩
    | .ok last =>
      match sink.write (← front? last (← minus? reader.count 1)) with
      | (sink, .ok ()) => return ⟨idle, sink, .ok ()⟩
      | (sink, .error fault) => return ⟨reader, sink, .error fault⟩

theorem groupTextChecked_eq (group : Nat) {count : Nat} (few : count ≤ 4) :
    groupTextChecked group count = some (groupText group count) := by
  have inside (value : Nat) : count + 1 ≤ (digits value).length := Nat.succ_le_succ few
  rw [groupTextChecked, groupText]
  split
  · rfl
  · exact front?_eq (inside _)

theorem encodeStepChecked_eq {writer : Base85} (few : writer.count ≤ 3) (byte : UInt8) :
    writer.encodeStepChecked byte = some (writer.encodeStep byte) := by
  have small : byte.toNat <<< (24 - 8 * writer.count) ≤ maxWord := by
    have below := byte.toNat_lt
    have place : 2 ^ (24 - 8 * writer.count) ≤ 2 ^ 24 :=
      Nat.pow_le_pow_right Nat.two_pos (Nat.sub_le _ _)
    rw [Nat.shiftLeft_eq]
    exact Nat.le_trans (Nat.mul_le_mul (Nat.le_of_lt below) place) (by decide)
  rw [encodeStepChecked, encodeStep, bind_of_eq_some (minus?_eq (by omega)),
    bind_of_eq_some (word?_eq small)]
  dsimp only
  split
  · rw [bind_of_eq_some (groupTextChecked_eq _ (Nat.le_refl 4))]
    rfl
  · rfl

theorem endEncodeChecked_eq {writer : Base85} (few : writer.count ≤ 3) (sink : Sink) :
    writer.endEncodeChecked sink = some (writer.endEncode sink) := by
  have last : writer.lastGroupChecked
      = some (if writer.count = 0 then [] else groupText writer.group writer.count) := by
    rw [lastGroupChecked, groupTextChecked_eq _ (Nat.le_succ_of_le few)]
    split <;> rfl
  rw [endEncodeChecked, endEncode, bind_of_eq_some last]
  rcases sink.write _ with ⟨left, fault | done⟩ <;> rfl

/-! ## Digits of a group -/

theorem IsDigit.toNat_sub_lt {digit : UInt8} (isDigit : IsDigit digit) : (digit - 0x21).toNat < 85 := by
  have low : 0x21 ≤ digit := isDigit.1
  have high : digit.toNat ≤ 0x75 := isDigit.2
  rw [UInt8.toNat_sub_of_le _ _ low]
  show digit.toNat - 0x21 < 85
  omega

/-- Digits never come to more than the greatest ones would. -/
theorem value_add_le {tail : List UInt8} (few : tail.length ≤ 5)
    (digits : ∀ digit ∈ tail, IsDigit digit) :
    value tail + 85 ^ (5 - tail.length) ≤ 85 ^ 5 := by
  generalize count_eq : tail.length = count at few ⊢
  induction count generalizing tail with
  | zero =>
    rw [List.length_eq_zero_iff.mp count_eq]
    exact Nat.le_refl _
  | succ count ih =>
    rcases List.eq_nil_or_concat tail with rfl | ⟨first, last, rfl⟩
    · cases count_eq
    · rw [List.concat_eq_append] at count_eq digits ⊢
      rw [List.length_append, List.length_singleton, Nat.add_right_cancel_iff] at count_eq
      have below := ih (fun digit h => digits digit (List.mem_append_left _ h)) count_eq (by omega)
      have digit := (digits last List.mem_concat_self).toNat_sub_lt
      have places : 85 ^ (5 - count) = 85 ^ (4 - count) * 85 := by
        rw [show 5 - count = 4 - count + 1 by omega, Nat.pow_succ]
      rw [value_concat, count_eq, show 5 - (count + 1) = 4 - count by omega]
      have : (last - 0x21).toNat * 85 ^ (4 - count) + 85 ^ (4 - count) ≤ 85 ^ (4 - count) * 85 := by
        rw [← Nat.succ_mul, Nat.mul_comm]
        exact Nat.mul_le_mul_left _ digit
      omega

/-! ## What a reader knows -/

/-- What a reader is like that was handed these bytes and refused none of them. -/
inductive Reached : List UInt8 → Base85 → Prop
  | opened {text output tail : List UInt8} (opened : IsOpen text output tail) :
      Reached text (begun tail text.length)
  | halfEnded {text output tail : List UInt8} (opened : IsOpen text output tail) :
      Reached (text ++ [0x7E]) ⟨value tail, tail.length, true, false, text.length + 1⟩
  | finished {text output tail : List UInt8} (opened : IsOpen text output tail) (ignored : List UInt8) :
      Reached (text ++ 0x7E :: 0x3E :: ignored) ⟨value tail, tail.length, false, true, text.length + 2⟩

theorem Reached.count_le {before : List UInt8} {reader : Base85} (reached : Reached before reader) :
    reader.count ≤ 4 := by
  cases reached with
  | opened opened | halfEnded opened | finished opened => exact Nat.le_of_lt_succ opened.few

/-- A byte that is not refused leaves an open text open, or is the first half of the end mark. -/
theorem IsOpen.reached_step {text output tail : List UInt8} (opened : IsOpen text output tail)
    {byte : UInt8} {next : Base85} {produced : List UInt8}
    (taken : step (begun tail text.length) byte = (next, .ok produced)) :
    Reached (text ++ [byte]) next := by
  have length : text.length + 1 = (text ++ [byte]).length := by
    rw [List.length_append, List.length_singleton]
  have onward {output tail : List UInt8} (opened : IsOpen (text ++ [byte]) output tail)
      (same : begun tail (text.length + 1) = next) : Reached (text ++ [byte]) next := by
    rw [← same, length]
    exact .opened opened
  have wrong {flaw : Flaw} (wrong : IsFlaw tail byte flaw) : Reached (text ++ [byte]) next := by
    obtain ⟨left, refused⟩ := exists_step_of_isFlaw text.length wrong
    rw [refused] at taken
    cases taken
  by_cases isDigit : IsDigit byte
  · by_cases fifth : tail.length = 4
    · by_cases small : value (tail ++ [byte]) ≤ maxGroup
      · have areBytes := areBytes_iff.mpr ⟨small, rfl⟩
        rw [step_fifth _ fifth isDigit areBytes] at taken
        exact onward (opened.fifth fifth isDigit areBytes) (congrArg Prod.fst taken)
      · exact wrong (.groupTooLarge fifth isDigit (maxGroup_lt_iff.mp small))
    · have few : tail.length < 4 := by
        have := opened.few
        omega
      rw [step_digit _ few isDigit] at taken
      exact onward (opened.digit few isDigit) (congrArg Prod.fst taken)
  · by_cases zero : byte = 0x7A
    · subst zero
      by_cases between : tail = []
      · subst between
        exact onward (opened.group (by decide) .zero) (congrArg Prod.fst taken)
      · exact wrong (.zeroInsideGroup between)
    · by_cases mark : byte = 0x7E
      · subst mark
        cases taken
        exact .halfEnded opened
      · by_cases blank : byte ∈ blanks
        · rw [step_blank _ blank] at taken
          exact onward (opened.blank blank) (congrArg Prod.fst taken)
        · exact wrong (.notBase85 isDigit zero mark blank)

theorem Reached.step {before : List UInt8} {reader : Base85} (reached : Reached before reader)
    {byte : UInt8} {next : Base85} {produced : List UInt8}
    (taken : reader.step byte = (next, .ok produced)) : Reached (before ++ [byte]) next := by
  cases reached with
  | opened opened => exact opened.reached_step taken
  | @halfEnded text output tail opened =>
    by_cases closed : byte = 0x3E
    · subst closed
      cases taken
      rw [List.append_assoc]
      exact .finished opened []
    · have other : byte ≠ closing := closed
      unfold Base85.step at taken
      dsimp only at taken
      rw [if_neg Bool.false_ne_true, if_pos rfl, if_neg other] at taken
      cases taken
  | finished opened ignored =>
    cases taken
    rw [List.append_assoc]
    exact .finished opened (ignored ++ [byte])

/-! ## Checked reading -/

theorem getElem?_weights {count : Nat} (few : count < 5) :
    weights[count]? = some (85 ^ (4 - count)) := by
  match count with
  | 0 | 1 | 2 | 3 | 4 => rfl

theorem readDigitChecked_eq {tail : List UInt8} (few : tail.length < 5)
    (digits : ∀ digit ∈ tail, IsDigit digit) {byte : UInt8} (isDigit : IsDigit byte) (offset : Nat) :
    (begun tail offset).readDigitChecked (byte - 0x21).toNat
      = some ((begun tail offset).readDigit (byte - 0x21).toNat) := by
  have below : value (tail ++ [byte]) ≤ maxWord := by
    have valid : ∀ digit ∈ tail ++ [byte], IsDigit digit :=
      List.forall_mem_append.mpr ⟨digits, List.forall_mem_singleton.mpr isDigit⟩
    have length : (tail ++ [byte]).length ≤ 5 := by
      rw [List.length_append, List.length_singleton]
      exact few
    exact Nat.le_trans (Nat.le_of_add_right_le (value_add_le length valid)) (by decide)
  rw [value_concat] at below
  unfold readDigitChecked readDigit begun
  dsimp only
  rw [bind_of_eq_some (getElem?_weights few), weights_getD few,
    bind_of_eq_some (word?_eq (Nat.le_of_add_left_le below)), bind_of_eq_some (word?_eq below)]
  split
  · cases bytes? _ _ <;> rfl
  · rfl

theorem Reached.stepChecked_eq {before : List UInt8} {reader : Base85} (reached : Reached before reader)
    (byte : UInt8) : reader.stepChecked byte = some (reader.step byte) := by
  rw [stepChecked]
  split
  next digit =>
    obtain ⟨unfinished, unmarked, isDigit⟩ := digit
    cases reached with
    | opened opened =>
      rw [step_of_isDigit _ isDigit]
      exact readDigitChecked_eq opened.few opened.digits isDigit _
    | halfEnded opened => cases unmarked
    | finished opened ignored => cases unfinished
  next => rfl

/-- The state that a group leaves behind that is too large has no answer to a further digit. -/
example : stepChecked ⟨0, 5, false, false, 0⟩ 0x21 = none := rfl

theorem le_foldl_padding (group : Nat) (missing : List Nat) :
    group ≤ missing.foldl (fun group weight => group + 84 * weight) group := by
  induction missing generalizing group with
  | nil => exact Nat.le_refl group
  | cons weight rest ih => exact Nat.le_trans (Nat.le_add_right _ _) (ih _)

/-- A sum that fits into a word fits at every step on the way. -/
theorem foldlM_padding {group : Nat} {missing : List Nat}
    (fits : missing.foldl (fun group weight => group + 84 * weight) group ≤ maxWord) :
    missing.foldlM (fun group weight => word? (group + 84 * weight)) group
      = some (missing.foldl (fun group weight => group + 84 * weight) group) := by
  induction missing generalizing group with
  | nil => rfl
  | cons weight rest ih =>
    have first := word?_eq (Nat.le_trans (le_foldl_padding (group + 84 * weight) rest) fits)
    rw [List.foldlM_cons, bind_of_eq_some first]
    exact ih fits

theorem Reached.paddedGroupChecked_eq {before : List UInt8} {reader : Base85}
    (reached : Reached before reader) :
    reader.paddedGroupChecked = some reader.paddedGroup := by
  have few := reached.count_le
  have fits : reader.paddedGroup ≤ maxWord := by
    have below : reader.group + 85 ^ (5 - reader.count) ≤ 85 ^ 5 := by
      cases reached with
      | opened opened | halfEnded opened | finished opened =>
        exact value_add_le (Nat.le_of_lt opened.few) opened.digits
    have word : 85 ^ 5 ≤ maxWord := by decide
    have filled : 0 < 85 ^ (5 - reader.count) := Nat.pow_pos (by decide)
    rw [paddedGroup_eq reader (Nat.lt_succ_of_le few)]
    omega
  rw [paddedGroupChecked, bind_of_eq_some (back?_eq (Nat.le_succ_of_le few))]
  exact foldlM_padding fits

theorem Reached.endDecodeChecked_eq {before : List UInt8} {reader : Base85}
    (reached : Reached before reader) (sink : Sink) :
    reader.endDecodeChecked sink = some (reader.endDecode sink) := by
  have few := reached.count_le
  rw [endDecodeChecked, endDecode]
  split
  · rfl
  · split
    · rfl
    · next several =>
      rw [bind_of_eq_some reached.paddedGroupChecked_eq]
      by_cases small : reader.paddedGroup ≤ maxGroup
      · have inside : reader.count - 1 ≤ (bytes reader.paddedGroup).length := by
          show reader.count - 1 ≤ 4
          omega
        rw [bytes?, if_pos small]
        dsimp only
        rw [bind_of_eq_some (minus?_eq (by omega)), bind_of_eq_some (front?_eq inside)]
        rcases sink.write _ with ⟨left, fault | done⟩ <;> rfl
      · rw [bytes?, if_neg small]
        rfl

/-! ## Moments -/

/-- A filter right before it takes a byte, or ends. -/
structure Moment where
  direction : Direction
  state : Base85
  /-- The bytes that it was handed before in this pass. -/
  before : List UInt8
  /-- The byte that it takes, if it does not end. -/
  next : Option UInt8

/-- What a filter does with a byte. -/
def stepIn : Direction → Base85 → UInt8 → Base85 × Except Fault (List UInt8)
  | .encode => encodeStep
  | .decode => step

/-- The moments of a block: one for each byte, up to the first fault. -/
def blockMoments (state : Base85) (direction : Direction) (before : List UInt8) :
    List UInt8 → List Moment
  | [] => []
  | byte :: rest =>
    ⟨direction, state, before, some byte⟩ ::
      match stepIn direction state byte with
      | (next, .ok _) => next.blockMoments direction (before ++ [byte]) rest
      | (_, .error _) => []

/-- Nothing goes wrong in a machine, and the number is that of what the group has so far: of bytes in
their places, with nothing below them, or of the digits since the last whole group. -/
def Moment.IsSafe : Moment → Prop
  | ⟨.encode, writer, _, some byte⟩ =>
    writer.count ≤ 3 ∧ writer.group < 2 ^ 32 ∧ 2 ^ (8 * (4 - writer.count)) ∣ writer.group
      ∧ writer.encodeStepChecked byte = some (writer.encodeStep byte)
  | ⟨.encode, writer, _, none⟩ => ∀ sink, writer.endEncodeChecked sink = some (writer.endEncode sink)
  | ⟨.decode, reader, before, some byte⟩ =>
    reader.count ≤ 4
      ∧ (reader.finished = false → reader.halfEnded = false → IsDigit byte →
        ∃ output tail, IsOpen before output tail ∧ reader.count = tail.length
          ∧ reader.group = value tail ∧ value (tail ++ [byte]) < 85 ^ 5)
      ∧ reader.stepChecked byte = some (reader.step byte)
  | ⟨.decode, reader, _, none⟩ => ∀ sink, reader.endDecodeChecked sink = some (reader.endDecode sink)

/-- What a filter is like in a pass that has handed it these bytes, none of them refused. -/
def Knows (direction : Direction) (before : List UInt8) (state : Base85) : Prop :=
  match direction with
  | .encode => ∃ text, Wrote before state text
  | .decode => Reached before state

theorem knows_nil (direction : Direction) : Knows direction [] idle := by
  cases direction with
  | encode => exact ⟨[], wrote_nil⟩
  | decode => exact .opened IsOpen.nil

section Knows

variable {direction : Direction} {before : List UInt8} {state next : Base85}

theorem Knows.step (knows : Knows direction before state) {byte : UInt8} {produced : List UInt8}
    (taken : stepIn direction state byte = (next, .ok produced)) :
    Knows direction (before ++ [byte]) next := by
  cases direction with
  | encode =>
    obtain ⟨text, wrote⟩ := knows
    obtain ⟨last, more, same, wrote⟩ := wrote.step byte
    cases same.symm.trans taken
    exact ⟨_, wrote⟩
  | decode => exact Reached.step knows taken

theorem Knows.scan (knows : Knows direction before state) {output left : Array UInt8}
    {block : List UInt8}
    (scanned : PdfFilters.scan (stepIn direction) state output block = (next, left, .ok ())) :
    Knows direction (before ++ block) next := by
  induction block generalizing before state output with
  | nil =>
    cases scanned
    rwa [List.append_nil]
  | cons byte rest ih =>
    rcases taken : stepIn direction state byte with ⟨after, fault | produced⟩
    · rw [scan_cons_of_error taken] at scanned
      cases scanned
    · rw [scan_cons_of_ok taken] at scanned
      rw [List.append_cons]
      exact ih (knows.step taken) scanned

theorem Knows.isSafe (knows : Knows direction before state) (taken : Option UInt8) :
    Moment.IsSafe ⟨direction, state, before, taken⟩ := by
  cases direction with
  | encode =>
    obtain ⟨text, groups, tail, -, few, rfl, -⟩ := knows
    have less : tail.length ≤ 3 := Nat.le_of_lt_succ few
    cases taken with
    | none => exact endEncodeChecked_eq less
    | some byte =>
      have small := le_maxGroup (Nat.le_of_lt few) (groupOf_div tail)
      refine ⟨less, Nat.lt_succ_of_le small, ?_, encodeStepChecked_eq less byte⟩
      show 2 ^ (8 * (4 - tail.length)) ∣ groupOf tail
      rw [groupOf, Nat.shiftLeft_eq, show 8 * (4 - tail.length) = 32 - 8 * tail.length by omega]
      exact Nat.dvd_mul_left _ _
  | decode =>
    have reached : Reached before state := knows
    cases taken with
    | none => exact reached.endDecodeChecked_eq
    | some byte =>
      refine ⟨reached.count_le, ?_, reached.stepChecked_eq byte⟩
      intro unfinished unmarked isDigit
      cases reached with
      | @opened text output tail opened =>
        have length : (tail ++ [byte]).length ≤ 5 := by
          rw [List.length_append, List.length_singleton]
          exact opened.few
        have below := value_add_le length (opened.digits_concat isDigit)
        have filled : 0 < 85 ^ (5 - (tail ++ [byte]).length) := Nat.pow_pos (by decide)
        exact ⟨output, tail, opened, rfl, rfl, by omega⟩
      | halfEnded opened => cases unmarked
      | finished opened ignored => cases unfinished

theorem Knows.isSafe_of_mem_blockMoments (knows : Knows direction before state) {block : List UInt8} :
    ∀ moment ∈ state.blockMoments direction before block, moment.IsSafe := by
  induction block generalizing before state with
  | nil => exact List.forall_mem_nil _
  | cons byte rest ih =>
    rw [blockMoments]
    refine List.forall_mem_cons.mpr ⟨knows.isSafe (some byte), ?_⟩
    rcases taken : stepIn direction state byte with ⟨after, fault | produced⟩
    · exact List.forall_mem_nil _
    · exact ih (knows.step taken)

end Knows

end Base85

variable [Host]

namespace Filter

open Base85 (Moment Knows)

/-- The moments of a block that a filter is handed. -/
def blockMoments (filter : Filter) (direction : Direction) (before block : List UInt8) : List Moment :=
  match filter with
  | .base85 state => state.blockMoments direction before block
  | _ => []

/-- The moment of ending a filter. -/
def endMoments (filter : Filter) (direction : Direction) (before : List UInt8) : List Moment :=
  match filter with
  | .base85 state => [⟨direction, state, before, none⟩]
  | _ => []

end Filter

/-- The moments of feeding blocks to a session, whatever the answers, and of ending it if it is not
dropped. A call that is refused does not get to the filter. -/
def Session.moments (session : Session) (before : List UInt8) (ended : Bool) :
    List (List UInt8) → List Base85.Moment
  | [] =>
    if session.isOpen ∧ ended then session.filter.endMoments session.direction before else []
  | block :: rest =>
    (if session.isOpen then session.filter.blockMoments session.direction before block else [])
      ++ (session.feed block).1.moments (before ++ block) ended rest

theorem Session.moments_of_failed (filter : Filter) (sink : Sink) (direction : Direction) (fed : Nat)
    (before : List UInt8) (ended : Bool) (blocks : List (List UInt8)) :
    moments ⟨filter, sink, direction, false, fed⟩ before ended blocks = [] := by
  induction blocks generalizing before with
  | nil => rfl
  | cons block rest ih => exact ih _

/-- What a filter is used for. -/
inductive Use where
  /-- A session on a sink of one's own that is fed some blocks, whatever the answers, and then ended or
  dropped. -/
  | session (direction : Direction) (parameters : Option Parameters) (sink : Sink)
      (blocks : List (List UInt8)) (ended : Bool)
  /-- A whole run. -/
  | run (direction : Direction) (parameters : Option Parameters) (data : List UInt8)

namespace Filter

open Base85 (Moment Knows)

/-- The filter that a use leaves behind. -/
def afterUse (filter : Filter) : Use → Filter
  | .session direction parameters sink blocks ended =>
    match Session.start filter direction parameters sink with
    | .error (filter, _) => filter
    | .ok session =>
      if ended then (session.feedEach blocks).finish.state else (session.feedEach blocks).drop
  | .run direction parameters data => (filter.run direction parameters data).1

/-- The moments of a use. -/
def useMoments (filter : Filter) : Use → List Moment
  | .session direction parameters sink blocks ended =>
    match Session.start filter direction parameters sink with
    | .error _ => []
    | .ok session => session.moments [] ended blocks
  | .run direction parameters data =>
    match filter.begin direction parameters with
    | (_, .error _) => []
    | (filter, .ok ()) =>
      filter.blockMoments direction [] data
        ++ match filter.block direction data .unlimited with
          | ⟨filter, _, .ok ()⟩ => filter.endMoments direction data
          | ⟨_, _, .error _⟩ => []

/-- The moments of a filter that is used for one thing after another. -/
def moments (filter : Filter) : List Use → List Moment
  | [] => []
  | use :: rest => filter.useMoments use ++ (filter.afterUse use).moments rest

section Safe

variable {direction : Direction} {before : List UInt8} {state : Base85}

/-- A block that is answered well has been read or written to its end. -/
theorem exists_knows_of_block (knows : Knows direction before state) {block : List UInt8}
    {sink left : Sink} {next : Filter}
    (taken : (base85 state).block direction block sink = ⟨next, left, .ok ()⟩) :
    ∃ last, next = base85 last ∧ Knows direction (before ++ block) last := by
  have same : (base85 state).block direction block sink
      = reply base85 (scanBlock (Base85.stepIn direction) state block sink) := by
    cases direction <;> rfl
  rw [same, scanBlock] at taken
  rcases scanned : scan (Base85.stepIn direction) state #[] block with ⟨last, output, fault | done⟩
  · rw [scanned] at taken
    cases taken
  · rw [scanned] at taken
    exact ⟨last, (congrArg Reply.state taken).symm, knows.scan scanned⟩

theorem isSafe_of_mem_sessionMoments (knows : Knows direction before state) (sink : Sink) (fed : Nat)
    (blocks : List (List UInt8)) (ended : Bool) :
    ∀ moment ∈ Session.moments ⟨base85 state, sink, direction, true, fed⟩ before ended blocks,
      moment.IsSafe := by
  induction blocks generalizing before state sink fed with
  | nil =>
    rw [Session.moments]
    split
    · exact List.forall_mem_singleton.mpr (knows.isSafe none)
    · exact List.forall_mem_nil _
  | cons block rest ih =>
    rw [Session.moments, if_pos rfl]
    refine List.forall_mem_append.mpr ⟨knows.isSafe_of_mem_blockMoments, ?_⟩
    rcases taken : (base85 state).block direction block sink with ⟨next, left, fault | _⟩
    · rw [Session.feed_of_error fed taken]
      intro moment member
      rw [Session.moments_of_failed] at member
      cases member
    · obtain ⟨last, rfl, knows⟩ := exists_knows_of_block knows taken
      rw [Session.feed_of_ok fed taken]
      exact ih knows left _

theorem isSafe_of_mem_useMoments (state : Base85) (use : Use) :
    ∀ moment ∈ (base85 state).useMoments use, moment.IsSafe := by
  cases use with
  | session direction parameters sink blocks ended =>
    exact isSafe_of_mem_sessionMoments (Base85.knows_nil direction) sink 0 blocks ended
  | run direction parameters data =>
    have knows := Base85.knows_nil direction
    refine List.forall_mem_append.mpr ⟨knows.isSafe_of_mem_blockMoments, ?_⟩
    rcases taken : (base85 .idle).block direction data .unlimited with ⟨next, left, fault | _⟩
    · exact List.forall_mem_nil _
    · obtain ⟨last, rfl, knows⟩ := exists_knows_of_block knows taken
      exact List.forall_mem_singleton.mpr (knows.isSafe none)

/-- Every use leaves a filter as an abort does, whether it succeeds, fails or is given up. -/
theorem afterUse_eq (filter : Filter) (use : Use) : filter.afterUse use = filter.abort := by
  cases use with
  | run direction parameters data => exact filter.run_fst direction parameters data
  | session direction parameters sink blocks ended =>
    rw [afterUse]
    cases begun : Session.start filter direction parameters sink with
    | error failure => exact Session.eq_abort_of_start begun
    | ok session =>
      obtain ⟨next, rfl, kept⟩ := Session.abort_start begun
      have settled : (Session.feedEach ⟨next, sink, direction, true, 0⟩ blocks).IsSettled :=
        Session.IsSettled.feedEach (.inl rfl) blocks
      have same := (Session.abort_feedEach ⟨next, sink, direction, true, 0⟩ blocks).trans kept
      dsimp only
      split
      · exact settled.state_finish.trans same
      · exact settled.drop_eq.trans same

/-- However a base-85 filter is used, for sessions and whole runs in either direction, every moment is
safe, and every use leaves the filter at rest. -/
theorem isSafe_of_mem_moments (state : Base85) (uses : List Use) :
    (∀ moment ∈ (base85 state).moments uses, moment.IsSafe)
      ∧ ∀ use, (uses.foldl afterUse (base85 state)).afterUse use = base85 .idle := by
  induction uses generalizing state with
  | nil => exact ⟨List.forall_mem_nil _, afterUse_eq (base85 state)⟩
  | cons use rest ih =>
    have rests : (base85 state).afterUse use = base85 .idle := afterUse_eq _ use
    obtain ⟨safe, left⟩ := ih .idle
    rw [moments, List.foldl_cons, rests]
    exact ⟨List.forall_mem_append.mpr ⟨isSafe_of_mem_useMoments state use, safe⟩, left⟩

/-- A group that is too large, a digit behind it in the same block, one more block, and then a run: the
five digits are read, and nothing else in that session. -/
example :
    let overflow : List UInt8 := [0x75, 0x75, 0x75, 0x75, 0x75, 0x21]
    let uses := [.session .decode none .unlimited [overflow, [0x21]] true, .run .encode none [7]]
    ((base85 .idle).moments uses).map (fun moment => (moment.state.count, moment.next))
      = [(0, some 0x75), (1, some 0x75), (2, some 0x75), (3, some 0x75), (4, some 0x75),
        (0, some 7), (1, none)] := rfl

end Safe

end Filter

end PdfFilters

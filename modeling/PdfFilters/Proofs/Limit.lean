import Mathlib.Data.List.Pairwise
import PdfFilters.Proofs.Record

/-!
# Sessions over a sink that runs full

A sink with room for so many bytes goes along with one that never fails until a call writes beyond
that room. That call fails for the sink, and what fitted is all that the sink holds from then on.

The answers over the one sink are those over the other, cut off at the limit
(`Sink.absorbEach_bounded`). What that means for a session is `Session.record_restrict`.
-/

namespace PdfFilters

/-- The sink with the same contents that takes no more than `limit` bytes in all. -/
def Sink.bounded (limit : Nat) (failure : WriteFailure) (sink : Sink) : Sink :=
  sink.restrict (some (limit - sink.accepted.size)) failure

/-- The answer with the same contents, from a sink that takes no more than `limit` bytes. -/
def Answer.bounded (limit : Nat) (failure : WriteFailure) (answer : Answer) : Answer :=
  ⟨answer.sink.bounded limit failure, answer.result⟩

/-- The sink that has taken as many of some bytes as it can. -/
def Sink.full (limit : Nat) (failure : WriteFailure) (bytes : Array UInt8) : Sink :=
  ⟨bytes.extract 0 limit, some 0, failure⟩

/-- What answers become if the sink takes no more than `limit` bytes. -/
def cutOff (limit : Nat) (failure : WriteFailure) : List Answer → List Answer
  | [] => []
  | answer :: rest =>
    if answer.sink.accepted.size ≤ limit then answer.bounded limit failure :: cutOff limit failure rest
    else
      let full := Sink.full limit failure answer.sink.accepted
      ⟨full, .error failure.fault⟩ :: List.replicate rest.length ⟨full, .error Session.alreadyFailed⟩

section CutOff

variable {limit : Nat} {failure : WriteFailure} {answer : Answer} (rest : List Answer)

theorem cutOff_cons_of_le (fits : answer.sink.accepted.size ≤ limit) :
    cutOff limit failure (answer :: rest)
      = answer.bounded limit failure :: cutOff limit failure rest :=
  if_pos fits

theorem cutOff_cons_of_lt (beyond : limit < answer.sink.accepted.size) :
    cutOff limit failure (answer :: rest)
      = ⟨.full limit failure answer.sink.accepted, .error failure.fault⟩
        :: List.replicate rest.length
          ⟨.full limit failure answer.sink.accepted, .error Session.alreadyFailed⟩ :=
  if_neg (Nat.not_le.mpr beyond)

/-- Answers within the limit stay as they are. -/
theorem cutOff_append {earlier : List Answer}
    (fits : ∀ answer ∈ earlier, answer.sink.accepted.size ≤ limit) :
    cutOff limit failure (earlier ++ rest)
      = earlier.map (Answer.bounded limit failure) ++ cutOff limit failure rest := by
  induction earlier with
  | nil => rfl
  | cons answer earlier ih =>
    rw [List.cons_append, cutOff_cons_of_le _ (fits answer List.mem_cons_self),
      ih fun other h => fits other (List.mem_cons_of_mem _ h), List.map_cons, List.cons_append]

theorem cutOff_of_le {answers : List Answer}
    (fits : ∀ answer ∈ answers, answer.sink.accepted.size ≤ limit) :
    cutOff limit failure answers = answers.map (Answer.bounded limit failure) := by
  have all : cutOff limit failure (answers ++ []) = _ := cutOff_append [] fits
  rwa [List.append_nil, cutOff, List.append_nil] at all

end CutOff

section Bounded

variable {accepted : Array UInt8} {limit : Nat} (usual failure : WriteFailure)

theorem Sink.size_append (accepted : Array UInt8) (bytes : List UInt8) :
    (accepted ++ bytes).size = accepted.size + bytes.length := by
  rw [← Array.length_toList, Array.toList_appendList, List.length_append, Array.length_toList]

/-- A call whose bytes fit leaves the sink with less room. -/
theorem Sink.absorb_bounded_of_le {emission : Emission Unit}
    (fits : (accepted ++ emission.bytes).size ≤ limit) :
    ((endless accepted usual).bounded limit failure).absorb emission
      = ((endless (accepted ++ emission.bytes) usual).bounded limit failure, emission.result) := by
  have size := size_append accepted emission.bytes
  have room : emission.bytes.length ≤ limit - accepted.size := by omega
  have left : limit - accepted.size - emission.bytes.length
      = limit - (accepted ++ emission.bytes).size := by
    omega
  refine absorb_of_write_ok ?_
  show write ⟨accepted, some (limit - accepted.size), failure⟩ emission.bytes = _
  rw [write, if_pos room, left]
  rfl

/-- A call whose bytes do not fit fails, and fills the sink. -/
theorem Sink.absorb_bounded_of_lt {emission : Emission Unit} (fits : accepted.size ≤ limit)
    (beyond : limit < (accepted ++ emission.bytes).size) :
    ((endless accepted usual).bounded limit failure).absorb emission
      = (full limit failure (accepted ++ emission.bytes), .error failure.fault) := by
  have size := size_append accepted emission.bytes
  have none : ¬ emission.bytes.length ≤ limit - accepted.size := by omega
  have part : accepted ++ emission.bytes.take (limit - accepted.size)
      = (accepted ++ emission.bytes).extract 0 limit := by
    apply Array.toList_inj.mp
    rw [Array.toList_appendList, Array.toList_extract, Array.toList_appendList,
      List.extract_eq_take_drop, List.drop_zero, Nat.sub_zero, List.take_append,
      List.take_of_length_le fits]
    rfl
  refine absorb_of_write_error ?_
  show write ⟨accepted, some (limit - accepted.size), failure⟩ emission.bytes = _
  rw [write, if_neg none, part]
  rfl

/-- A sink with room for so many bytes answers like one that never fails, up to the call that
crosses the limit. -/
theorem Sink.absorbEach_bounded (emissions : List (Emission Unit)) (fits : accepted.size ≤ limit) :
    ((endless accepted usual).bounded limit failure).absorbEach emissions
      = cutOff limit failure ((endless accepted usual).absorbEach emissions) := by
  induction emissions generalizing accepted with
  | nil => rfl
  | cons emission rest ih =>
    have free := absorb_endless accepted usual emission
    rcases Nat.lt_or_ge limit (accepted ++ emission.bytes).size with beyond | more
    · rw [absorbEach_cons_error rest (absorb_bounded_of_lt usual failure fits beyond)]
      cases ended : emission.result with
      | ok _ =>
        rw [ended] at free
        rw [absorbEach_cons_ok rest free, cutOff_cons_of_lt _ beyond, length_absorbEach]
        rfl
      | error fault =>
        rw [ended] at free
        rw [absorbEach_cons_error rest free, cutOff_cons_of_lt _ beyond, List.length_replicate]
        rfl
    · have same := absorb_bounded_of_le usual failure more
      cases ended : emission.result with
      | ok _ =>
        rw [ended] at free same
        rw [absorbEach_cons_ok rest free, absorbEach_cons_ok rest same, ih more,
          cutOff_cons_of_le _ more]
        rfl
      | error fault =>
        rw [ended] at free same
        rw [absorbEach_cons_error rest free, absorbEach_cons_error rest same,
          cutOff_cons_of_le _ more, cutOff_of_le, List.map_replicate]
        · rfl
        · intro answer h
          rw [List.eq_of_mem_replicate h]
          exact more

/-- A sink that never fails only ever holds more. -/
theorem Sink.pairwise_absorbEach (emissions : List (Emission Unit)) (accepted : Array UInt8) :
    (∀ answer ∈ (endless accepted usual).absorbEach emissions,
        accepted.toList <+: answer.sink.accepted.toList)
      ∧ ((endless accepted usual).absorbEach emissions).Pairwise fun first second =>
          first.sink.accepted.toList <+: second.sink.accepted.toList := by
  induction emissions generalizing accepted with
  | nil => exact ⟨List.forall_mem_nil _, .nil⟩
  | cons emission rest ih =>
    have free := absorb_endless accepted usual emission
    have more : accepted.toList <+: (accepted ++ emission.bytes).toList := by
      rw [Array.toList_appendList]
      exact List.prefix_append _ _
    cases ended : emission.result with
    | ok _ =>
      obtain ⟨grows, pairwise⟩ := ih (accepted ++ emission.bytes)
      rw [ended] at free
      rw [absorbEach_cons_ok rest free]
      refine ⟨fun answer h => ?_, .cons grows pairwise⟩
      rcases List.mem_cons.mp h with rfl | h
      · exact more
      · exact more.trans (grows answer h)
    | error fault =>
      rw [ended] at free
      rw [absorbEach_cons_error rest free]
      refine ⟨fun answer h => ?_, .cons (fun answer h => ?_) ?_⟩
      · rcases List.mem_cons.mp h with rfl | h
        · exact more
        · rw [List.eq_of_mem_replicate h]
          exact more
      · obtain rfl := List.eq_of_mem_replicate h
        exact List.prefix_refl _
      · exact List.pairwise_replicate.mpr (.inr (List.prefix_refl _))

end Bounded

/-- The bytes that the sink holds after the last of some calls. -/
def lastHeld (answers : List Answer) : List UInt8 :=
  match answers.getLast? with
  | none => []
  | some answer => answer.sink.accepted.toList

theorem lastHeld_eq {answers : List Answer} (some : answers ≠ []) :
    lastHeld answers = (answers.getLast some).sink.accepted.toList := by
  rw [lastHeld, List.getLast?_eq_some_getLast some]

theorem length_lastHeld_le {answers : List Answer} {limit : Nat}
    (fits : ∀ answer ∈ answers, answer.sink.accepted.size ≤ limit) :
    (lastHeld answers).length ≤ limit := by
  rw [lastHeld]
  cases last : answers.getLast? with
  | none => exact Nat.zero_le limit
  | some answer => exact fits answer (List.mem_of_getLast? last)

theorem lastHeld_map_bounded (limit : Nat) (failure : WriteFailure) (answers : List Answer) :
    lastHeld (answers.map (Answer.bounded limit failure)) = lastHeld answers := by
  rw [lastHeld, lastHeld, List.getLast?_map]
  cases answers.getLast? <;> rfl

/-- Either all answers come with few bytes, or there is a first one that does not. -/
theorem exists_crossing (answers : List Answer) (limit : Nat) :
    (∀ answer ∈ answers, answer.sink.accepted.size ≤ limit)
      ∨ ∃ earlier crossing later, answers = earlier ++ crossing :: later
        ∧ (∀ answer ∈ earlier, answer.sink.accepted.size ≤ limit)
        ∧ limit < crossing.sink.accepted.size := by
  induction answers with
  | nil => exact .inl (List.forall_mem_nil _)
  | cons answer rest ih =>
    rcases Nat.lt_or_ge limit answer.sink.accepted.size with beyond | few
    · exact .inr ⟨[], answer, rest, rfl, List.forall_mem_nil _, beyond⟩
    · rcases ih with all | ⟨earlier, crossing, later, rfl, fits, beyond⟩
      · refine .inl fun other h => ?_
        rcases List.mem_cons.mp h with rfl | h
        · exact few
        · exact all other h
      · refine .inr ⟨answer :: earlier, crossing, later, rfl, fun other h => ?_, beyond⟩
        rcases List.mem_cons.mp h with rfl | h
        · exact few
        · exact fits other h

/-- What a filter makes of a sink that fails keeps its identity only if it is a shortage of memory,
said to be one, that tells how much was wanted. -/
theorem WriteFailure.fault_cases (failure : WriteFailure) :
    (∃ requested, failure = .carried true (.outOfMemory requested)
        ∧ failure.fault = .outOfMemory requested)
      ∨ (∀ requested, failure ≠ .carried true (.outOfMemory requested))
        ∧ ∃ reason, failure.fault = .sink reason := by
  cases failure with
  | stalled => exact .inr ⟨nofun, _, rfl⟩
  | told shortage reason => exact .inr ⟨nofun, _, rfl⟩
  | carried shortage cause =>
    cases shortage with
    | false => exact .inr ⟨nofun, _, rfl⟩
    | true =>
      cases cause with
      | outOfMemory requested => exact .inl ⟨requested, rfl, rfl⟩
      | _ => exact .inr ⟨nofun, _, rfl⟩

section Crossing

variable {limit : Nat} {answers earlier : List Answer} {crossing : Answer}

/-- Answers that come with few bytes in the end are left as they are. -/
theorem cutOff_of_length_lastHeld_le (failure : WriteFailure)
    (grows : ∀ answer ∈ answers, answer.sink.accepted.toList <+: lastHeld answers)
    (few : (lastHeld answers).length ≤ limit) :
    (cutOff limit failure answers).map Answer.result = answers.map Answer.result
      ∧ lastHeld (cutOff limit failure answers) = lastHeld answers := by
  have fits : ∀ answer ∈ answers, answer.sink.accepted.size ≤ limit := by
    intro answer h
    exact Nat.le_trans (grows answer h).length_le few
  rw [cutOff_of_le fits, List.map_map, lastHeld_map_bounded]
  exact ⟨rfl, rfl⟩

/-- Up to the answer that crosses the limit nothing differs. That one is a failure of the sink, and the
later ones refuse, with what fitted in the sink. -/
theorem cutOff_append_cons (failure : WriteFailure) (later : List Answer)
    (fits : ∀ answer ∈ earlier, answer.sink.accepted.size ≤ limit)
    (beyond : limit < crossing.sink.accepted.size) :
    let cut := cutOff limit failure (earlier ++ crossing :: later)
    cut.map Answer.result = earlier.map Answer.result
        ++ .error failure.fault :: List.replicate later.length (.error Session.alreadyFailed)
      ∧ (cut.take earlier.length).map (·.sink.accepted) = earlier.map (·.sink.accepted)
      ∧ ∀ answer ∈ cut.drop earlier.length,
        answer.sink.accepted = crossing.sink.accepted.extract 0 limit := by
  intro cut
  have parts : cut = earlier.map (Answer.bounded limit failure) ++ _ :=
    (cutOff_append _ fits).trans (congrArg _ (cutOff_cons_of_lt later beyond))
  rw [parts]
  refine ⟨?_, ?_, ?_⟩
  · rw [List.map_append, List.map_map, List.map_cons, List.map_replicate]
    rfl
  · rw [List.take_left' (List.length_map _), List.map_map]
    rfl
  · rw [List.drop_left' (List.length_map _)]
    intro answer h
    rcases List.mem_cons.mp h with rfl | h
    · rfl
    · rw [List.eq_of_mem_replicate h]
      rfl

/-- What fits of the bytes of one call is what fits of all that comes to the sink. -/
theorem toList_extract_of_prefix {accepted : Array UInt8} {written : List UInt8}
    (grows : accepted.toList <+: written) (beyond : limit < accepted.size) :
    (accepted.extract 0 limit).toList = written.take limit := by
  obtain ⟨more, rfl⟩ := grows
  rw [Array.toList_extract, List.extract_eq_take_drop, List.drop_zero, Nat.sub_zero,
    List.take_append_of_le_length (Nat.le_of_lt beyond)]

/-- If the bytes are too many in the end, some answer crosses the limit. -/
theorem exists_cutOff_of_lt_length_lastHeld (failure : WriteFailure)
    (grows : ∀ answer ∈ answers, answer.sink.accepted.toList <+: lastHeld answers)
    (many : limit < (lastHeld answers).length) :
    let cut := cutOff limit failure answers
    ∃ earlier crossing later, answers = earlier ++ crossing :: later
      ∧ (∀ answer ∈ earlier, answer.sink.accepted.size ≤ limit)
      ∧ limit < crossing.sink.accepted.size
      ∧ cut.map Answer.result = earlier.map Answer.result
        ++ .error failure.fault :: List.replicate later.length (.error Session.alreadyFailed)
      ∧ (cut.take earlier.length).map (·.sink.accepted) = earlier.map (·.sink.accepted)
      ∧ ∀ answer ∈ cut.drop earlier.length,
        answer.sink.accepted.toList = (lastHeld answers).take limit := by
  intro cut
  rcases exists_crossing answers limit with all | ⟨earlier, crossing, later, split, fits, beyond⟩
  · exact absurd (length_lastHeld_le all) (Nat.not_le.mpr many)
  · have cut_eq : cut = cutOff limit failure (earlier ++ crossing :: later) := congrArg _ split
    have crosses : crossing ∈ answers := split ▸ List.mem_append_right _ List.mem_cons_self
    obtain ⟨results, before, filled⟩ := cutOff_append_cons failure later fits beyond
    rw [← cut_eq] at results before filled
    refine ⟨earlier, crossing, later, split, fits, beyond, results, before, fun answer h => ?_⟩
    rw [filled answer h, toList_extract_of_prefix (grows crossing crosses) beyond]

end Crossing

namespace Session

variable [Host]

section Record

variable (filter : Filter) (direction : Direction) (parameters : Option Parameters)
  (blocks : List (List UInt8))

/-- With no more room than `limit` bytes, the answers of a session are cut off. -/
theorem record_restrict_eq_cutOff (limit : Nat) (failure : WriteFailure) :
    record filter direction parameters blocks (Sink.unlimited.restrict (some limit) failure)
      = cutOff limit failure (record filter direction parameters blocks .unlimited) := by
  obtain ⟨emissions, same⟩ := exists_emissions filter direction parameters blocks
  have bounded : Sink.absorbEach ((Sink.endless #[] .stalled).bounded limit failure) emissions = _ :=
    Sink.absorbEach_bounded .stalled failure emissions (Nat.zero_le limit)
  rw [← Sink.unlimited_eq_endless, ← same, ← same] at bounded
  exact bounded

/-- A sink that never fails holds more and more of what it holds in the end. -/
theorem prefix_lastHeld_record : ∀ answer ∈ record filter direction parameters blocks .unlimited,
    answer.sink.accepted.toList
      <+: lastHeld (record filter direction parameters blocks .unlimited) := by
  intro answer h
  obtain ⟨emissions, same⟩ := exists_emissions filter direction parameters blocks
  have grows := (Sink.pairwise_absorbEach .stalled emissions #[]).2
  rw [← Sink.unlimited_eq_endless, ← same] at grows
  have last := grows.rel_getLast_of_rel_getLast_getLast h (List.prefix_refl _)
  rwa [← lastHeld_eq] at last

end Record

/-- A session over a sink that takes no more than `limit` bytes, next to the same session over one
that never fails and ends up with the bytes `written`. If these are within the limit, all calls
answer the same and the sink holds them. Otherwise there is a call that crosses the limit. Those
before it answer the same, with the same bytes in the sink; it fails for the reason of the sink, and
all later ones are refused, while the sink holds the first `limit` bytes of `written`. The reason of
the sink is a fault of the sink, unless it is a shortage of memory that tells how much was wanted. -/
theorem record_restrict (filter : Filter) (direction : Direction) (parameters : Option Parameters)
    (blocks : List (List UInt8)) (limit : Nat) (failure : WriteFailure) :
    let free := record filter direction parameters blocks .unlimited
    let limited := record filter direction parameters blocks
      (Sink.unlimited.restrict (some limit) failure)
    let written := lastHeld free
    (written.length ≤ limit →
        limited.map Answer.result = free.map Answer.result ∧ lastHeld limited = written)
      ∧ (limit < written.length → ∃ earlier crossing later,
        free = earlier ++ crossing :: later
          ∧ (∀ answer ∈ earlier, answer.sink.accepted.size ≤ limit)
          ∧ limit < crossing.sink.accepted.size
          ∧ limited.map Answer.result = earlier.map Answer.result
            ++ .error failure.fault :: List.replicate later.length (.error alreadyFailed)
          ∧ (limited.take earlier.length).map (·.sink.accepted) = earlier.map (·.sink.accepted)
          ∧ ∀ answer ∈ limited.drop earlier.length,
            answer.sink.accepted.toList = written.take limit)
      ∧ ((∃ requested, failure = .carried true (.outOfMemory requested)
            ∧ failure.fault = .outOfMemory requested)
        ∨ (∀ requested, failure ≠ .carried true (.outOfMemory requested))
          ∧ ∃ reason, failure.fault = .sink reason) := by
  intro free limited written
  have grows := prefix_lastHeld_record filter direction parameters blocks
  have limited_eq : limited = cutOff limit failure free :=
    record_restrict_eq_cutOff filter direction parameters blocks limit failure
  rw [limited_eq]
  exact ⟨cutOff_of_length_lastHeld_le failure grows,
    exists_cutOff_of_lt_length_lastHeld failure grows, failure.fault_cases⟩

end Session

end PdfFilters

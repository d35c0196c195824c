import PdfFilters.Proofs.Session

/-!
# What every call of a session answers

A caller may go on calling after a fault. `Session.answers` are the answers to blocks that are fed
one after another whatever happens, and `Session.record` those of a whole session: to beginning it, to
each block, and to ending it. An answer is a result together with the sink that comes with it.

No filter looks at its sink. So a session comes down to a sequence of emissions, one for each call,
and a sink absorbs them one after another until a call fails, after which the others are refused
(`Session.exists_emissions`).
-/

namespace PdfFilters

/-- What a caller sees of a call: the sink after it, and its result. -/
structure Answer where
  sink : Sink
  result : Except Fault Unit

/-- The answers to calls that emit these, one after another. After a fault no call gets through to
the sink. -/
def Sink.absorbEach (sink : Sink) : List (Emission Unit) → List Answer
  | [] => []
  | emission :: rest =>
    match sink.absorb emission with
    | (sink, .ok ()) => ⟨sink, .ok ()⟩ :: sink.absorbEach rest
    | (sink, .error fault) =>
      ⟨sink, .error fault⟩ :: List.replicate rest.length ⟨sink, .error Session.alreadyFailed⟩

namespace Sink

variable {sink left : Sink} {emission : Emission Unit} (rest : List (Emission Unit))

theorem absorbEach_cons_ok (fine : sink.absorb emission = (left, .ok ())) :
    sink.absorbEach (emission :: rest) = ⟨left, .ok ()⟩ :: left.absorbEach rest := by
  rw [absorbEach, fine]

theorem absorbEach_cons_error {fault : Fault} (failed : sink.absorb emission = (left, .error fault)) :
    sink.absorbEach (emission :: rest)
      = ⟨left, .error fault⟩ :: List.replicate rest.length ⟨left, .error Session.alreadyFailed⟩ := by
  rw [absorbEach, failed]

theorem absorbEach_single (sink : Sink) (emission : Emission Unit) :
    sink.absorbEach [emission] = [⟨(sink.absorb emission).1, (sink.absorb emission).2⟩] := by
  rcases absorbed : sink.absorb emission with ⟨left, fault | _⟩
  · exact absorbEach_cons_error [] absorbed
  · exact absorbEach_cons_ok [] absorbed

theorem length_absorbEach (sink : Sink) (emissions : List (Emission Unit)) :
    (sink.absorbEach emissions).length = emissions.length := by
  induction emissions generalizing sink with
  | nil => rfl
  | cons emission rest ih =>
    rcases absorbed : sink.absorb emission with ⟨left, fault | _⟩
    · rw [absorbEach_cons_error rest absorbed, List.length_cons, List.length_replicate,
        List.length_cons]
    · rw [absorbEach_cons_ok rest absorbed, List.length_cons, ih, List.length_cons]

end Sink

namespace Session

variable [Host]

/-- The session after blocks that are fed one after another, whatever the answers. -/
def feedEach (session : Session) (blocks : List (List UInt8)) : Session :=
  blocks.foldl (fun session block => (session.feed block).1) session

/-- The answers to blocks that are fed one after another. -/
def answers (session : Session) : List (List UInt8) → List Answer
  | [] => []
  | block :: rest =>
    let (next, result) := session.feed block
    ⟨next.sink, result⟩ :: next.answers rest

/-- The answers to blocks and to the end after them. -/
def answersToEnd (session : Session) (blocks : List (List UInt8)) : List Answer :=
  let ended := (session.feedEach blocks).finish
  session.answers blocks ++ [⟨ended.sink, ended.result⟩]

/-- The answers to all calls of a session: to beginning it, to feeding each block, and to ending it.
A session that does not begin has no more calls. -/
def record (filter : Filter) (direction : Direction) (parameters : Option Parameters)
    (blocks : List (List UInt8)) (sink : Sink) : List Answer :=
  match start filter direction parameters sink with
  | .error (_, fault) => [⟨sink, .error fault⟩]
  | .ok session => ⟨session.sink, .ok ()⟩ :: session.answersToEnd blocks

/-- After a fault all calls are refused, and nothing changes. -/
theorem refused (filter : Filter) (sink : Sink) (direction : Direction) (fed : Nat)
    (blocks : List (List UInt8)) :
    feedEach ⟨filter, sink, direction, false, fed⟩ blocks = ⟨filter, sink, direction, false, fed⟩
      ∧ answers ⟨filter, sink, direction, false, fed⟩ blocks
        = List.replicate blocks.length ⟨sink, .error alreadyFailed⟩ := by
  induction blocks with
  | nil => exact ⟨rfl, rfl⟩
  | cons block rest ih => exact ⟨ih.1, congrArg (List.cons _) ih.2⟩

theorem answersToEnd_refused (filter : Filter) (sink : Sink) (direction : Direction) (fed : Nat)
    (blocks : List (List UInt8)) :
    answersToEnd ⟨filter, sink, direction, false, fed⟩ blocks
      = List.replicate (blocks.length + 1) ⟨sink, .error alreadyFailed⟩ := by
  obtain ⟨same, answered⟩ := refused filter sink direction fed blocks
  rw [answersToEnd, same, answered, List.replicate_succ']
  rfl

theorem answersToEnd_nil (session : Session) :
    session.answersToEnd [] = [⟨session.finish.sink, session.finish.result⟩] := rfl

theorem answersToEnd_cons (session : Session) (block : List UInt8) (rest : List (List UInt8)) :
    session.answersToEnd (block :: rest)
      = ⟨(session.feed block).1.sink, (session.feed block).2⟩
        :: (session.feed block).1.answersToEnd rest := rfl

variable {direction : Direction}

/-- What an open session does with a block, in terms of what its codec emits. -/
theorem feed_codec (codec : Codec direction) {state : codec.State} (occurs : codec.occurs state)
    (sink : Sink) (fed : Nat) (block : List UInt8) :
    feed ⟨codec.filter state, sink, direction, true, fed⟩ block
      = match sink.absorb (codec.take state block) with
        | (left, .ok next) =>
          (⟨codec.filter next, left, direction, true, fed + block.length⟩, .ok ())
        | (left, .error fault) =>
          (⟨(codec.filter state).abort, left, direction, false, fed + block.length⟩,
            .error fault) := by
  have emits := codec.emits_block occurs block sink
  have aborted := (codec.filter state).abort_block direction block sink
  dsimp only at emits
  rw [Sink.absorb_map] at emits
  rw [feed]
  rcases absorbed : sink.absorb (codec.take state block) with ⟨left, fault | next⟩
  · rw [absorbed] at emits
    obtain ⟨after, same⟩ := Reply.exists_of_outcome_error emits
    rw [same] at aborted ⊢
    dsimp only at aborted ⊢
    rw [aborted]
  · rw [absorbed] at emits
    rw [Reply.eq_of_outcome_ok emits]

/-- What an open session does at the end, in terms of what its codec emits. -/
theorem finish_codec (codec : Codec direction) {state : codec.State} (occurs : codec.occurs state)
    (sink : Sink) (fed : Nat) :
    (finish ⟨codec.filter state, sink, direction, true, fed⟩).outcome
      = sink.absorb (codec.close state) := by
  rw [← codec.emits_finish occurs sink, finish]
  dsimp only
  obtain ⟨after, left, result⟩ := (codec.filter state).finish direction sink
  cases result <;> rfl

/-- The answers of an open session are those of its sink to one emission after another. -/
theorem exists_emissions_of_codec (codec : Codec direction) {state : codec.State}
    (occurs : codec.occurs state) (blocks : List (List UInt8)) :
    ∃ emissions : List (Emission Unit), emissions.length = blocks.length + 1 ∧ ∀ sink fed,
      answersToEnd ⟨codec.filter state, sink, direction, true, fed⟩ blocks
        = sink.absorbEach emissions := by
  induction blocks generalizing state with
  | nil =>
    refine ⟨[(codec.close state).map fun _ => ()], rfl, fun sink fed => ?_⟩
    have ended := finish_codec codec occurs sink fed
    rw [answersToEnd_nil, Sink.absorbEach_single, Sink.absorb_map, ← ended, ← Reply.result_eq]
    rfl
  | cons block rest ih =>
    -- The emissions of the calls that follow, if there are any that get through.
    obtain ⟨later, length, same⟩ : ∃ later : List (Emission Unit), later.length = rest.length + 1
        ∧ ∀ next, (codec.take state block).result = .ok next → ∀ sink fed,
          answersToEnd ⟨codec.filter next, sink, direction, true, fed⟩ rest
            = sink.absorbEach later := by
      cases ended : (codec.take state block).result with
      | error fault =>
        exact ⟨List.replicate (rest.length + 1) (.quiet (.ok ())), List.length_replicate, nofun⟩
      | ok next =>
        obtain ⟨later, length, same⟩ := ih (codec.occurs_of_ok occurs ended)
        refine ⟨later, length, fun other fine => ?_⟩
        cases fine
        exact same
    refine ⟨(codec.take state block).map (fun _ => ()) :: later,
      by rw [List.length_cons, length, List.length_cons], fun sink fed => ?_⟩
    have mapped := sink.absorb_map (codec.take state block) fun _ => ()
    rw [answersToEnd_cons, feed_codec codec occurs]
    rcases absorbed : sink.absorb (codec.take state block) with ⟨left, fault | next⟩
    · rw [absorbed] at mapped
      rw [Sink.absorbEach_cons_error later mapped, length]
      dsimp only
      rw [answersToEnd_refused]
    · rw [absorbed] at mapped
      rw [Sink.absorbEach_cons_ok later mapped]
      dsimp only
      rw [same next (Sink.write_of_absorb_ok absorbed).2]

/-- What the calls of a session answer is what a sink answers to one emission after another,
whichever sink it is. -/
theorem exists_emissions (filter : Filter) (direction : Direction) (parameters : Option Parameters)
    (blocks : List (List UInt8)) :
    ∃ emissions : List (Emission Unit), ∀ sink,
      record filter direction parameters blocks sink = sink.absorbEach emissions := by
  rcases begin_cases filter direction parameters with
    ⟨left, fault, failed⟩ | ⟨codec, state, occurs, begun, _⟩
  · refine ⟨[.quiet (.error fault)], fun sink => ?_⟩
    rw [Sink.absorbEach_single, Sink.absorb_quiet, record, start, failed]
  · obtain ⟨emissions, _, same⟩ := exists_emissions_of_codec codec occurs blocks
    refine ⟨.quiet (.ok ()) :: emissions, fun sink => ?_⟩
    rw [Sink.absorbEach_cons_ok emissions (sink.absorb_quiet _), record, start, begun, ← same sink 0]

end Session

end PdfFilters

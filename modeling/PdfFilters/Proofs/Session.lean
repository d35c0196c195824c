import PdfFilters.Proofs.Codec
import PdfFilters.Session

/-!
# What a whole pass emits and leaves behind

A pass through a filter emits what its codec emits for the blocks, and then for the end
(`emits_pass_of_begin`). So a pass does the same to every sink (`emits_passed`).

However it goes, a pass leaves the filter as an abort would (`state_pass`), and a filter that was
aborted passes data like it would have before (`pass_abort`). Hence passes through one filter do not
notice one another.

Apart from the abort after a fault, a pass makes the calls that can be made on the filter directly
(`pass_eq_runBlocks`).
-/

namespace PdfFilters

variable [Host]

namespace Filter

theorem abort_abort (filter : Filter) : filter.abort.abort = filter.abort := by
  cases filter <;> rfl

theorem name_abort (filter : Filter) : filter.abort.name = filter.name := by
  cases filter <;> rfl

theorem abort_begin (filter : Filter) (direction : Direction) (parameters : Option Parameters) :
    (filter.begin direction parameters).1.abort = filter.abort := by
  cases filter with
  | flate state =>
    cases direction with
    | encode =>
      simp only [begin, Flate.beginEncode]
      split <;> rfl
    | decode =>
      simp only [begin, Flate.beginDecode]
      split <;> rfl
  | _ => cases direction <;> rfl

end Filter

namespace Flate

theorem config_decodeBlock (filter : Flate) (block : List UInt8) (sink : Sink) :
    (filter.decodeBlock block sink).state.config = filter.config := by
  obtain ⟨config, session⟩ := filter
  cases session with
  | decoding engine rows finished =>
    cases finished with
    | true => rfl
    | false =>
      cases rows with
      | none =>
        simp only [decodeBlock]
        split <;> rfl
      | some rows =>
        simp only [decodeBlock]
        split <;> rfl
  | _ => rfl

theorem config_encodeBlock (filter : Flate) (block : List UInt8) (sink : Sink) :
    (filter.encodeBlock block sink).state.config = filter.config := by
  obtain ⟨config, session⟩ := filter
  cases session with
  | encoding engine =>
    simp only [encodeBlock]
    split <;> rfl
  | _ => rfl

theorem state_endDecode (filter : Flate) (sink : Sink) :
    (filter.endDecode sink).state = idle filter.config := by
  obtain ⟨config, session⟩ := filter
  cases session with
  | decoding engine rows finished => cases rows <;> rfl
  | _ => rfl

theorem state_endEncode (filter : Flate) (sink : Sink) :
    (filter.endEncode sink).state = idle filter.config := by
  obtain ⟨config, session⟩ := filter
  cases session <;> rfl

end Flate

namespace Filter

/-- A block leaves a filter of the same kind, set up the same. -/
theorem abort_block (filter : Filter) (direction : Direction) (bytes : List UInt8) (sink : Sink) :
    (filter.block direction bytes sink).state.abort = filter.abort := by
  cases filter with
  | flate state =>
    cases direction with
    | encode =>
      show flate (.idle (state.encodeBlock bytes sink).state.config) = flate (.idle state.config)
      rw [state.config_encodeBlock]
    | decode =>
      show flate (.idle (state.decodeBlock bytes sink).state.config) = flate (.idle state.config)
      rw [state.config_decodeBlock]
  | _ => cases direction <;> rfl

/-- A session that ends well leaves the filter as an abort would. -/
theorem state_finish (filter : Filter) (direction : Direction) (sink : Sink)
    (fine : (filter.finish direction sink).result = .ok ()) :
    (filter.finish direction sink).state = filter.abort := by
  cases filter with
  | hex state =>
    cases direction with
    | encode => rfl
    | decode =>
      have ended := state.emits_endDecode.state_eq fine
      rw [Hex.ending] at ended
      split at ended <;> exact congrArg hex (Except.ok.inj ended).symm
  | base85 state =>
    -- The ends of both texts are known as emissions, and these say what the filter is then.
    cases direction with
    | encode =>
      have ended := state.emits_endEncode.state_eq fine
      exact congrArg base85 (Except.ok.inj ended).symm
    | decode =>
      have ended := state.emits_endDecode.state_eq fine
      rw [Base85.ending] at ended
      split at ended
      · cases ended
      · split at ended
        · exact congrArg base85 (Except.ok.inj ended).symm
        · split at ended
          · cases ended
          · exact congrArg base85 (Except.ok.inj ended).symm
  | lzw state =>
    cases direction with
    | encode => cases fine
    | decode =>
      obtain ⟨session⟩ := state
      cases session with
      | none => rfl
      | some session => obtain ⟨decoder, rows⟩ := session; cases rows <;> rfl
  | flate state =>
    cases direction with
    | encode => exact congrArg flate (state.state_endEncode sink)
    | decode => exact congrArg flate (state.state_endDecode sink)
  | runLength state =>
    cases direction with
    | encode => cases fine
    | decode => rfl
  | absent name kind => cases direction <;> cases fine

theorem abort_finish (filter : Filter) (direction : Direction) (sink : Sink) :
    (filter.finish direction sink).state.abort = filter.abort := by
  cases filter with
  | flate state =>
    cases direction with
    | encode =>
      show flate (.idle (state.endEncode sink).state.config) = flate (.idle state.config)
      rw [state.state_endEncode]
      rfl
    | decode =>
      show flate (.idle (state.endDecode sink).state.config) = flate (.idle state.config)
      rw [state.state_endDecode]
      rfl
  | _ => cases direction <;> rfl

/-- Hand over blocks one after another, up to the first fault. -/
def handOver (filter : Filter) (direction : Direction) (blocks : List (List UInt8)) (sink : Sink) :
    Reply Filter :=
  match blocks with
  | [] => ⟨filter, sink, .ok ()⟩
  | block :: rest =>
    match filter.block direction block sink with
    | ⟨next, sink, .ok ()⟩ => next.handOver direction rest sink
    | ⟨next, sink, .error fault⟩ => ⟨next, sink, .error fault⟩

/-- Begin, hand over blocks, and finish, up to the first fault. -/
def runBlocks (filter : Filter) (direction : Direction) (parameters : Option Parameters)
    (blocks : List (List UInt8)) (sink : Sink) : Reply Filter :=
  match filter.begin direction parameters with
  | (filter, .error fault) => ⟨filter, sink, .error fault⟩
  | (filter, .ok ()) =>
    match filter.handOver direction blocks sink with
    | ⟨filter, sink, .error fault⟩ => ⟨filter, sink, .error fault⟩
    | ⟨filter, sink, .ok ()⟩ => filter.finish direction sink

theorem runBlocks_single (filter : Filter) (direction : Direction) (parameters : Option Parameters)
    (data : List UInt8) (sink : Sink) :
    filter.runBlocks direction parameters [data] sink
      = filter.runOnce direction parameters data sink := by
  rw [runBlocks, runOnce]
  rcases filter.begin direction parameters with ⟨next, fault | _⟩
  · rfl
  · dsimp only
    rw [handOver]
    rcases next.block direction data sink with ⟨next, left, fault | _⟩ <;> rfl

end Filter

/-- The reply with its filter aborted, unless the call succeeded. -/
def Reply.settled (reply : Reply Filter) : Reply Filter :=
  match reply with
  | ⟨filter, sink, .ok ()⟩ => ⟨filter, sink, .ok ()⟩
  | ⟨filter, sink, .error fault⟩ => ⟨filter.abort, sink, .error fault⟩

theorem Reply.eq_of_settled_ok {reply : Reply Filter} {filter : Filter} {sink : Sink}
    (fine : reply.settled = ⟨filter, sink, .ok ()⟩) : reply = ⟨filter, sink, .ok ()⟩ := by
  obtain ⟨left, taken, fault | _⟩ := reply
  · cases fine
  · exact fine

namespace Session

variable {direction : Direction}

/-- The rest of a pass, once it has begun. -/
def conclude (session : Session) (blocks : List (List UInt8)) : Reply Filter :=
  match session.feedAll blocks with
  | (session, .ok ()) => session.finish
  | (session, .error fault) => ⟨session.drop, session.sink, .error fault⟩

theorem conclude_nil (filter : Filter) (sink : Sink) (fed : Nat) :
    (conclude ⟨filter, sink, direction, true, fed⟩ []).outcome
      = (filter.finish direction sink).outcome := by
  simp only [conclude, feedAll, finish]
  obtain ⟨left, sink, result⟩ := filter.finish direction sink
  cases result <;> rfl

theorem conclude_cons (filter : Filter) (sink : Sink) (fed : Nat) (block : List UInt8)
    (rest : List (List UInt8)) :
    (conclude ⟨filter, sink, direction, true, fed⟩ (block :: rest)).outcome
      = Sink.proceed (filter.block direction block sink).outcome fun next sink =>
          (conclude ⟨next, sink, direction, true, fed + block.length⟩ rest).outcome := by
  simp only [conclude, feedAll, feed]
  obtain ⟨next, left, result⟩ := filter.block direction block sink
  cases result <;> rfl

/-- An open session emits what its codec emits for the blocks to come, and then for the end. -/
theorem emits_conclude (codec : Codec direction) {state : codec.State} (occurs : codec.occurs state)
    (fed : Nat) (blocks : List (List UInt8)) :
    Emits (fun sink => (conclude ⟨codec.filter state, sink, direction, true, fed⟩ blocks).outcome)
      ((emitAll codec.take state blocks).andThen codec.close) := by
  induction blocks generalizing state fed with
  | nil =>
    simp only [conclude_nil]
    exact codec.emits_finish occurs
  | cons block rest ih =>
    simp only [conclude_cons]
    rw [emitAll, Emission.andThen_assoc]
    exact (codec.emits_block occurs block).andThen_map fun next taken =>
      ih (codec.occurs_of_ok occurs taken) _

/-- A pass that begins emits what its codec emits for the blocks, and then for the end. -/
theorem emits_pass_of_begin (codec : Codec direction) {state : codec.State}
    (occurs : codec.occurs state) {filter : Filter} {parameters : Option Parameters}
    (begun : filter.begin direction parameters = (codec.filter state, .ok ()))
    (blocks : List (List UInt8)) :
    Emits (fun sink => (pass filter direction parameters blocks sink).outcome)
      ((emitAll codec.take state blocks).andThen codec.close) := by
  have emits := emits_conclude codec occurs 0 blocks
  simp only [pass, start, begun]
  exact emits

/-- A pass that cannot begin emits nothing. -/
theorem emits_pass_of_error {filter left : Filter} {parameters : Option Parameters} {fault : Fault}
    (failed : filter.begin direction parameters = (left, .error fault))
    (blocks : List (List UInt8)) :
    Emits (fun sink => (pass filter direction parameters blocks sink).outcome)
      (.quiet (.error fault)) := by
  simp only [pass, start, failed]
  exact Emits.quiet (.error fault)

/-- What a pass emits. -/
def passed (filter : Filter) (direction : Direction) (parameters : Option Parameters)
    (blocks : List (List UInt8)) : Emission Filter :=
  emissionOf fun sink => (pass filter direction parameters blocks sink).outcome

/-- A pass does the same to every sink. -/
theorem emits_passed (filter : Filter) (direction : Direction) (parameters : Option Parameters)
    (blocks : List (List UInt8)) :
    Emits (fun sink => (pass filter direction parameters blocks sink).outcome)
      (passed filter direction parameters blocks) := by
  rcases begin_cases filter direction parameters with ⟨_, _, failed⟩ | ⟨codec, _, occurs, begun, _⟩
  · exact (emits_pass_of_error failed blocks).emissionOf
  · exact (emits_pass_of_begin codec occurs begun blocks).emissionOf

/-- An open session that ends leaves its filter as an abort would: at rest, or aborted after a fault. -/
theorem state_finish (filter : Filter) (sink : Sink) (fed : Nat) :
    (finish ⟨filter, sink, direction, true, fed⟩).state = filter.abort := by
  have ok := filter.state_finish direction sink
  have error := filter.abort_finish direction sink
  rw [finish]
  rcases answer : filter.finish direction sink with ⟨left, sink, fault | _⟩
  · rw [answer] at error
    exact error
  · rw [answer] at ok
    exact ok rfl

/-- However an open session goes on, it leaves its filter as an abort would. -/
theorem state_conclude (filter : Filter) (sink : Sink) (fed : Nat) (blocks : List (List UInt8)) :
    (conclude ⟨filter, sink, direction, true, fed⟩ blocks).state = filter.abort := by
  induction blocks generalizing filter sink fed with
  | nil => exact state_finish filter sink fed
  | cons block rest ih =>
    have same := filter.abort_block direction block sink
    simp only [conclude, feedAll, feed]
    generalize filter.block direction block sink = reply at same
    obtain ⟨next, sink, result⟩ := reply
    cases result with
    | ok _ => exact (ih next sink _).trans same
    | error fault => exact same

/-- A pass leaves the filter as an abort would. -/
theorem state_pass (filter : Filter) (parameters : Option Parameters)
    (blocks : List (List UInt8)) (sink : Sink) :
    (pass filter direction parameters blocks sink).state = filter.abort := by
  have same := filter.abort_begin direction parameters
  simp only [pass, start]
  generalize filter.begin direction parameters = answer at same
  obtain ⟨next, result⟩ := answer
  cases result with
  | ok _ => exact (state_conclude next sink 0 blocks).trans same
  | error fault => exact same

/-- What a filter was doing before makes no difference to how a session begins. -/
theorem start_abort (filter : Filter) (parameters : Option Parameters) (sink : Sink) :
    start filter.abort direction parameters sink = start filter direction parameters sink := by
  cases filter with
  -- Only this filter may keep a session when it cannot begin, and that is aborted as well.
  | flate state =>
    obtain ⟨config, session⟩ := state
    cases direction with
    | encode =>
      simp only [start, Filter.abort, Filter.begin, Flate.beginEncode, Flate.idle]
      cases reserve 0 config.bufferSize <;> rfl
    | decode => rfl
  | _ => cases direction <;> rfl

/-- What a filter was doing before makes no difference to a pass. -/
theorem pass_abort (filter : Filter) (parameters : Option Parameters)
    (blocks : List (List UInt8)) (sink : Sink) :
    pass filter.abort direction parameters blocks sink
      = pass filter direction parameters blocks sink := by
  rw [pass, start_abort]
  rfl

theorem conclude_eq_handOver (filter : Filter) (direction : Direction) (blocks : List (List UInt8))
    (sink : Sink) (fed : Nat) :
    conclude ⟨filter, sink, direction, true, fed⟩ blocks
      = Reply.settled (match filter.handOver direction blocks sink with
        | ⟨filter, sink, .error fault⟩ => ⟨filter, sink, .error fault⟩
        | ⟨filter, sink, .ok ()⟩ => filter.finish direction sink) := by
  induction blocks generalizing filter sink fed with
  | nil => rfl
  | cons block rest ih =>
    rw [conclude, feedAll, feed, Filter.handOver]
    rcases filter.block direction block sink with ⟨next, left, fault | _⟩
    · rfl
    · exact ih next left _

/-- A guarded pass makes the calls on its filter that are made directly otherwise, and aborts it after
a fault. -/
theorem pass_eq_runBlocks (filter : Filter) (direction : Direction) (parameters : Option Parameters)
    (blocks : List (List UInt8)) (sink : Sink) :
    pass filter direction parameters blocks sink
      = (filter.runBlocks direction parameters blocks sink).settled := by
  rw [pass, start, Filter.runBlocks]
  rcases filter.begin direction parameters with ⟨next, fault | _⟩
  · rfl
  · exact conclude_eq_handOver next direction blocks sink 0

/-- A pass of one block does to the sink what a run without a session does. -/
theorem pass_single (filter : Filter) (direction : Direction) (parameters : Option Parameters)
    (data : List UInt8) (sink : Sink) :
    (pass filter direction parameters [data] sink).sink
        = (filter.runOnce direction parameters data sink).sink
      ∧ (pass filter direction parameters [data] sink).result
        = (filter.runOnce direction parameters data sink).result := by
  rw [pass_eq_runBlocks, filter.runBlocks_single]
  rcases filter.runOnce direction parameters data sink with ⟨next, left, fault | _⟩ <;>
    exact ⟨rfl, rfl⟩

/-- What comes of running data through a filter is what a pass emits. -/
theorem run_eq_passed (filter : Filter) (direction : Direction) (parameters : Option Parameters)
    (data : List UInt8) :
    (filter.run direction parameters data).2
      = (passed filter direction parameters [data]).result.map fun _ =>
          (passed filter direction parameters [data]).bytes := by
  obtain ⟨sink, result⟩ := pass_single filter direction parameters data .unlimited
  simp only [passed, emissionOf, Filter.run, Reply.outcome, sink, result]
  obtain ⟨next, sink, result⟩ := filter.runOnce direction parameters data .unlimited
  cases result <;> rfl

/-- A run that begins comes to what its codec emits for the data and the end. -/
theorem run_eq_output (codec : Codec direction) {state : codec.State} (occurs : codec.occurs state)
    {filter : Filter} {parameters : Option Parameters}
    (begun : filter.begin direction parameters = (codec.filter state, .ok ())) (data : List UInt8) :
    (filter.run direction parameters data).2
      = ((codec.take state data).andThen codec.close).output := by
  rw [run_eq_passed, passed, (emits_pass_of_begin codec occurs begun [data]).emissionOf_eq,
    emitAll_single]
  rfl

/-- A run that begins, takes its data and ends well gives what it has put out. -/
theorem run_of_begin (codec : Codec direction) {state next : codec.State}
    (occurs : codec.occurs state) {filter left : Filter} {parameters : Option Parameters}
    (begun : filter.begin direction parameters = (codec.filter state, .ok ()))
    {data bytes last : List UInt8} (taken : codec.take state data = ⟨bytes, .ok next⟩)
    (closed : codec.close next = ⟨last, .ok left⟩) :
    (filter.run direction parameters data).2 = .ok (bytes ++ last) := by
  rw [run_eq_output codec occurs begun, taken, Emission.andThen_ok, closed]
  rfl

/-- A run that comes to something has taken its data and ended well. -/
theorem exists_of_run_ok (codec : Codec direction) {state : codec.State}
    (occurs : codec.occurs state) {filter : Filter} {parameters : Option Parameters}
    (begun : filter.begin direction parameters = (codec.filter state, .ok ()))
    {data output : List UInt8} (fine : (filter.run direction parameters data).2 = .ok output) :
    ∃ bytes next last left, codec.take state data = ⟨bytes, .ok next⟩
      ∧ codec.close next = ⟨last, .ok left⟩ ∧ output = bytes ++ last := by
  rw [run_eq_output codec occurs begun] at fine
  rcases taken : codec.take state data with ⟨bytes, fault | next⟩
  · rw [taken] at fine
    cases fine
  · rw [taken, Emission.andThen_ok] at fine
    rcases closed : codec.close next with ⟨last, fault | left⟩
    · rw [closed] at fine
      cases fine
    · rw [closed] at fine
      exact ⟨bytes, next, last, left, rfl, closed, (Except.ok.inj fine).symm⟩

end Session

end PdfFilters

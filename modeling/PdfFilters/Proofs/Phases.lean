import PdfFilters.Proofs.Lifecycle

/-!
# The phases of filters with sessions

Two filters keep track of what they are in the middle of: the one for compressed streams compresses,
inflates or rests, the one for variable-width codes decodes or rests. Whatever calls are made on them
directly, in whatever order, their phase follows from the calls and from which of them succeeded
(`Phase.afterFlate`, `Phase.afterLzw`).

One lemma for each call says where it leads from any state, and a run of calls is their repetition
(`Filter.phase_foldl_after`). A block that comes in another phase than its own is refused and changes
nothing, so all calls after it are answered as if it had not come. The two differ in what a fault does
to an open session: `Flate` closes it and `Lzw` does not.
-/

namespace PdfFilters

/-- What a filter is in the middle of. -/
inductive Phase where
  | idle
  | encoding
  | decoding
  deriving DecidableEq

/-- What a caller sees of a direct call. -/
inductive Response where
  /-- The result of a call that has no sink. -/
  | done (result : Except Fault Unit)
  /-- The caller's sink after the call, and the result. -/
  | written (sink : Sink) (result : Except Fault Unit)
  /-- What comes of a whole run. -/
  | output (result : Except Fault (List UInt8))

/-- Whether a call succeeded. -/
def Response.isOk : Response → Bool
  | .done result | .written _ result => result.isOk
  | .output result => result.isOk

namespace Phase

/-- A phase as faults name it. -/
def name : Phase → String
  | idle => "idle filter"
  | encoding => "encode session"
  | decoding => "decode session"

/-- The phase in which blocks and ends of this direction are in place. -/
def ofDirection : Direction → Phase
  | .encode => encoding
  | .decode => decoding

/-- Where a call leads the filter for compressed streams: success opens a session, any fault inside one
closes it, and every end does. A fault in beginning to compress leaves everything as it is. -/
def afterFlate (phase : Phase) (call : FilterCall) (isOk : Bool) : Phase :=
  match call with
  | .begin .encode _ => if isOk then encoding else phase
  | .begin .decode _ => if isOk then decoding else idle
  | .block direction _ _ => if phase = ofDirection direction ∧ isOk = false then idle else phase
  | .finish _ _ | .abort | .run _ _ _ => idle

/-- Where a call leads the filter for variable-width codes: only beginning to decode opens a session,
and only the end, an abort, or beginning anew closes it. -/
def afterLzw (phase : Phase) (call : FilterCall) (isOk : Bool) : Phase :=
  match call with
  | .begin .encode _ | .block _ _ _ | .finish .encode _ => phase
  | .begin .decode _ => if isOk then decoding else idle
  | .finish .decode _ | .abort | .run _ _ _ => idle

end Phase

/-- The phase of a filter for variable-width codes. -/
def Lzw.phase (filter : Lzw) : Phase := if filter.session.isSome then .decoding else .idle

namespace Lzw

variable (state : Lzw)

theorem after_begin_decode (parameters : Option Parameters) :
    (beginDecode parameters).1.phase
      = if (beginDecode parameters).2.isOk then .decoding else .idle := by
  rw [beginDecode]
  cases openSession parameters <;> rfl

theorem after_block_decode (bytes : List UInt8) (sink : Sink) :
    (state.decodeBlock bytes sink).state.phase = state.phase := by
  obtain ⟨session⟩ := state
  cases session with
  | none => rfl
  | some session =>
    obtain ⟨decoder, rows⟩ := session
    cases rows <;> rfl

theorem state_endDecode (sink : Sink) : (state.endDecode sink).state = idle := by
  obtain ⟨session⟩ := state
  cases session with
  | none => rfl
  | some session =>
    obtain ⟨decoder, rows⟩ := session
    cases rows <;> rfl

end Lzw

/-- The fault of a block or an end that needs another phase than the one there is. -/
def Phase.fault (phase : Phase) (direction : Direction) : Fault :=
  .wrongState (ofDirection direction).name phase.name

variable [Host]

/-- The phase of a filter for compressed streams. -/
def Flate.phase (filter : Flate) : Phase :=
  match filter.session with
  | .idle => .idle
  | .encoding _ => .encoding
  | .decoding _ _ _ => .decoding

namespace Filter

/-- The answer to a direct call. -/
def respond (filter : Filter) : FilterCall → Response
  | .begin direction parameters => .done (filter.begin direction parameters).2
  | .block direction bytes sink =>
    .written (filter.block direction bytes sink).sink (filter.block direction bytes sink).result
  | .finish direction sink =>
    .written (filter.finish direction sink).sink (filter.finish direction sink).result
  | .abort => .done (.ok ())
  | .run direction parameters data => .output (filter.run direction parameters data).2

/-- The answers to direct calls, one after another. -/
def responses (filter : Filter) : List FilterCall → List Response
  | [] => []
  | call :: rest => filter.respond call :: (filter.after call).responses rest

/-- Where a rule leads, call by call, that knows the calls and which of them succeeded. -/
def phaseAfter (rule : Phase → FilterCall → Bool → Phase) (filter : Filter) (phase : Phase)
    (calls : List FilterCall) : Phase :=
  (calls.zip (filter.responses calls)).foldl (fun phase step => rule phase step.1 step.2.isOk) phase

/-- A rule that holds of every call holds of all calls in a row. -/
theorem phase_foldl_after {σ : Type} {rule : Phase → FilterCall → Bool → Phase} {ofState : σ → Filter}
    {phase : σ → Phase}
    (step : ∀ state call, ∃ next, (ofState state).after call = ofState next
      ∧ phase next = rule (phase state) call ((ofState state).respond call).isOk)
    (state : σ) (calls : List FilterCall) :
    ∃ last, calls.foldl after (ofState state) = ofState last
      ∧ phase last = (ofState state).phaseAfter rule (phase state) calls := by
  induction calls generalizing state with
  | nil => exact ⟨state, rfl, rfl⟩
  | cons call rest ih =>
    obtain ⟨next, moved, here⟩ := step state call
    obtain ⟨last, arrived, there⟩ := ih next
    refine ⟨last, ?_, ?_⟩
    · rw [List.foldl_cons, moved, arrived]
    · rw [there, here, phaseAfter, phaseAfter, responses, moved]
      rfl

/-- A call that changes nothing does not show in the answers after it. -/
theorem responses_of_after_eq {filter : Filter} {call : FilterCall} (same : filter.after call = filter)
    (later : List FilterCall) :
    filter.responses (call :: later) = filter.respond call :: filter.responses later := by
  rw [responses, same]

/-- A whole run leaves a filter as an abort does, whether it succeeds or not. -/
theorem run_fst (filter : Filter) (direction : Direction) (parameters : Option Parameters)
    (data : List UInt8) : (filter.run direction parameters data).1 = filter.abort := by
  have same : (Session.pass filter direction parameters [data] .unlimited).state = filter.abort :=
    Session.state_pass ..
  rw [Session.pass_eq_runBlocks, runBlocks_single] at same
  rw [run]
  rcases once : filter.runOnce direction parameters data .unlimited with ⟨left, sink, fault | _⟩
  · rw [once] at same
    exact same
  · rw [once] at same
    exact same

end Filter

/-! ## Compressed streams -/

namespace Flate

variable (state : Flate)

/-- A block in another phase than its own is refused, and nothing changes. -/
theorem block_of_phase_ne {direction : Direction} (other : state.phase ≠ .ofDirection direction)
    (bytes : List UInt8) (sink : Sink) :
    (Filter.flate state).block direction bytes sink
      = ⟨.flate state, sink, .error (state.phase.fault direction)⟩ := by
  obtain ⟨config, session⟩ := state
  cases direction with
  | encode =>
    cases session with
    | encoding engine => exact absurd rfl other
    | _ => rfl
  | decode =>
    cases session with
    | decoding engine rows finished => exact absurd rfl other
    | _ => rfl

/-- An end in another phase than its own is refused as well, but whatever was open is closed. -/
theorem finish_of_phase_ne {direction : Direction} (other : state.phase ≠ .ofDirection direction)
    (sink : Sink) :
    (Filter.flate state).finish direction sink
      = ⟨.flate (.idle state.config), sink, .error (state.phase.fault direction)⟩ := by
  obtain ⟨config, session⟩ := state
  cases direction with
  | encode =>
    cases session with
    | encoding engine => exact absurd rfl other
    | _ => rfl
  | decode =>
    cases session with
    | decoding engine rows finished => exact absurd rfl other
    | _ => rfl

/-- Compressing begins anew from any phase, unless there is no memory for the buffer. Then nothing
changes. -/
theorem begin_encode_eq (parameters : Option Parameters) :
    (Filter.flate state).begin .encode parameters
      = match reserve 0 state.config.bufferSize with
        | .ok () => (.flate ⟨state.config, .encoding (Host.newDeflater state.config.level)⟩, .ok ())
        | .error fault => (.flate state, .error fault) := by
  rw [Filter.begin, beginEncode]
  cases reserve 0 state.config.bufferSize <;> rfl

/-- Inflating begins anew from any phase, and where it cannot begin, whatever was open is closed. -/
theorem begin_decode_eq (parameters : Option Parameters) :
    (Filter.flate state).begin .decode parameters
      = (Filter.flate (.idle state.config)).begin .decode parameters := rfl

theorem after_begin_decode (parameters : Option Parameters) :
    ∃ next : Flate, (Filter.flate state).after (.begin .decode parameters) = .flate next
      ∧ next.phase
        = if ((Filter.flate state).begin .decode parameters).2.isOk then .decoding else .idle := by
  rw [Filter.after, Filter.begin, beginDecode]
  cases opened : openDecode state.config parameters with
  | error fault => exact ⟨idle state.config, rfl, rfl⟩
  | ok session =>
    refine ⟨⟨state.config, session⟩, rfl, ?_⟩
    obtain ⟨rows, rfl⟩ := exists_openDecode opened
    rfl

theorem after_block_encode (bytes : List UInt8) (sink : Sink) :
    (state.encodeBlock bytes sink).state.phase
      = if state.phase = .encoding ∧ (state.encodeBlock bytes sink).result.isOk = false then .idle
        else state.phase := by
  obtain ⟨config, session⟩ := state
  cases session with
  | encoding engine =>
    rw [encodeBlock]
    rcases compressBlock config engine bytes sink with ⟨left, fault | next⟩ <;> rfl
  | _ => rfl

theorem after_block_decode (bytes : List UInt8) (sink : Sink) :
    (state.decodeBlock bytes sink).state.phase
      = if state.phase = .decoding ∧ (state.decodeBlock bytes sink).result.isOk = false then .idle
        else state.phase := by
  obtain ⟨config, session⟩ := state
  cases session with
  | decoding engine rows finished =>
    cases finished with
    | true => rfl
    | false =>
      cases rows with
      | none =>
        rw [decodeBlock]
        rcases decompressBlock config engine bytes sink with ⟨left, fault | next⟩ <;> rfl
      | some rows =>
        rw [decodeBlock]
        rcases decompressBlock config engine bytes .unlimited with ⟨left, fault | next⟩ <;> rfl
  | _ => rfl

/-- Where one call leads. -/
theorem phase_after (call : FilterCall) :
    ∃ next : Flate, (Filter.flate state).after call = .flate next
      ∧ next.phase = state.phase.afterFlate call ((Filter.flate state).respond call).isOk := by
  cases call with
  | begin direction parameters =>
    cases direction with
    | encode =>
      rw [Filter.after, Filter.respond, begin_encode_eq]
      cases reserve 0 state.config.bufferSize with
      | ok _ => exact ⟨_, rfl, rfl⟩
      | error fault => exact ⟨state, rfl, rfl⟩
    | decode => exact state.after_begin_decode parameters
  | block direction bytes sink =>
    cases direction with
    | encode => exact ⟨_, rfl, state.after_block_encode bytes sink⟩
    | decode => exact ⟨_, rfl, state.after_block_decode bytes sink⟩
  | finish direction sink =>
    refine ⟨idle state.config, ?_, rfl⟩
    cases direction with
    | encode => exact congrArg Filter.flate (state.state_endEncode sink)
    | decode => exact congrArg Filter.flate (state.state_endDecode sink)
  | abort => exact ⟨idle state.config, rfl, rfl⟩
  | run direction parameters data =>
    exact ⟨idle state.config, (Filter.flate state).run_fst direction parameters data, rfl⟩

end Flate

/-! ## Variable-width codes -/

namespace Lzw

variable (state : Lzw)

/-- Where one call leads. -/
theorem phase_after (call : FilterCall) :
    ∃ next : Lzw, (Filter.lzw state).after call = .lzw next
      ∧ next.phase = state.phase.afterLzw call ((Filter.lzw state).respond call).isOk := by
  cases call with
  | begin direction parameters =>
    cases direction with
    | encode => exact ⟨state, rfl, rfl⟩
    | decode => exact ⟨_, rfl, after_begin_decode parameters⟩
  | block direction bytes sink =>
    cases direction with
    | encode => exact ⟨state, rfl, rfl⟩
    | decode => exact ⟨_, rfl, state.after_block_decode bytes sink⟩
  | finish direction sink =>
    cases direction with
    | encode => exact ⟨state, rfl, rfl⟩
    | decode => exact ⟨idle, congrArg Filter.lzw (state.state_endDecode sink), rfl⟩
  | abort => exact ⟨idle, rfl, rfl⟩
  | run direction parameters data =>
    exact ⟨idle, (Filter.lzw state).run_fst direction parameters data, rfl⟩

end Lzw

namespace Filter

/-- After any calls, the phase of a filter is where the calls lead and whether they succeeded. Beginning
opens a session as on a new filter. A block in a phase that is not its own is refused with both phases
named and nothing written, and all later calls are answered as if it had not come; an end in such a phase
is refused as well, and closes what is open. The filter for variable-width codes supports no call to
compress, and keeps as it is when one comes. -/
theorem runs_through_phases (config : FlateConfig) (calls : List FilterCall) :
    (∃ state : Flate, calls.foldl after (flate (.idle config)) = flate state
      ∧ state.phase = (flate (.idle config)).phaseAfter Phase.afterFlate .idle calls
      ∧ (∀ parameters, (flate state).begin .decode parameters
          = (flate (.idle config)).begin .decode parameters)
      ∧ (∀ parameters, (flate state).begin .encode parameters
          = match reserve 0 config.bufferSize with
            | .ok () => (flate ⟨config, .encoding (Host.newDeflater config.level)⟩, .ok ())
            | .error fault => (flate state, .error fault))
      ∧ ∀ direction, state.phase ≠ .ofDirection direction →
          (∀ bytes sink later, (flate state).responses (.block direction bytes sink :: later)
              = .written sink (.error (state.phase.fault direction)) :: (flate state).responses later)
            ∧ ∀ sink, (flate state).finish direction sink
              = ⟨flate (.idle config), sink, .error (state.phase.fault direction)⟩)
      ∧ ∃ state : Lzw, calls.foldl after (lzw .idle) = lzw state
        ∧ state.phase = (lzw .idle).phaseAfter Phase.afterLzw .idle calls
        ∧ (∀ parameters, (lzw state).begin .decode parameters = (lzw .idle).begin .decode parameters)
        ∧ (state.phase = .idle →
          (∀ bytes sink later, (lzw state).responses (.block .decode bytes sink :: later)
              = .written sink (.error (Phase.idle.fault .decode)) :: (lzw state).responses later)
            ∧ ∀ sink, (lzw state).finish .decode sink
              = ⟨lzw .idle, sink, .error (Phase.idle.fault .decode)⟩)
        ∧ (∀ parameters, (lzw state).begin .encode parameters
            = (lzw state, .error ((lzw state).unsupported .encode)))
          ∧ (∀ bytes sink, (lzw state).block .encode bytes sink
              = ⟨lzw state, sink, .error ((lzw state).unsupported .encode)⟩)
          ∧ ∀ sink, (lzw state).finish .encode sink
              = ⟨lzw state, sink, .error ((lzw state).unsupported .encode)⟩ := by
  refine ⟨?_, ?_⟩
  · obtain ⟨state, arrived, there⟩ := phase_foldl_after Flate.phase_after (.idle config) calls
    have like := Setup.abort_foldl_after (.flate config) calls
    rw [show (Setup.flate config).filter = flate (.idle config) from rfl, arrived] at like
    obtain ⟨known, session⟩ := state
    obtain rfl : known = config := congrArg Flate.config (flate.inj like)
    refine ⟨⟨known, session⟩, arrived, there, Flate.begin_decode_eq _, Flate.begin_encode_eq _, ?_⟩
    intro direction other
    have refused := Flate.block_of_phase_ne ⟨known, session⟩ other
    refine ⟨?_, Flate.finish_of_phase_ne ⟨known, session⟩ other⟩
    intro bytes sink later
    have same : (flate ⟨known, session⟩).after (.block direction bytes sink) = flate ⟨known, session⟩ :=
      congrArg Reply.state (refused bytes sink)
    rw [responses_of_after_eq same, respond, refused]
  · obtain ⟨state, arrived, there⟩ := phase_foldl_after Lzw.phase_after .idle calls
    refine ⟨state, arrived, there, fun _ => rfl, ?_, fun _ => rfl, fun _ _ => rfl, fun _ => rfl⟩
    intro resting
    obtain ⟨session⟩ := state
    cases session with
    | some session => cases resting
    | none => exact ⟨fun _ _ _ => rfl, fun _ => rfl⟩

end Filter

end PdfFilters

import PdfFilters.Proofs.Deflate.Lawful
import PdfFilters.Proofs.Session

/-!
# Blocks do not matter

However data are cut into blocks, a pass ends in the same way as one that is fed all of them as one
block (`pass_flatten`): with the same bytes in the sink, or with the same fault. The bytes that were
written before a fault are the same as well if the filter writes, or decodes variable-width codes;
the other decoders may write the blocks before the one with the fault.

That is so if no engine is at work, and for an engine that inflates a format. With an empty buffer no
engine does, and there a block without a byte is one too many (`result_pass_of_no_room`).
-/

namespace PdfFilters

section

variable [Host]

namespace Session

/-- A pass emits alike for some blocks and for all of them as one. -/
theorem passed_flatten {filter : Filter} {direction : Direction} (cuts : filter.TakesCuts direction)
    (parameters : Option Parameters) (blocks : List (List UInt8)) :
    Emission.Alike Eq (direction = .encode ∨ ∃ lzw, filter = .lzw lzw)
      (passed filter direction parameters blocks)
      (passed filter direction parameters [blocks.flatten]) := by
  rcases begin_cases filter direction parameters with
    ⟨_, _, failed⟩ | ⟨codec, state, occurs, begun, taken⟩
  · rw [passed, passed, (emits_pass_of_error failed blocks).emissionOf_eq,
      (emits_pass_of_error failed [blocks.flatten]).emissionOf_eq]
    exact .error fun _ => rfl
  · rw [passed, passed, (emits_pass_of_begin codec occurs begun blocks).emissionOf_eq,
      (emits_pass_of_begin codec occurs begun [blocks.flatten]).emissionOf_eq, emitAll_single]
    exact (taken cuts).emitAll_flatten blocks

/-- A pass that comes to some bytes in the end writes them to a sink that never fails. -/
theorem pass_of_output {filter : Filter} {direction : Direction} {parameters : Option Parameters}
    {blocks : List (List UInt8)} {bytes : List UInt8}
    (fine : (passed filter direction parameters blocks).output = .ok bytes) (accepted : Array UInt8)
    (failure : WriteFailure) :
    pass filter direction parameters blocks (.endless accepted failure)
      = ⟨filter.abort, .endless (accepted ++ bytes) failure, .ok ()⟩ := by
  have emits := emits_passed filter direction parameters blocks
  obtain ⟨sink, result⟩ := emits.reply_endless accepted failure
  have state : (pass filter direction parameters blocks (.endless accepted failure)).state
      = filter.abort := state_pass filter parameters blocks (.endless accepted failure)
  generalize passed filter direction parameters blocks = emission at fine sink result
  obtain ⟨written, ended⟩ := emission
  cases ended with
  | error fault => cases fine
  | ok left =>
    obtain rfl := Except.ok.inj fine
    generalize pass filter direction parameters blocks (.endless accepted failure) = reply
      at sink result state
    obtain ⟨next, left, answer⟩ := reply
    cases sink
    cases result
    cases state
    rfl

/-- A pass into a sink that never fails succeeds or fails like a run of all its blocks. -/
theorem result_pass_endless (filter : Filter) {direction : Direction}
    (cuts : filter.TakesCuts direction) (parameters : Option Parameters) (blocks : List (List UInt8))
    (accepted : Array UInt8) (failure : WriteFailure) :
    (pass filter direction parameters blocks (.endless accepted failure)).result
      = (filter.run direction parameters blocks.flatten).2.map fun _ => () := by
  obtain ⟨_, result⟩ :=
    (emits_passed filter direction parameters blocks).reply_endless accepted failure
  have alike := passed_flatten cuts parameters blocks
  rw [result, alike.map_result, run_eq_passed]
  cases (passed filter direction parameters [blocks.flatten]).result <;> rfl

/-- What a run of all its blocks comes to, a pass comes to as well. -/
theorem output_passed_of_run {filter : Filter} {direction : Direction}
    {parameters : Option Parameters} {blocks : List (List UInt8)} {bytes : List UInt8}
    (fine : (filter.run direction parameters blocks.flatten).2 = .ok bytes)
    (cuts : filter.TakesCuts direction) :
    (passed filter direction parameters blocks).output = .ok bytes := by
  rw [(passed_flatten cuts parameters blocks).output_eq]
  exact (run_eq_passed filter direction parameters blocks.flatten).symm.trans fine

/-- Over a sink that never fails, a pass ends in the same way however its data are cut into blocks:
with the same filter and the same result. The sink holds the same bytes if nothing failed, and it
always does in writing, and in decoding variable-width codes. Of the filter for compressed streams this
is said for decoding only, with an engine that inflates a format with the room that it has. -/
theorem pass_flatten {filter : Filter} {direction : Direction} (cuts : filter.TakesCuts direction)
    (parameters : Option Parameters) (blocks : List (List UInt8)) (accepted : Array UInt8)
    (failure : WriteFailure) :
    let cut := pass filter direction parameters blocks (.endless accepted failure)
    let whole := pass filter direction parameters [blocks.flatten] (.endless accepted failure)
    cut.state = whole.state ∧ cut.result = whole.result
      ∧ (cut.result = .ok () ∨ direction = .encode ∨ (∃ lzw, filter = .lzw lzw) →
        cut.sink = whole.sink) := by
  intro cut whole
  have alike := passed_flatten cuts parameters blocks
  obtain ⟨sink, result⟩ :=
    (emits_passed filter direction parameters blocks).reply_endless accepted failure
  obtain ⟨sink', result'⟩ :=
    (emits_passed filter direction parameters [blocks.flatten]).reply_endless accepted failure
  refine ⟨?_, ?_, fun agree => ?_⟩
  · exact (state_pass filter parameters blocks _).trans (state_pass filter parameters _ _).symm
  · exact result.trans (alike.map_result.trans result'.symm)
  · have written : (direction = .encode ∨ ∃ lzw, filter = .lzw lzw)
        ∨ (passed filter direction parameters blocks).result.map (fun _ => ()) = .ok () :=
      agree.symm.imp id fun fine => result.symm.trans fine
    show cut.sink = whole.sink
    rw [sink, sink', alike.bytes_eq written]

/-- With an empty buffer it does matter how nothing is cut: a pass without blocks succeeds, and one with
an empty block fails, if only the engine does not end a stream of which it has got nothing. -/
theorem result_pass_of_no_room {state : Flate} (empty : state.config.bufferSize = 0)
    (room : reserve 0 0 = .ok ())
    (waits : ∀ next progress, Host.inflating.call Host.newInflater .more [] 0 = .ok (next, progress) →
      progress.ended = false) :
    (pass (.flate state) .decode none [] .unlimited).result = .ok ()
      ∧ ∃ text, (pass (.flate state) .decode none [[]] .unlimited).result = .error (.inflating text) := by
  obtain ⟨config, session⟩ := state
  have empty : config.bufferSize = 0 := empty
  have begun : (Filter.flate ⟨config, session⟩).begin .decode none = _ :=
    Filter.begin_decode_flate session rfl (empty ▸ room)
  have result : ∀ blocks, (pass (.flate ⟨config, session⟩) .decode none blocks .unlimited).result
      = ((emitAll (inflated config.bufferSize) (Host.newInflater, false) blocks).andThen
          (Codec.flateReading config).close).result.map fun _ => () := by
    intro blocks
    rw [Sink.unlimited_eq_endless]
    exact ((emits_pass_of_begin (.flateReading config) trivial begun blocks).reply_endless #[] _).2
  obtain ⟨text, failed⟩ := exists_inflated_error_of_no_room waits
  rw [result, result, empty, emitAll_single, failed]
  exact ⟨rfl, text, rfl⟩

end Session

end

/-- A compressed stream of one byte, cut inside its header, in front of its block and inside its
checksum. -/
theorem Session.pass_flatten_stream :
    let filter := Filter.flate (.idle {})
    let blocks : List (List UInt8) :=
      [[0x78], [0x01], [], [0x01, 0x01, 0x00, 0xFE, 0xFF, 0x41, 0x00, 0x42], [0x00, 0x42]]
    let cut := pass filter .decode none blocks .unlimited
    let whole := pass filter .decode none [blocks.flatten] .unlimited
    filter.TakesCuts .decode ∧ cut.result = .ok ()
      ∧ cut.state = whole.state ∧ cut.result = whole.result ∧ cut.sink = whole.sink := by
  intro filter blocks cut whole
  have inflates : Host.Inflates Inflate.inflation (Flate.idle {}).config.bufferSize :=
    Host.inflates_builtIn (by decide)
  have cuts : filter.TakesCuts .decode := ⟨Inflate.inflation, inflates⟩
  have ran : (filter.run .decode none blocks.flatten).2 = .ok [0x41] := by
    have known : Inflate.inflation blocks.flatten = .finished [0x41] :=
      (Inflate.inflation_of_isDone (by decide +kernel)).trans
        (congrArg Inflation.finished (by decide +kernel))
    have output := inflates.output_inflated blocks.flatten
    rw [known] at output
    have begun : filter.begin .decode none = _ := Filter.begin_decode_flate .idle rfl rfl
    rw [run_eq_output (.flateReading {}) trivial begun]
    exact (Emission.output_andThen_quiet _ _).trans output
  have fine : cut.result = .ok () := by
    have result : cut.result = (filter.run .decode none blocks.flatten).2.map fun _ => () :=
      result_pass_endless filter cuts none blocks #[] .stalled
    rw [result, ran]
    rfl
  obtain ⟨state, result, sink⟩ := pass_flatten cuts none blocks #[] .stalled
  exact ⟨cuts, fine, state, result, sink (.inl fine)⟩

section

variable [Host]

namespace Filter

/-- Calls on a filter that come to some bytes in the end write them to a sink that never fails, and
leave the filter at rest. -/
theorem runBlocks_of_output {filter : Filter} {direction : Direction}
    {parameters : Option Parameters} {blocks : List (List UInt8)} {bytes : List UInt8}
    (fine : (Session.passed filter direction parameters blocks).output = .ok bytes)
    (accepted : Array UInt8) (failure : WriteFailure) :
    filter.runBlocks direction parameters blocks (.endless accepted failure)
      = ⟨filter.abort, .endless (accepted ++ bytes) failure, .ok ()⟩ := by
  apply Reply.eq_of_settled_ok
  rw [← Session.pass_eq_runBlocks]
  exact Session.pass_of_output fine accepted failure

theorem runBlocks_of_run {filter : Filter} {direction : Direction} {parameters : Option Parameters}
    {blocks : List (List UInt8)} {bytes : List UInt8}
    (fine : (filter.run direction parameters blocks.flatten).2 = .ok bytes)
    (cuts : filter.TakesCuts direction) (accepted : Array UInt8) (failure : WriteFailure) :
    filter.runBlocks direction parameters blocks (.endless accepted failure)
      = ⟨filter.abort, .endless (accepted ++ bytes) failure, .ok ()⟩ :=
  runBlocks_of_output (Session.output_passed_of_run fine cuts) accepted failure

end Filter

end

end PdfFilters

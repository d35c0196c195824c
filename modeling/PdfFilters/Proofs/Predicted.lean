import PdfFilters.Proofs.Chunking
import PdfFilters.Proofs.Record

/-!
# Decoding with a predictor

With a predictor, a decoder collects what it would put out without one, and at the end puts back the
rows of all of it. So the outcome is that of decoding without a predictor, followed by that of
`Prediction.undo`, and it reaches the sink all at once or not at all (`Session.passed_predicted`).
Until the end the sink gets nothing, because the filter keeps a row store in which everything goes
(`Filter.KeepsRows`).

The order of the faults is that of the work: the predictor is turned down before anything else, then
come the faults of decoding, and then those of the rows (`Session.decode_predicted`).
-/

namespace PdfFilters

/-- The same parameters but for the predictor, which is set to the one that does nothing. -/
def Parameters.plain (parameters : Option Parameters) : Option Parameters :=
  some ((parameters.getD {}).insert "Predictor" 1)

namespace Prediction

theorem ofParameters_plain (parameters : Option Parameters) :
    ofParameters (Parameters.plain parameters) = { ofParameters parameters with predictor := 1 } := by
  have found : ((parameters.getD {}).insert "Predictor" 1).get? "Predictor" = some 1 := by
    rw [Parameters.get?_insert, if_pos rfl]
  have kept (key : String) (other : bareName key ≠ bareName "Predictor") :
      ((parameters.getD {}).insert "Predictor" 1).get? key = (parameters.getD {}).get? key := by
    rw [Parameters.get?_insert, if_neg other]
  simp only [Parameters.plain, ofParameters, Parameters.getD, found,
    kept "Colors" (by decide), kept "BitsPerComponent" (by decide),
    kept "Columns" (by decide), kept "EarlyChange" (by decide)]
  cases parameters <;> rfl

theorem isActive_plain (parameters : Option Parameters) :
    (ofParameters (Parameters.plain parameters)).isActive = false := by
  rw [ofParameters_plain]
  rfl

end Prediction

namespace Emission

variable {α : Type}

/-- The emission that writes all bytes at once, or fails before it has written any. -/
def whole (value : α) : Except Fault (List UInt8) → Emission α
  | .ok bytes => ⟨bytes, .ok value⟩
  | .error fault => quiet (.error fault)

theorem absorb_whole (value : α) (bytes : Except Fault (List UInt8)) (sink : Sink) :
    ((sink.absorb (whole value bytes)).1, (sink.absorb (whole value bytes)).2.map fun _ => ())
      = match bytes with
        | .ok bytes => sink.write bytes
        | .error fault => (sink, .error fault) := by
  cases bytes with
  | error fault =>
    rw [whole, Sink.absorb_quiet]
    rfl
  | ok bytes =>
    dsimp only
    rcases written : sink.write bytes with ⟨left, fault | _⟩
    · rw [Sink.absorb_of_write_error written]
      rfl
    · rw [Sink.absorb_of_write_ok written]
      rfl

theorem output_whole (value : α) (bytes : Except Fault (List UInt8)) :
    (whole value bytes).output = bytes := by
  cases bytes <;> rfl

end Emission

theorem RowStore.restored_eq (store : RowStore) :
    store.restored = .whole () (store.prediction.undo store.data.toList) := by
  rw [restored]
  cases store.prediction.undo store.data.toList <;> rfl

/-- Blocks put into the rows all that they would have emitted. -/
theorem emitAll_stored {σ : Type} (take : σ → List UInt8 → Emission σ) (state : σ) (rows : RowStore)
    (blocks : List (List UInt8)) :
    emitAll (stored take) (state, rows) blocks
      = .quiet ((emitAll take state blocks).result.map fun next =>
          (next, rows.add (emitAll take state blocks).bytes.toArray)) := by
  induction blocks generalizing state rows with
  | nil =>
    simp only [emitAll, Emission.quiet, Except.map, RowStore.add_empty]
  | cons block rest ih =>
    simp only [emitAll, stored]
    obtain ⟨bytes, answer⟩ := take state block
    cases answer with
    | error fault => rfl
    | ok next =>
      simp only [Emission.andThen_ok, RowStore.add_append, Except.map, Emission.quiet, ih,
        List.nil_append]

theorem Lzw.openSession_of_active {parameters : Option Parameters}
    (active : (Prediction.ofParameters parameters).isActive = true) :
    openSession parameters = (do
      let space ← CodeSpace.ofPrediction (Prediction.ofParameters parameters)
      let rows ← RowStore.start (Prediction.ofParameters parameters)
      return ⟨.start space, some rows⟩) := by
  simp only [openSession, active, if_true]
  cases RowStore.start (Prediction.ofParameters parameters) <;> rfl

theorem Lzw.openSession_of_inactive {parameters : Option Parameters}
    (inactive : (Prediction.ofParameters parameters).isActive = false) :
    openSession parameters = (do
      let space ← CodeSpace.ofPrediction (Prediction.ofParameters parameters)
      return ⟨.start space, none⟩) := by
  simp only [openSession, inactive]
  rfl

theorem CodeSpace.exists_ofPrediction {prediction : Prediction}
    (known : prediction.earlyChange = 0 ∨ prediction.earlyChange = 1) :
    ∃ space, ofPrediction prediction = .ok space := by
  rw [ofPrediction]
  rcases known with zero | one
  · rw [if_neg (by omega), if_pos zero]
    exact ⟨_, rfl⟩
  · rw [if_pos one]
    exact ⟨_, rfl⟩

/-- Putting back the rows after blocks that went into them is putting back the rows of what the
blocks would have emitted. -/
theorem emitAll_stored_restored {σ τ : Type} (take : σ → List UInt8 → Emission σ) (state : σ)
    (prediction : Prediction) (idle : τ) (blocks : List (List UInt8)) :
    ((emitAll (stored take) (state, { prediction }) blocks).andThen fun next =>
        next.2.restored.map fun _ => idle)
      = .whole idle (((emitAll take state blocks).andThen fun _ => .quiet (.ok idle)).output
          >>= prediction.undo) := by
  rw [emitAll_stored]
  obtain ⟨bytes, answer⟩ := emitAll take state blocks
  cases answer with
  | error fault => rfl
  | ok next =>
    have data : ((#[] : Array UInt8) ++ bytes.toArray).toList = bytes ++ [] := by simp
    simp only [Emission.quiet, Except.map, Emission.andThen_ok, RowStore.restored_eq, RowStore.add,
      Emission.output, data, List.nil_append]
    show _ = Emission.whole idle (prediction.undo (bytes ++ []))
    cases prediction.undo (bytes ++ []) <;> rfl

variable [Host]

theorem Flate.openDecode_of_active (config : FlateConfig) {parameters : Option Parameters}
    (active : (Prediction.ofParameters parameters).isActive = true) :
    openDecode config parameters = (do
      let rows ← RowStore.start (Prediction.ofParameters parameters)
      reserve 0 config.bufferSize
      return .decoding Host.newInflater (some rows) false) := by
  simp only [openDecode, active, if_true]
  cases RowStore.start (Prediction.ofParameters parameters) <;> rfl

/-- A filter that undoes predictors, with entries that it can begin with if the rows are in order. -/
inductive Filter.HandlesRows : Filter → Prediction → Prop
  | flate (state : Flate) (prediction : Prediction) : HandlesRows (.flate state) prediction
  | lzw (state : Lzw) {prediction : Prediction}
      (known : prediction.earlyChange = 0 ∨ prediction.earlyChange = 1) :
      HandlesRows (.lzw state) prediction

/-- A filter in a session that puts its output into rows. -/
inductive Filter.KeepsRows : Filter → Prop
  | flate (config : FlateConfig) (engine : Host.Inflater) (rows : RowStore) (finished : Bool) :
      KeepsRows (.flate ⟨config, .decoding engine (some rows) finished⟩)
  | lzw (decoder : LzwDecoder) (rows : RowStore) : KeepsRows (.lzw ⟨some ⟨decoder, some rows⟩⟩)

namespace Filter

variable {filter : Filter} {parameters : Option Parameters}

/-- Without a predictor, the entry that would ask for one makes no difference. -/
theorem begin_plain (filter : Filter)
    (inactive : (Prediction.ofParameters parameters).isActive = false) :
    filter.begin .decode (Parameters.plain parameters) = filter.begin .decode parameters := by
  have inactive' := Prediction.isActive_plain parameters
  cases filter with
  | lzw state =>
    simp only [begin, Lzw.beginDecode, Lzw.openSession_of_inactive inactive,
      Lzw.openSession_of_inactive inactive', Prediction.ofParameters_plain, CodeSpace.ofPrediction]
  | flate state =>
    simp only [begin, Flate.beginDecode, Flate.openDecode_of_inactive _ inactive,
      Flate.openDecode_of_inactive _ inactive']
  | _ => rfl

theorem begin_of_start_error (handles : filter.HandlesRows (.ofParameters parameters))
    (active : (Prediction.ofParameters parameters).isActive = true) {fault : Fault}
    (failed : RowStore.start (.ofParameters parameters) = .error fault) :
    filter.begin .decode parameters = (filter.abort, .error fault) := by
  cases handles with
  | flate state =>
    simp only [begin, Flate.beginDecode, Flate.openDecode_of_active _ active, failed]
    rfl
  | lzw state known =>
    obtain ⟨space, asked⟩ := CodeSpace.exists_ofPrediction known
    simp only [begin, Lzw.beginDecode, Lzw.openSession_of_active active, asked, failed]
    rfl

/-- With a predictor, a session begins with a row store. -/
theorem keepsRows_begin (handles : filter.HandlesRows (.ofParameters parameters))
    (active : (Prediction.ofParameters parameters).isActive = true) {next : Filter}
    (begun : filter.begin .decode parameters = (next, .ok ())) : next.KeepsRows := by
  cases handles with
  | flate state =>
    simp only [begin, Flate.beginDecode, Flate.openDecode_of_active _ active] at begun
    cases started : RowStore.start (.ofParameters parameters) with
    | error fault => simp only [started] at begun; cases begun
    | ok rows =>
      simp only [started] at begun
      cases room : reserve 0 state.config.bufferSize with
      | error fault => simp only [room] at begun; cases begun
      | ok _ => simp only [room] at begun; cases begun; exact .flate ..
  | lzw state known =>
    obtain ⟨space, asked⟩ := CodeSpace.exists_ofPrediction known
    simp only [begin, Lzw.beginDecode, Lzw.openSession_of_active active, asked] at begun
    cases started : RowStore.start (.ofParameters parameters) with
    | error fault => simp only [started] at begun; cases begun
    | ok rows => simp only [started] at begun; cases begun; exact .lzw ..

/-- A block goes into the rows, and the sink gets nothing. -/
theorem KeepsRows.block (keeps : filter.KeepsRows) (bytes : List UInt8) (sink : Sink) :
    (filter.block .decode bytes sink).sink = sink
      ∧ ((filter.block .decode bytes sink).result = .ok () →
        (filter.block .decode bytes sink).state.KeepsRows) := by
  cases keeps with
  | flate config engine rows finished =>
    cases finished with
    | true => exact ⟨rfl, fun _ => .flate ..⟩
    | false =>
      simp only [Filter.block, reply, Flate.decodeBlock]
      rcases decompressBlock config engine bytes .unlimited with ⟨outlet, fault | ⟨engine, finished⟩⟩
      · exact ⟨rfl, fun fine => by cases fine⟩
      · exact ⟨rfl, fun _ => .flate ..⟩
  | lzw decoder rows => exact ⟨rfl, fun _ => .lzw ..⟩

end Filter

namespace Session

variable {filter : Filter} {parameters : Option Parameters}

/-- What comes of passing blocks through a filter: all that was written, or a fault. -/
def output (filter : Filter) (direction : Direction) (parameters : Option Parameters)
    (blocks : List (List UInt8)) : Except Fault (List UInt8) :=
  let reply := pass filter direction parameters blocks .unlimited
  reply.result.map fun _ => reply.sink.accepted.toList

theorem output_eq_passed (filter : Filter) (direction : Direction) (parameters : Option Parameters)
    (blocks : List (List UInt8)) :
    output filter direction parameters blocks
      = (passed filter direction parameters blocks).output := by
  simp only [output, passed, emissionOf, Emission.output, Reply.outcome]
  cases (pass filter direction parameters blocks .unlimited).result <;> rfl

theorem sink_feedEach_of_keepsRows (keeps : filter.KeepsRows) (sink : Sink) (fed : Nat)
    (blocks : List (List UInt8)) :
    (feedEach ⟨filter, sink, .decode, true, fed⟩ blocks).sink = sink := by
  induction blocks generalizing filter fed with
  | nil => rfl
  | cons block rest ih =>
    obtain ⟨same, kept⟩ := keeps.block block sink
    rw [feedEach, List.foldl_cons, feed]
    rcases taken : filter.block .decode block sink with ⟨next, left, fault | _⟩
    · rw [taken] at same
      have none := (refused next.abort left .decode (fed + block.length) rest).1
      exact (congrArg Session.sink none).trans same
    · rw [taken] at same kept
      cases same
      exact ih (kept rfl) _

section Rows

variable (active : (Prediction.ofParameters parameters).isActive = true) {rows : RowStore}
  (started : RowStore.start (.ofParameters parameters) = .ok rows)

include active started

theorem passed_flate_predicted (config : FlateConfig) (session : FlateSession)
    (blocks : List (List UInt8)) :
    passed (.flate ⟨config, session⟩) .decode parameters blocks
      = .whole (.flate (.idle config))
        ((passed (.flate ⟨config, session⟩) .decode (Parameters.plain parameters) blocks).output
          >>= (Prediction.ofParameters parameters).undo) := by
  obtain rfl := RowStore.eq_of_start started
  have opened := Flate.openDecode_of_active config active
  have openedPlain := Flate.openDecode_of_inactive config (Prediction.isActive_plain parameters)
  cases room : reserve 0 config.bufferSize with
  | error fault =>
    -- Without memory for its buffer the filter begins neither.
    simp only [started, room] at opened openedPlain
    have failed : (Filter.flate ⟨config, session⟩).begin .decode parameters
        = (.flate (.idle config), .error fault) := by
      simp only [Filter.begin, Flate.beginDecode, opened]
      rfl
    have failedPlain : (Filter.flate ⟨config, session⟩).begin .decode (Parameters.plain parameters)
        = (.flate (.idle config), .error fault) := by
      simp only [Filter.begin, Flate.beginDecode, openedPlain]
      rfl
    rw [passed, passed, (emits_pass_of_error failed blocks).emissionOf_eq,
      (emits_pass_of_error failedPlain blocks).emissionOf_eq]
    rfl
  | ok _ =>
    simp only [started, room] at opened openedPlain
    have begun : (Filter.flate ⟨config, session⟩).begin .decode parameters
        = ((Codec.flateStoring config).filter
          ((Host.newInflater, false), { prediction := .ofParameters parameters }), .ok ()) := by
      simp only [Filter.begin, Flate.beginDecode, opened]
      rfl
    have begunPlain := Filter.begin_decode_flate session (Prediction.isActive_plain parameters) room
    rw [passed, passed,
      (emits_pass_of_begin (.flateStoring config) trivial begun blocks).emissionOf_eq,
      (emits_pass_of_begin (.flateReading config) trivial begunPlain blocks).emissionOf_eq]
    exact emitAll_stored_restored ..

theorem passed_lzw_predicted (state : Lzw) {space : CodeSpace}
    (asked : CodeSpace.ofPrediction (.ofParameters parameters) = .ok space)
    (blocks : List (List UInt8)) :
    passed (.lzw state) .decode parameters blocks
      = .whole (.lzw .idle)
        ((passed (.lzw state) .decode (Parameters.plain parameters) blocks).output
          >>= (Prediction.ofParameters parameters).undo) := by
  obtain rfl := RowStore.eq_of_start started
  have asked' : CodeSpace.ofPrediction (.ofParameters (Parameters.plain parameters)) = .ok space := by
    rw [Prediction.ofParameters_plain]
    exact asked
  have opened := Lzw.openSession_of_active active
  have openedPlain := Lzw.openSession_of_inactive (Prediction.isActive_plain parameters)
  simp only [asked, asked', started] at opened openedPlain
  have begun : (Filter.lzw state).begin .decode parameters
      = (Codec.lzwStoring.filter
        (.start space, { prediction := .ofParameters parameters }), .ok ()) := by
    simp only [Filter.begin, Lzw.beginDecode, opened]
    rfl
  have begunPlain : (Filter.lzw state).begin .decode (Parameters.plain parameters)
      = (Codec.lzwReading.filter (.start space), .ok ()) := by
    simp only [Filter.begin, Lzw.beginDecode, openedPlain]
    rfl
  have sound : (LzwDecoder.start space).IsSound :=
    LzwDecoder.isSound_start (CodeSpace.isNarrow_of_ofPrediction asked)
  rw [passed, passed,
    (emits_pass_of_begin .lzwStoring (by exact sound) begun blocks).emissionOf_eq,
    (emits_pass_of_begin .lzwReading sound begunPlain blocks).emissionOf_eq]
  exact emitAll_stored_restored ..

/-- With a predictor, a pass writes at once what putting the rows back makes of the outcome without
it, or it fails before it has written anything. -/
theorem passed_predicted (handles : filter.HandlesRows (.ofParameters parameters))
    (blocks : List (List UInt8)) :
    passed filter .decode parameters blocks
      = .whole filter.abort ((passed filter .decode (Parameters.plain parameters) blocks).output
          >>= (Prediction.ofParameters parameters).undo) := by
  cases handles with
  | flate state =>
    obtain ⟨config, session⟩ := state
    exact passed_flate_predicted active started config session blocks
  | lzw state known =>
    obtain ⟨space, asked⟩ := CodeSpace.exists_ofPrediction known
    exact passed_lzw_predicted active started state asked blocks

end Rows

/-- With a predictor, a pass writes everything at once, or nothing if anything else fails than the
sink itself. -/
theorem passed_eq_whole (handles : filter.HandlesRows (.ofParameters parameters))
    (active : (Prediction.ofParameters parameters).isActive = true) (blocks : List (List UInt8)) :
    passed filter .decode parameters blocks
      = .whole filter.abort (output filter .decode parameters blocks) := by
  rw [output_eq_passed]
  cases started : RowStore.start (.ofParameters parameters) with
  | error fault =>
    have failed := Filter.begin_of_start_error handles active started
    rw [passed, (emits_pass_of_error failed blocks).emissionOf_eq]
    rfl
  | ok rows => rw [passed_predicted active started handles, Emission.output_whole]

/-- Without a predictor, a pass is the same as with the entry that asks for none. -/
theorem pass_plain (filter : Filter)
    (inactive : (Prediction.ofParameters parameters).isActive = false) (blocks : List (List UInt8))
    (sink : Sink) :
    pass filter .decode parameters blocks sink
      = pass filter .decode (Parameters.plain parameters) blocks sink := by
  rw [pass, pass, start, start, filter.begin_plain inactive]

/-- A predictor that is turned down keeps a session from beginning. -/
theorem start_of_start_error (handles : filter.HandlesRows (.ofParameters parameters))
    (active : (Prediction.ofParameters parameters).isActive = true) {fault : Fault}
    (failed : RowStore.start (.ofParameters parameters) = .error fault) (sink : Sink) :
    start filter .decode parameters sink = .error (filter.abort, fault) := by
  rw [start, Filter.begin_of_start_error handles active failed]
  exact congrArg (fun left => Except.error (left, fault)) filter.abort_abort

/-- With a predictor, blocks put nothing into the sink. -/
theorem sink_feedEach_of_start (handles : filter.HandlesRows (.ofParameters parameters))
    (active : (Prediction.ofParameters parameters).isActive = true) {sink : Sink} {session : Session}
    (begun : start filter .decode parameters sink = .ok session) (earlier : List (List UInt8)) :
    (session.feedEach earlier).sink = sink := by
  rw [start] at begun
  rcases answer : filter.begin .decode parameters with ⟨next, fault | _⟩
  · rw [answer] at begun
    cases begun
  · rw [answer] at begun
    cases begun
    exact sink_feedEach_of_keepsRows (Filter.keepsRows_begin handles active answer) sink 0 earlier

/-- With a predictor, the sink gets everything in one write. -/
theorem pass_eq_write (handles : filter.HandlesRows (.ofParameters parameters))
    (active : (Prediction.ofParameters parameters).isActive = true) (blocks : List (List UInt8))
    (sink : Sink) :
    ((pass filter .decode parameters blocks sink).sink,
        (pass filter .decode parameters blocks sink).result)
      = match output filter .decode parameters blocks with
        | .ok bytes => sink.write bytes
        | .error fault => (sink, .error fault) := by
  have emits : (pass filter .decode parameters blocks sink).outcome
      = sink.absorb (.whole filter.abort (output filter .decode parameters blocks)) := by
    rw [← passed_eq_whole handles active]
    exact emits_passed filter .decode parameters blocks sink
  rw [Reply.result_eq, emits, ← Emission.absorb_whole filter.abort, ← emits]
  rfl

/-- Where blocks can be cut anywhere, they come to what a run of all of them comes to. -/
theorem output_eq_run {direction : Direction} (cuts : filter.TakesCuts direction)
    (parameters : Option Parameters) (blocks : List (List UInt8)) :
    output filter direction parameters blocks = (filter.run direction parameters blocks.flatten).2 := by
  rw [output_eq_passed, (passed_flatten cuts parameters blocks).output_eq, run_eq_passed]
  rfl

/-- Some filters have no use for parameters. -/
theorem record_eq_of_parameters (other : (∃ state, filter = .hex state)
      ∨ (∃ state, filter = .base85 state) ∨ (∃ state, filter = .runLength state))
    (direction : Direction) (parameters parameters' : Option Parameters) :
    (∀ blocks sink, record filter direction parameters blocks sink
        = record filter direction parameters' blocks sink)
      ∧ ∀ data, filter.run direction parameters data = filter.run direction parameters' data := by
  have same : filter.begin direction parameters = filter.begin direction parameters' := by
    rcases other with ⟨state, rfl⟩ | ⟨state, rfl⟩ | ⟨state, rfl⟩ <;> cases direction <;> rfl
  refine ⟨?_, ?_⟩
  · intro blocks sink
    rw [record, record, start, start, same]
  · intro data
    rw [Filter.run, Filter.run, Filter.runOnce, Filter.runOnce, same]

/-- A filter that undoes predictors decodes in two steps: as without a predictor, and, unless the
predictor does nothing, by putting the rows back. The predictor is turned down before anything else,
then come the faults of decoding, and then those of the rows. With a predictor, blocks put nothing
into the sink, and then it gets everything at once, or nothing if anything else fails than the sink
itself. All this holds for any engine. What decoding without a predictor comes to is that of a single
run, where blocks can be cut anywhere. The parameters of the other codecs make no difference. -/
theorem decode_predicted (filter : Filter) (parameters : Option Parameters)
    (blocks : List (List UInt8)) :
    let prediction := Prediction.ofParameters parameters
    let raw := output filter .decode (Parameters.plain parameters) blocks
    let decoded := output filter .decode parameters blocks
    (filter.HandlesRows prediction →
        (prediction.predictor ≤ 1 → decoded = raw ∧ ∀ sink,
          pass filter .decode parameters blocks sink
            = pass filter .decode (Parameters.plain parameters) blocks sink)
        ∧ (2 ≤ prediction.predictor →
          (∀ fault, RowStore.start prediction = .error fault → ∀ sink,
            start filter .decode parameters sink = .error (filter.abort, fault))
          ∧ (∀ rows, RowStore.start prediction = .ok rows → decoded = raw >>= prediction.undo)
          ∧ (∀ sink session, start filter .decode parameters sink = .ok session →
            ∀ earlier, (session.feedEach earlier).sink = sink)
          ∧ ∀ sink,
            ((pass filter .decode parameters blocks sink).sink,
              (pass filter .decode parameters blocks sink).result)
              = match decoded with
                | .ok bytes => sink.write bytes
                | .error fault => (sink, .error fault)))
      ∧ (filter.TakesCuts .decode →
        raw = (filter.run .decode (Parameters.plain parameters) blocks.flatten).2)
      ∧ ((∃ state, filter = .hex state) ∨ (∃ state, filter = .base85 state)
          ∨ (∃ state, filter = .runLength state) →
        ∀ direction other, (∀ sink, record filter direction parameters blocks sink
            = record filter direction other blocks sink)
          ∧ ∀ data, filter.run direction parameters data = filter.run direction other data) := by
  intro prediction raw decoded
  refine ⟨fun handles => ⟨fun small => ?_, fun large => ?_⟩, fun cuts => ?_, fun other => ?_⟩
  · have inactive : prediction.isActive = false := decide_eq_false (Int.not_lt.mpr small)
    have same := pass_plain filter inactive blocks
    exact ⟨by simp only [decoded, raw, output, same], same⟩
  · have active : prediction.isActive = true := decide_eq_true large
    refine ⟨fun fault failed => start_of_start_error handles active failed, fun rows started => ?_,
      fun sink session begun => sink_feedEach_of_start handles active begun,
      pass_eq_write handles active blocks⟩
    show output filter .decode parameters blocks = _
    rw [output_eq_passed, passed_predicted active started handles, Emission.output_whole,
      ← output_eq_passed]
  · exact output_eq_run cuts (Parameters.plain parameters) blocks
  · intro direction parameters'
    obtain ⟨records, runs⟩ := record_eq_of_parameters other direction parameters parameters'
    exact ⟨records blocks, runs⟩

end Session

end PdfFilters

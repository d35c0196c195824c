import PdfFilters.Chain
import PdfFilters.Proofs.Session

/-!
# A chain is the composition of its stages

Whatever a chain was called with before, its next answer is that of its filters applied one after
another, each one fresh and used once (`Chain.composed`): from the first to the last for decoding,
and from the last to the first, without parameters, for encoding. The first one to fail ends this,
and is named together with its place. Decoding into a sink gives that sink nothing before all but the
last stage have done their work (`Chain.answers_eq_composed`).

The reason is that a pass leaves its filter as an abort would, and that what a filter was doing before
makes no difference to a pass (`Chain.runInto_foldl_after`).
-/

namespace PdfFilters

/-- Naming a fault does not make a success. -/
theorem ok_of_mapError_ok {α ε : Type} {result : Except Fault α} {name : Fault → ε} {value : α}
    (fine : result.mapError name = .ok value) : result = .ok value := by
  cases result with
  | ok other =>
    cases fine
    rfl
  | error fault => cases fine

theorem eq_nil_or_zipIdx_eq_concat (names : List String) :
    names = [] ∨ ∃ last, names.zipIdx = names.zipIdx.dropLast ++ [last] := by
  cases names with
  | nil => exact .inl rfl
  | cons name rest =>
    have some : (name :: rest).zipIdx ≠ [] := by simp
    exact .inr ⟨_, (List.dropLast_concat_getLast some).symm⟩

variable [Host]

/-- A call of a chain. -/
inductive ChainCall where
  | decode (data : List UInt8)
  | decodeInto (data : List UInt8) (sink : Sink)
  | encode (data : List UInt8)

namespace Chain

/-- The chain that a call leaves behind. -/
def after (chain : Chain) : ChainCall → Chain
  | .decode data => (chain.decode data).1
  | .decodeInto data sink => (chain.decodeInto data sink).1
  | .encode data => (chain.encode data).1

/-- What one filter makes of data, fresh and used once. Its fault is named with its place. -/
def applied (direction : Direction) (parameters : List (Option Parameters)) (data : List UInt8)
    (stage : String × Nat) : Except ChainFault (List UInt8) :=
  let filter := Filter.ofName stage.1
  (filter.run direction (parameters.getD stage.2 none) data).2.mapError
    (⟨stage.2, filter.name, ·⟩)

/-- What filters make of data one after another, up to the first fault. -/
def composed (direction : Direction) (names : List String) (parameters : List (Option Parameters))
    (data : List UInt8) : Except ChainFault (List UInt8) :=
  match direction with
  | .decode => names.zipIdx.foldlM (applied .decode parameters) data
  | .encode => names.zipIdx.reverse.foldlM (applied .encode []) data

end Chain

/-- What a stage makes of data. -/
def PlacedStage.output (direction : Direction) (data : List UInt8) (stage : PlacedStage) :
    Except ChainFault (List UInt8) :=
  (stage.1.filter.run direction stage.1.parameters data).2.mapError
    (⟨stage.2, stage.1.filter.name, ·⟩)

namespace Stage

/-- The stage with its filter as an abort leaves it. -/
def aborted (stage : Stage) : Stage := ⟨stage.filter.abort, stage.parameters⟩

theorem aborted_aborted (stage : Stage) : stage.aborted.aborted = stage.aborted := by
  rw [aborted, aborted, Filter.abort_abort]

theorem run_state (stage : Stage) (direction : Direction) (data : List UInt8) (sink : Sink) :
    (stage.run direction data sink).state = stage.aborted := by
  obtain ⟨filter, parameters⟩ := stage
  simp only [run, Session.state_pass, aborted]

/-- What a stage was doing before makes no difference to a run. -/
theorem run_aborted (stage : Stage) (direction : Direction) (data : List UInt8) (sink : Sink) :
    stage.aborted.run direction data sink = stage.run direction data sink := by
  obtain ⟨filter, parameters⟩ := stage
  simp only [run, aborted, Session.pass_abort]

end Stage

/-- Placed stages with their filters as an abort leaves them. -/
def abortedAll (stages : List PlacedStage) : List PlacedStage :=
  stages.map (Prod.map Stage.aborted id)

/-- A run may abort the filters of its stages, and changes nothing else of them. -/
theorem abortedAll_runStages (direction : Direction) (data : List UInt8) (sink : Sink)
    (stages : List PlacedStage) :
    abortedAll (runStages direction data sink stages).stages = abortedAll stages := by
  induction stages generalizing data sink with
  | nil => rfl
  | cons placed rest ih =>
    obtain ⟨stage, place⟩ := placed
    have left (sink : Sink) : (stage.run direction data sink).state.aborted = stage.aborted := by
      rw [stage.run_state, stage.aborted_aborted]
    cases rest with
    -- The last stage writes into the sink of the run, and all others into sinks of their own.
    | nil =>
      simp only [runStages, abortedAll, List.map_cons, List.map_nil, Prod.map_apply, left]
    | cons next rest =>
      simp only [runStages]
      have left := left .unlimited
      generalize stage.run direction data .unlimited = reply at left
      obtain ⟨left', between, result⟩ := reply
      cases result with
      | error fault =>
        simp only [abortedAll, List.map_cons, Prod.map_apply]
        rw [show left'.aborted = stage.aborted from left]
      | ok _ =>
        have onward := ih between.accepted.toList sink
        simp only [abortedAll, List.map_cons, Prod.map_apply] at onward ⊢
        rw [onward, show left'.aborted = stage.aborted from left]

/-- What stages were doing before makes no difference to the sink and the answer of a run. -/
theorem runStages_abortedAll (direction : Direction) (data : List UInt8) (sink : Sink)
    (stages : List PlacedStage) :
    (runStages direction data sink (abortedAll stages)).sink
        = (runStages direction data sink stages).sink
      ∧ (runStages direction data sink (abortedAll stages)).result
        = (runStages direction data sink stages).result := by
  induction stages generalizing data sink with
  | nil => exact ⟨rfl, rfl⟩
  | cons placed rest ih =>
    obtain ⟨stage, place⟩ := placed
    have name : stage.aborted.filter.name = stage.filter.name := stage.filter.name_abort
    cases rest with
    | nil =>
      simp only [abortedAll, List.map_cons, List.map_nil, Prod.map_apply, runStages,
        Stage.run_aborted, name, id, and_self]
    | cons next rest =>
      simp only [abortedAll, List.map_cons, Prod.map_apply, runStages, Stage.run_aborted, name, id]
      obtain ⟨left, between, result⟩ := stage.run direction data .unlimited
      cases result with
      | error fault => exact ⟨rfl, rfl⟩
      | ok _ => exact ih between.accepted.toList sink

/-- What a stage hands to the next one, or its fault. -/
theorem run_unlimited (stage : Stage) (place : Nat) (direction : Direction) (data : List UInt8) :
    PlacedStage.output direction data (stage, place)
      = ((stage.run direction data .unlimited).result.map fun _ =>
          (stage.run direction data .unlimited).sink.accepted.toList).mapError
        (⟨place, stage.filter.name, ·⟩) := by
  obtain ⟨filter, parameters⟩ := stage
  simp only [PlacedStage.output, Session.run_eq_passed, Session.passed, emissionOf, Reply.outcome,
    Stage.run]
  obtain ⟨left, sink, result⟩ := Session.pass filter direction parameters [data] .unlimited
  cases result <;> rfl

/-- What a stage does to any sink. -/
theorem run_sink (stage : Stage) (direction : Direction) (data : List UInt8) (sink : Sink) :
    ((stage.run direction data sink).sink, (stage.run direction data sink).result)
      = sink.absorb ((Session.passed stage.filter direction stage.parameters [data]).map
          fun _ => ()) := by
  obtain ⟨filter, parameters⟩ := stage
  rw [← (Session.emits_passed filter direction parameters [data]).map (fun _ => ()) sink]
  simp only [Stage.run, Reply.outcome]
  obtain ⟨left, sink, result⟩ := Session.pass filter direction parameters [data] sink
  cases result <;> rfl

/-- Running stages composes them. -/
theorem runStages_unlimited (direction : Direction) (data : List UInt8)
    (stages : List PlacedStage) :
    ((runStages direction data .unlimited stages).result.map fun _ =>
        (runStages direction data .unlimited stages).sink.accepted.toList)
      = stages.foldlM (PlacedStage.output direction) data := by
  induction stages generalizing data with
  | nil =>
    show Except.ok ((#[] : Array UInt8) ++ data).toList = Except.ok data
    simp
  | cons placed rest ih =>
    obtain ⟨stage, place⟩ := placed
    rw [List.foldlM_cons, run_unlimited]
    cases rest with
    | nil =>
      simp only [runStages, List.foldlM_nil]
      obtain ⟨left, sink, result⟩ := stage.run direction data .unlimited
      cases result <;> rfl
    | cons next rest =>
      simp only [runStages]
      obtain ⟨left, between, result⟩ := stage.run direction data .unlimited
      cases result with
      | error fault => rfl
      | ok _ => exact ih between.accepted.toList

/-- All stages but the last have to do their work before the sink gets anything. -/
theorem runStages_append (direction : Direction) (data : List UInt8) (sink : Sink)
    (stages : List PlacedStage) (last : PlacedStage) :
    ((runStages direction data sink (stages ++ [last])).sink,
        (runStages direction data sink (stages ++ [last])).result)
      = match stages.foldlM (PlacedStage.output direction) data with
        | .error fault => (sink, .error fault)
        | .ok between =>
          ((last.1.run direction between sink).sink,
            (last.1.run direction between sink).result.mapError
              (⟨last.2, last.1.filter.name, ·⟩)) := by
  induction stages generalizing data with
  | nil => rfl
  | cons placed rest ih =>
    obtain ⟨stage, place⟩ := placed
    -- Some stage comes behind this one, so it is not the one that writes into the sink.
    obtain ⟨next, others, split⟩ : ∃ next others, rest ++ [last] = next :: others := by
      cases rest with
      | nil => exact ⟨_, _, rfl⟩
      | cons next others => exact ⟨_, _, rfl⟩
    rw [List.foldlM_cons, run_unlimited, List.cons_append]
    rw [split] at ih ⊢
    simp only [runStages]
    obtain ⟨left, between, result⟩ := stage.run direction data .unlimited
    cases result with
    | error fault => rfl
    | ok _ => exact ih between.accepted.toList

namespace Chain

/-- The stages of a fresh chain, in their places. -/
theorem zipIdx_ofNames (names : List String) (parameters : List (Option Parameters)) (first : Nat) :
    (ofNames names (parameters.drop first)).stages.zipIdx first
      = (names.zipIdx first).map fun (name, place) =>
          (⟨Filter.ofName name, parameters.getD place none⟩, place) := by
  induction names generalizing first with
  | nil => rfl
  | cons name rest ih =>
    -- The names that have gone before have taken a parameter each.
    have own : (parameters.drop first).headD none = parameters.getD first none := by
      rw [List.headD_eq_head?_getD, List.head?_drop, List.getD_eq_getElem?_getD]
    rw [ofNames, List.zipIdx_cons, List.zipIdx_cons, List.map_cons, List.tail_drop, ih, own]

/-- The chain with its filters as an abort leaves them. -/
def aborted (chain : Chain) : Chain := ⟨chain.stages.map Stage.aborted⟩

theorem zipIdx_aborted (chain : Chain) :
    chain.aborted.stages.zipIdx = abortedAll chain.stages.zipIdx :=
  List.zipIdx_map ..

theorem map_fst_abortedAll (stages : List PlacedStage) :
    (abortedAll stages).map Prod.fst = (stages.map Prod.fst).map Stage.aborted := by
  rw [abortedAll, List.map_map, List.map_map]
  rfl

theorem aborted_runInto (chain : Chain) (direction : Direction) (data : List UInt8) (sink : Sink) :
    (chain.runInto direction data sink).1.aborted = chain.aborted := by
  cases direction with
  | decode =>
    have same := congrArg (List.map Prod.fst)
      (abortedAll_runStages .decode data sink chain.stages.zipIdx)
    rw [map_fst_abortedAll, map_fst_abortedAll, List.zipIdx_map_fst] at same
    exact congrArg Chain.mk same
  | encode =>
    have same := congrArg (List.map Prod.fst)
      (abortedAll_runStages .encode data sink chain.stages.zipIdx.reverse)
    rw [map_fst_abortedAll, map_fst_abortedAll, List.map_reverse, List.zipIdx_map_fst,
      List.map_reverse] at same
    simp only [runInto, aborted, List.map_reverse, same, List.reverse_reverse]

/-- What a chain was doing before makes no difference to its sink and its answer. -/
theorem runInto_aborted (chain : Chain) (direction : Direction) (data : List UInt8) (sink : Sink) :
    (chain.aborted.runInto direction data sink).2 = (chain.runInto direction data sink).2 := by
  cases direction with
  | decode =>
    have same := runStages_abortedAll .decode data sink chain.stages.zipIdx
    rw [← zipIdx_aborted] at same
    exact Prod.ext same.1 same.2
  | encode =>
    have same := runStages_abortedAll .encode data sink chain.stages.zipIdx.reverse
    rw [abortedAll, List.map_reverse, ← abortedAll, ← zipIdx_aborted] at same
    exact Prod.ext same.1 same.2

/-- No call leaves a trace in a chain but that it may abort filters. -/
theorem aborted_after (chain : Chain) (call : ChainCall) :
    (chain.after call).aborted = chain.aborted := by
  cases call with
  | decode data => exact chain.aborted_runInto .decode data .unlimited
  | decodeInto data sink => exact chain.aborted_runInto .decode data sink
  | encode data => exact chain.aborted_runInto .encode data .unlimited

/-- Nor do many. -/
theorem aborted_foldl_after (chain : Chain) (calls : List ChainCall) :
    (calls.foldl after chain).aborted = chain.aborted := by
  induction calls generalizing chain with
  | nil => rfl
  | cons call rest ih => rw [List.foldl_cons, ih, aborted_after]

/-- After any calls, a chain answers as it would have before. -/
theorem runInto_foldl_after (chain : Chain) (calls : List ChainCall) (direction : Direction)
    (data : List UInt8) (sink : Sink) :
    ((calls.foldl after chain).runInto direction data sink).2
      = (chain.runInto direction data sink).2 := by
  rw [← runInto_aborted, aborted_foldl_after, runInto_aborted]

theorem run_foldl_after (chain : Chain) (calls : List ChainCall) (direction : Direction)
    (data : List UInt8) :
    ((calls.foldl after chain).run direction data).2 = (chain.run direction data).2 :=
  congrArg (fun answer : Sink × Except ChainFault Unit =>
    answer.2.map fun _ => answer.1.accepted.toList)
    (chain.runInto_foldl_after calls direction data .unlimited)

/-- Decoding goes through the stages from the first to the last. -/
theorem decode_eq_foldlM (chain : Chain) (data : List UInt8) :
    (chain.decode data).2 = chain.stages.zipIdx.foldlM (PlacedStage.output .decode) data :=
  runStages_unlimited .decode data chain.stages.zipIdx

/-- Encoding goes through the stages from the last to the first. -/
theorem encode_eq_foldlM (chain : Chain) (data : List UInt8) :
    (chain.encode data).2 = chain.stages.zipIdx.reverse.foldlM (PlacedStage.output .encode) data :=
  runStages_unlimited .encode data chain.stages.zipIdx.reverse

/-- Encoding has no use for parameters. -/
theorem run_encode (filter : Filter) (parameters : Option Parameters) (data : List UInt8) :
    filter.run .encode parameters data = filter.run .encode none data := by
  have same : filter.begin .encode parameters = filter.begin .encode none := by
    cases filter <;> rfl
  rw [Filter.run, Filter.run, Filter.runOnce, Filter.runOnce, same]

/-- A fresh chain composes its filters. -/
theorem run_ofNames (names : List String) (parameters : List (Option Parameters))
    (direction : Direction) (data : List UInt8) :
    ((ofNames names parameters).run direction data).2 = composed direction names parameters data := by
  have placed := zipIdx_ofNames names parameters 0
  rw [List.drop_zero] at placed
  cases direction with
  | decode =>
    refine (decode_eq_foldlM _ data).trans ?_
    rw [placed, List.foldlM_map]
    rfl
  | encode =>
    refine (encode_eq_foldlM _ data).trans ?_
    rw [placed, ← List.map_reverse, List.foldlM_map]
    simp only [PlacedStage.output, run_encode _ (parameters.getD _ none)]
    rfl

/-- The answer and the sink of decoding with a fresh chain that has stages: the last one works on
what the others make of the data, and it alone writes. -/
theorem decodeInto_concat (names : List String) (parameters : List (Option Parameters))
    (data : List UInt8) (sink : Sink) (earlier : List (String × Nat)) (last : String × Nat)
    (split : names.zipIdx = earlier ++ [last]) :
    ((ofNames names parameters).decodeInto data sink).2
      = match earlier.foldlM (applied .decode parameters) data with
        | .error fault => (sink, .error fault)
        | .ok between =>
          let filter := Filter.ofName last.1
          let emission := Session.passed filter .decode (parameters.getD last.2 none) [between]
          ((sink.absorb (emission.map fun _ => ())).1,
            (sink.absorb (emission.map fun _ => ())).2.mapError (⟨last.2, filter.name, ·⟩)) := by
  have placed := zipIdx_ofNames names parameters 0
  rw [List.drop_zero, split, List.map_append] at placed
  show ((runStages .decode data sink (ofNames names parameters).stages.zipIdx).sink,
    (runStages .decode data sink (ofNames names parameters).stages.zipIdx).result) = _
  rw [placed, List.map_singleton, runStages_append, List.foldlM_map]
  have same : (fun data (stage : String × Nat) => PlacedStage.output .decode data
      (⟨Filter.ofName stage.1, parameters.getD stage.2 none⟩, stage.2))
      = applied .decode parameters := rfl
  rw [same]
  cases earlier.foldlM (applied .decode parameters) data with
  | error fault => rfl
  | ok between =>
    have ran := run_sink ⟨Filter.ofName last.1, parameters.getD last.2 none⟩ .decode between sink
    simp only [← ran]

section DecodeInto

variable (names : List String) (parameters : List (Option Parameters)) (data : List UInt8)
  (sink : Sink)

theorem decodeInto_nil :
    ((ofNames [] parameters).decodeInto data sink).2
      = ((sink.write data).1, (sink.write data).2.mapError (⟨0, "identity", ·⟩)) := rfl

/-- Decoding goes through all stages but the last, and then through the last one. -/
theorem composed_concat {earlier : List (String × Nat)} {last : String × Nat}
    (split : names.zipIdx = earlier ++ [last]) :
    composed .decode names parameters data
      = (earlier.foldlM (applied .decode parameters) data >>= fun between =>
          let filter := Filter.ofName last.1
          let emission := Session.passed filter .decode (parameters.getD last.2 none) [between]
          (emission.result.map fun _ => emission.bytes).mapError (⟨last.2, filter.name, ·⟩)) := by
  rw [composed, split, List.foldlM_append]
  congr 1
  funext between
  rw [List.foldlM_cons, applied, Session.run_eq_passed]
  exact bind_pure _

/-- The sink gets nothing if a stage before the last one fails. -/
theorem decodeInto_of_error {fault : ChainFault}
    (failed : names.zipIdx.dropLast.foldlM (applied .decode parameters) data = .error fault) :
    ((ofNames names parameters).decodeInto data sink).2 = (sink, .error fault) := by
  rcases eq_nil_or_zipIdx_eq_concat names with rfl | ⟨last, split⟩
  · cases failed
  · rw [decodeInto_concat names parameters data sink _ last split, failed]

/-- If decoding into a sink succeeds, the sink has taken what decoding gives. -/
theorem decode_of_decodeInto_ok {left : Sink}
    (fine : ((ofNames names parameters).decodeInto data sink).2 = (left, .ok ())) :
    ∃ bytes, composed .decode names parameters data = .ok bytes
      ∧ sink.write bytes = (left, .ok ()) := by
  rcases eq_nil_or_zipIdx_eq_concat names with rfl | ⟨last, split⟩
  · rw [decodeInto_nil] at fine
    obtain ⟨rfl, result⟩ := Prod.mk.inj fine
    refine ⟨data, rfl, Prod.ext rfl (ok_of_mapError_ok result)⟩
  · rw [decodeInto_concat names parameters data sink _ last split] at fine
    rw [composed_concat names parameters data split]
    cases fold : names.zipIdx.dropLast.foldlM (applied .decode parameters) data with
    | error fault =>
      rw [fold] at fine
      cases (Prod.mk.inj fine).2
    | ok between =>
      rw [fold] at fine
      obtain ⟨rfl, result⟩ := Prod.mk.inj fine
      obtain ⟨taken, ended⟩ := Sink.write_of_absorb_ok (Prod.ext rfl (ok_of_mapError_ok result))
      refine ⟨_, ?_, taken⟩
      obtain ⟨filter, ended, same⟩ := exists_of_map_ok ended
      exact congrArg (fun result => (Except.map _ result).mapError _) ended

/-- If decoding succeeds, decoding into a sink that takes all of it does too. -/
theorem decodeInto_of_decode_ok {bytes : List UInt8}
    (decoded : composed .decode names parameters data = .ok bytes)
    (taken : (sink.write bytes).2 = .ok ()) :
    ((ofNames names parameters).decodeInto data sink).2 = ((sink.write bytes).1, .ok ()) := by
  rcases eq_nil_or_zipIdx_eq_concat names with rfl | ⟨last, split⟩
  · cases decoded
    rw [decodeInto_nil, taken]
    rfl
  · rw [composed_concat names parameters data split] at decoded
    rw [decodeInto_concat names parameters data sink _ last split]
    cases fold : names.zipIdx.dropLast.foldlM (applied .decode parameters) data with
    | error fault =>
      rw [fold] at decoded
      cases decoded
    | ok between =>
      rw [fold] at decoded
      obtain ⟨filter, ended, rfl⟩ := exists_of_map_ok (ok_of_mapError_ok decoded)
      dsimp only
      generalize Session.passed (Filter.ofName last.1) .decode (parameters.getD last.2 none)
        [between] = emission at ended taken ⊢
      have absorbed : sink.absorb (emission.map fun _ => ())
          = ((sink.write emission.bytes).1, emission.result.map fun _ => ()) :=
        Sink.absorb_of_write_ok (Prod.ext rfl taken)
      rw [absorbed, ended]
      rfl

end DecodeInto

/-- After any calls, the answers of a chain are those of its filters in a row. Decoding into a sink
gives it nothing unless all stages but the last succeed, and if it succeeds, exactly what decoding
gives; and it does succeed if decoding does and the sink takes that. A chain without stages gives
data back as they are. -/
theorem answers_eq_composed (names : List String) (parameters : List (Option Parameters))
    (calls : List ChainCall) (data : List UInt8) (sink : Sink) :
    let chain := calls.foldl after (ofNames names parameters)
    let empty := calls.foldl after (ofNames [] parameters)
    (chain.decode data).2 = composed .decode names parameters data
      ∧ (chain.encode data).2 = composed .encode names parameters data
      ∧ (∀ fault, names.zipIdx.dropLast.foldlM (applied .decode parameters) data = .error fault →
        (chain.decodeInto data sink).2 = (sink, .error fault))
      ∧ (∀ left, (chain.decodeInto data sink).2 = (left, .ok ()) →
        ∃ bytes, (chain.decode data).2 = .ok bytes ∧ sink.write bytes = (left, .ok ()))
      ∧ (∀ bytes, (chain.decode data).2 = .ok bytes → (sink.write bytes).2 = .ok () →
        (chain.decodeInto data sink).2 = ((sink.write bytes).1, .ok ()))
      ∧ (empty.decode data).2 = .ok data ∧ (empty.encode data).2 = .ok data := by
  intro chain empty
  have decoded : (chain.decode data).2 = composed .decode names parameters data :=
    (run_foldl_after _ calls .decode data).trans (run_ofNames names parameters .decode data)
  have encoded : (chain.encode data).2 = composed .encode names parameters data :=
    (run_foldl_after _ calls .encode data).trans (run_ofNames names parameters .encode data)
  have into : (chain.decodeInto data sink).2 = ((ofNames names parameters).decodeInto data sink).2 :=
    runInto_foldl_after _ calls .decode data sink
  rw [decoded, into]
  refine ⟨rfl, encoded, ?_, ?_, ?_, ?_, ?_⟩
  · intro fault failed
    exact decodeInto_of_error names parameters data sink failed
  · intro left fine
    exact decode_of_decodeInto_ok names parameters data sink fine
  · intro bytes fine taken
    exact decodeInto_of_decode_ok names parameters data sink fine taken
  · exact (run_foldl_after _ calls .decode data).trans (run_ofNames [] parameters .decode data)
  · exact (run_foldl_after _ calls .encode data).trans (run_ofNames [] parameters .encode data)

end Chain

end PdfFilters

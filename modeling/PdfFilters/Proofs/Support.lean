import PdfFilters.Proofs.Lifecycle
import PdfFilters.Proofs.RoundTrip
import PdfFilters.Proofs.Served

/-!
# What is said to be supported is what is served

`Filter.supports` can be asked of a filter at any time. It says what the table of the standard filters
says of the name, whatever the filter has been called with since it was made. If it says no, every call
in that direction is refused with the name of the filter and the direction, and has no effect. If it
says yes, no call is ever refused in this way.

A chain encodes if and only if all its stages do, provided that its host has what it takes
(`Filter.IsEquipped`). Otherwise the last of those that do not is the one that is reported, because
encoding comes to it first. A fault of decoding says that there is no codec exactly if the stage that it
names has none (`supports_tells`).
-/

namespace PdfFilters

section

variable [Host]

namespace Filter

variable {filter : Filter} {direction : Direction}

theorem supports_abort (filter : Filter) (direction : Direction) :
    filter.abort.supports direction = filter.supports direction := by
  cases filter <;> cases direction <;> rfl

/-- A filter that is like another one supports the same. -/
theorem supports_of_abort_eq {other : Filter} (same : filter.abort = other.abort)
    (direction : Direction) : filter.supports direction = other.supports direction := by
  rw [← supports_abort filter, same, supports_abort other]

/-- A filter that is made by name is called so, or by its full name, and supports what the table of
standard filters says. -/
theorem supports_ofName (name : String) (direction : Direction) :
    (ofName name).name = ((Kind.ofName? name).map Kind.name).getD (bareName name)
      ∧ (ofName name).supports direction
        = (Kind.ofName? name).any fun kind => kind.supports direction := by
  unfold ofName
  cases Kind.ofName? name with
  | none => exact ⟨rfl, rfl⟩
  | some kind =>
    refine ⟨?_, ?_⟩
    · cases kind <;> rfl
    · cases kind <;> cases direction <;> rfl

section Refused

variable (unsupported : filter.supports direction = false)

include unsupported

theorem begin_of_unsupported (parameters : Option Parameters) :
    filter.begin direction parameters = (filter, .error (filter.unsupported direction)) := by
  cases filter <;> cases direction <;> first | rfl | cases unsupported

theorem block_of_unsupported (bytes : List UInt8) (sink : Sink) :
    filter.block direction bytes sink
      = ⟨filter, sink, .error (filter.unsupported direction)⟩ := by
  cases filter <;> cases direction <;> first | rfl | cases unsupported

theorem finish_of_unsupported (sink : Sink) :
    filter.finish direction sink = ⟨filter, sink, .error (filter.unsupported direction)⟩ := by
  cases filter <;> cases direction <;> first | rfl | cases unsupported

theorem runOnce_of_unsupported (parameters : Option Parameters) (data : List UInt8) (sink : Sink) :
    filter.runOnce direction parameters data sink
      = ⟨filter, sink, .error (filter.unsupported direction)⟩ := by
  unfold runOnce
  rw [begin_of_unsupported unsupported]

end Refused

/-- All calls of a run are served. -/
theorem served_runOnce (supported : filter.supports direction = true)
    (parameters : Option Parameters) (data : List UInt8) (sink : Sink) :
    Served (filter.runOnce direction parameters data sink).result := by
  have begins := served_begin supported parameters
  have like := filter.abort_begin direction parameters
  unfold runOnce
  rcases begun : filter.begin direction parameters with ⟨ready, fault | _⟩
  · rw [begun] at begins
    exact begins
  · rw [begun] at like
    have supported' : ready.supports direction = true :=
      (supports_of_abort_eq like direction).trans supported
    have takes := served_block supported' data sink
    have like' := ready.abort_block direction data sink
    dsimp only
    rcases taken : ready.block direction data sink with ⟨next, left, fault | _⟩
    · rw [taken] at takes
      exact takes
    · rw [taken] at like'
      exact served_finish ((supports_of_abort_eq like' direction).trans supported') left

/-- A run that fails for want of a codec is one in a direction that is not supported. -/
theorem isUnsupported_of_runOnce {parameters : Option Parameters} {data : List UInt8} {sink : Sink}
    {fault : Fault} (failed : (filter.runOnce direction parameters data sink).result = .error fault) :
    fault.isUnsupported = !filter.supports direction := by
  cases supported : filter.supports direction with
  | true => exact (served_runOnce supported parameters data sink).isUnsupported_eq failed
  | false =>
    rw [runOnce_of_unsupported supported] at failed
    cases failed
    rfl

theorem run_snd (filter : Filter) (direction : Direction) (parameters : Option Parameters)
    (data : List UInt8) :
    (filter.run direction parameters data).2
      = (filter.runOnce direction parameters data .unlimited).result.map fun _ =>
          (filter.runOnce direction parameters data .unlimited).sink.accepted.toList := by
  unfold run
  rcases filter.runOnce direction parameters data .unlimited with ⟨left, sink, fault | _⟩ <;> rfl

/-- A filter that compresses has got memory for its buffer. -/
theorem reserve_of_run_encode {state : Flate} {parameters : Option Parameters}
    {data encoded : List UInt8} (ran : ((flate state).run .encode parameters data).2 = .ok encoded) :
    reserve 0 state.config.bufferSize = .ok () := by
  cases room : reserve 0 state.config.bufferSize with
  | ok _ => rfl
  | error fault =>
    have failed : (flate state).begin .encode parameters = (flate state, .error fault) := by
      simp only [begin, Flate.beginEncode, room]
    rw [run_snd, runOnce, failed] at ran
    cases ran

/-- With an empty buffer nothing is ever compressed, whatever the engine. -/
theorem run_encode_ne_ok_of_no_room {state : Flate} (empty : state.config.bufferSize = 0)
    (parameters : Option Parameters) (data encoded : List UInt8) :
    ((flate state).run .encode parameters data).2 ≠ .ok encoded := by
  intro ran
  have written := run_encode_flate parameters data state (reserve_of_run_encode ran)
  obtain ⟨text, failed⟩ := exists_compressedTo_error_of_no_room state.config.level data []
  rw [empty, failed, ran] at written
  cases written

/-- What it takes to encode: memory for the buffer of the filter, if it has one, and an engine that
compresses with the room that the buffer gives it. -/
def IsEquipped : Filter → Prop
  | .flate state => reserve 0 state.config.bufferSize = .ok ()
    ∧ Host.Compresses state.config.level state.config.bufferSize
  | _ => True

/-- A filter that encodes does so whatever the data. -/
theorem exists_run_encode (supported : filter.supports .encode = true) (equipped : filter.IsEquipped)
    (parameters : Option Parameters) (data : List UInt8) :
    ∃ encoded, (filter.run .encode parameters data).2 = .ok encoded := by
  cases filter with
  | hex state => exact ⟨_, run_encode_hex parameters data state⟩
  | base85 state =>
    obtain ⟨text, written, -⟩ := exists_run_base85 parameters data
    exact ⟨text, written state⟩
  | flate state =>
    obtain ⟨room, compresses⟩ := equipped
    rw [run_encode_flate parameters data state room]
    exact compresses.exists_compressedTo [data]
  | lzw | runLength | absent => cases supported

end Filter

/-- A stage that fails for want of a codec is one that does not support the direction. -/
theorem Stage.isUnsupported_of_run {stage : Stage} {direction : Direction} {data : List UInt8}
    {sink : Sink} {fault : Fault} (failed : (stage.run direction data sink).result = .error fault) :
    fault.isUnsupported = !stage.filter.supports direction := by
  obtain ⟨filter, parameters⟩ := stage
  obtain ⟨-, same⟩ := Session.pass_single filter direction parameters data sink
  have once : (filter.runOnce direction parameters data sink).result = .error fault :=
    same.symm.trans failed
  exact Filter.isUnsupported_of_runOnce once

/-- A fault names a stage of the run, and says that there is no codec exactly if that stage has none
for the direction. Without stages it can only come from the sink. -/
theorem isUnsupported_of_runStages {direction : Direction} {data : List UInt8} {sink : Sink}
    {placed : List PlacedStage} {fault : ChainFault}
    (failed : (runStages direction data sink placed).result = .error fault) :
    (placed = [] ∧ fault.isUnsupported = false)
      ∨ ∃ stage, (stage, fault.stage) ∈ placed ∧ fault.filter = stage.filter.name
        ∧ fault.isUnsupported = !stage.filter.supports direction := by
  induction placed generalizing data sink with
  | nil =>
    left
    refine ⟨rfl, ?_⟩
    unfold runStages at failed
    rcases written : sink.write data with ⟨left, refused | _⟩
    · rw [written] at failed
      cases failed
      exact Sink.isUnsupported_of_write written
    · rw [written] at failed
      cases failed
  | cons head rest ih =>
    obtain ⟨stage, place⟩ := head
    right
    cases rest with
    | nil =>
      unfold runStages at failed
      rcases ran : stage.run direction data sink with ⟨left, after, cause | _⟩
      · rw [ran] at failed
        cases failed
        have unsupported := Stage.isUnsupported_of_run (congrArg Reply.result ran)
        exact ⟨stage, List.mem_cons_self, rfl, unsupported⟩
      · rw [ran] at failed
        cases failed
    | cons next others =>
      unfold runStages at failed
      rcases ran : stage.run direction data .unlimited with ⟨left, between, cause | _⟩
      · rw [ran] at failed
        cases failed
        have unsupported := Stage.isUnsupported_of_run (congrArg Reply.result ran)
        exact ⟨stage, List.mem_cons_self, rfl, unsupported⟩
      · rw [ran] at failed
        rcases ih failed with ⟨none, -⟩ | ⟨later, listed, name, unsupported⟩
        · cases none
        · exact ⟨later, List.mem_cons_of_mem _ listed, name, unsupported⟩

namespace PlacedStage

/-- Stages that encode come to something, one after another. -/
theorem exists_foldlM_encode {placed : List PlacedStage}
    (supported : ∀ stage ∈ placed, stage.1.filter.supports .encode = true)
    (equipped : ∀ stage ∈ placed, stage.1.filter.IsEquipped) (data : List UInt8) :
    ∃ encoded, placed.foldlM (output .encode) data = .ok encoded := by
  induction placed generalizing data with
  | nil => exact ⟨data, rfl⟩
  | cons head rest ih =>
    obtain ⟨between, encoded⟩ := Filter.exists_run_encode (supported head List.mem_cons_self)
      (equipped head List.mem_cons_self) head.1.parameters data
    obtain ⟨final, onward⟩ := ih (fun stage h => supported stage (List.mem_cons_of_mem _ h))
      (fun stage h => equipped stage (List.mem_cons_of_mem _ h)) between
    refine ⟨final, ?_⟩
    rw [List.foldlM_cons, output, encoded]
    exact onward

/-- The first stage that does not encode is the one that is reported. -/
theorem foldlM_encode_of_unsupported {before after : List PlacedStage} {stage : PlacedStage}
    (supported : ∀ other ∈ before, other.1.filter.supports .encode = true)
    (equipped : ∀ other ∈ before, other.1.filter.IsEquipped)
    (unsupported : stage.1.filter.supports .encode = false) (data : List UInt8) :
    (before ++ stage :: after).foldlM (output .encode) data
      = .error ⟨stage.2, stage.1.filter.name, stage.1.filter.unsupported .encode⟩ := by
  obtain ⟨between, encoded⟩ := exists_foldlM_encode supported equipped data
  rw [List.foldlM_append, encoded]
  show List.foldlM (output .encode) between (stage :: after) = _
  rw [List.foldlM_cons, output, Filter.run_snd, Filter.runOnce_of_unsupported unsupported]
  rfl

/-- Stages that have come to something have done so one by one. -/
theorem exists_of_foldlM {direction : Direction} {placed : List PlacedStage}
    {data final : List UInt8} (fine : placed.foldlM (output direction) data = .ok final)
    {stage : PlacedStage} (listed : stage ∈ placed) :
    ∃ given taken, output direction given stage = .ok taken := by
  induction placed generalizing data with
  | nil => cases listed
  | cons head rest ih =>
    rw [List.foldlM_cons] at fine
    obtain ⟨between, first, onward⟩ := exists_of_bind_ok fine
    rcases List.mem_cons.mp listed with rfl | later
    · exact ⟨data, between, first⟩
    · exact ih onward later

end PlacedStage

namespace Chain

variable {chain : Chain}

theorem supports_iff {direction : Direction} : chain.supports direction = true
    ↔ ∀ stage ∈ chain.stages, stage.filter.supports direction = true :=
  List.all_eq_true

/-- Of stages that do not all support a direction, there is a last one that does not. -/
theorem exists_last_unsupported {stages : List Stage} {direction : Direction}
    (unsupported : ¬ ∀ stage ∈ stages, stage.filter.supports direction = true) :
    ∃ earlier stage later, stages = earlier ++ stage :: later
      ∧ stage.filter.supports direction = false
      ∧ ∀ other ∈ later, other.filter.supports direction = true := by
  cases found : stages.reverse.find? fun stage => !stage.filter.supports direction with
  | none =>
    apply absurd _ unsupported
    intro stage h
    have supported := List.find?_eq_none.mp found stage (List.mem_reverse.mpr h)
    simpa using supported
  | some stage =>
    obtain ⟨fails, later, earlier, split, others⟩ := List.find?_eq_some_iff_append.mp found
    refine ⟨earlier.reverse, stage, later.reverse, ?_, by simpa using fails, ?_⟩
    · rw [← List.reverse_reverse stages, split, List.reverse_append, List.reverse_cons,
        List.append_assoc]
      rfl
    · intro other h
      simpa using others other (List.mem_reverse.mp h)

/-- With an empty buffer in one of its stages, a chain encodes nothing, whatever the engine. -/
theorem encode_ne_ok_of_no_room
    (empty : ∃ stage ∈ chain.stages, ∃ state, stage.filter = .flate state ∧ state.config.bufferSize = 0)
    (data encoded : List UInt8) : (chain.encode data).2 ≠ .ok encoded := by
  obtain ⟨stage, listed, state, same, empty⟩ := empty
  intro written
  obtain ⟨place, placed⟩ := List.getElem?_of_mem listed
  rw [encode_eq_foldlM] at written
  obtain ⟨given, taken, ran⟩ := PlacedStage.exists_of_foldlM written
    (List.mem_reverse.mpr (List.mem_zipIdx_iff_getElem?.mpr placed : (stage, place) ∈ _))
  have run := ok_of_mapError_ok ran
  rw [same] at run
  exact Filter.run_encode_ne_ok_of_no_room empty stage.parameters given taken run

variable (equipped : ∀ stage ∈ chain.stages, stage.filter.IsEquipped)

include equipped

theorem exists_encode (supported : chain.supports .encode = true) (data : List UInt8) :
    ∃ encoded, (chain.encode data).2 = .ok encoded := by
  rw [encode_eq_foldlM]
  apply PlacedStage.exists_foldlM_encode
  · intro stage h
    exact supports_iff.mp supported _ (List.fst_mem_of_mem_zipIdx (List.mem_reverse.mp h))
  · intro stage h
    exact equipped _ (List.fst_mem_of_mem_zipIdx (List.mem_reverse.mp h))

/-- Encoding goes through the stages from the last to the first, so it is the last one without
support that is reported. -/
theorem encode_of_unsupported {earlier later : List Stage} {stage : Stage}
    (split : chain.stages = earlier ++ stage :: later)
    (unsupported : stage.filter.supports .encode = false)
    (supported : ∀ other ∈ later, other.filter.supports .encode = true) (data : List UInt8) :
    (chain.encode data).2
      = .error ⟨earlier.length, stage.filter.name, .unsupported stage.filter.name .encode⟩ := by
  have placed : chain.stages.zipIdx.reverse
      = (later.zipIdx (earlier.length + 1)).reverse
        ++ (stage, earlier.length) :: earlier.zipIdx.reverse := by
    rw [split, List.zipIdx_append, List.zipIdx_cons, List.reverse_append, List.reverse_cons,
      List.append_assoc, Nat.zero_add]
    rfl
  rw [encode_eq_foldlM, placed]
  apply PlacedStage.foldlM_encode_of_unsupported _ _ unsupported
  · intro other h
    exact supported _ (List.fst_mem_of_mem_zipIdx (List.mem_reverse.mp h))
  · intro other h
    have listed := List.fst_mem_of_mem_zipIdx (List.mem_reverse.mp h)
    apply equipped
    rw [split]
    exact List.mem_append_right _ (List.mem_cons_of_mem _ listed)

/-- A chain that does not support encoding reports the last stage that does not. -/
theorem exists_last_of_not_supports (unsupported : chain.supports .encode = false) (data : List UInt8) :
    ∃ earlier stage later, chain.stages = earlier ++ stage :: later
      ∧ stage.filter.supports .encode = false
      ∧ (∀ other ∈ later, other.filter.supports .encode = true)
      ∧ (chain.encode data).2
        = .error ⟨earlier.length, stage.filter.name, .unsupported stage.filter.name .encode⟩ := by
  have missing : ¬ ∀ stage ∈ chain.stages, stage.filter.supports .encode = true := by
    rw [← supports_iff, unsupported]
    exact Bool.false_ne_true
  obtain ⟨earlier, stage, later, split, fails, others⟩ := exists_last_unsupported missing
  exact ⟨earlier, stage, later, split, fails, others,
    encode_of_unsupported equipped split fails others data⟩

/-- A chain encodes just in case it supports encoding. -/
theorem encode_iff_supports (data : List UInt8) :
    (∃ encoded, (chain.encode data).2 = .ok encoded) ↔ chain.supports .encode = true := by
  constructor
  · rintro ⟨encoded, fine⟩
    rw [← Bool.not_eq_false]
    intro unsupported
    obtain ⟨_, _, _, -, -, -, failed⟩ := exists_last_of_not_supports equipped unsupported data
    cases fine.symm.trans failed
  · intro supported
    exact exists_encode equipped supported data

omit equipped

/-- A fault of decoding into a sink, whatever sink it is. -/
theorem isUnsupported_of_decodeInto {data : List UInt8} {sink : Sink} {fault : ChainFault}
    (failed : (chain.decodeInto data sink).2.2 = .error fault) :
    (chain.stages = [] ∧ fault.isUnsupported = false)
      ∨ ∃ stage, chain.stages[fault.stage]? = some stage ∧ fault.filter = stage.filter.name
        ∧ fault.isUnsupported = !stage.filter.supports .decode := by
  rcases isUnsupported_of_runStages failed with ⟨none, known⟩ | ⟨stage, listed, name, unsupported⟩
  · exact .inl ⟨List.zipIdx_eq_nil_iff.mp none, known⟩
  · exact .inr ⟨stage, List.mem_zipIdx_iff_getElem?.mp listed, name, unsupported⟩

/-- Decoding has no sink that could fail, so its fault names a stage. -/
theorem isUnsupported_of_decode {data : List UInt8} {fault : ChainFault}
    (failed : (chain.decode data).2 = .error fault) :
    ∃ stage, chain.stages[fault.stage]? = some stage ∧ fault.filter = stage.filter.name
      ∧ fault.isUnsupported = !stage.filter.supports .decode := by
  have into : (chain.decodeInto data .unlimited).2.2 = .error fault := by
    have failed : (chain.decodeInto data .unlimited).2.2.map
        (fun _ => (chain.decodeInto data .unlimited).2.1.accepted.toList) = .error fault := failed
    cases ran : (chain.decodeInto data .unlimited).2.2 with
    | error cause =>
      rw [ran] at failed
      cases failed
      rfl
    | ok _ =>
      rw [ran] at failed
      cases failed
  rcases isUnsupported_of_decodeInto into with ⟨none, -⟩ | named
  · rw [decode_eq_foldlM, none] at failed
    cases failed
  · exact named

end Chain

namespace Filter

/-- Whatever it has been called with, a filter is called and supports what the table says of its name. -/
theorem supports_foldl_after (name : String) (calls : List FilterCall) (direction : Direction) :
    let filter := calls.foldl after (ofName name)
    filter.name = ((Kind.ofName? name).map Kind.name).getD (bareName name)
      ∧ filter.supports direction = (Kind.ofName? name).any fun kind => kind.supports direction := by
  intro filter
  have like : filter.abort = (ofName name).abort := abort_foldl_after _ calls
  obtain ⟨called, listed⟩ := supports_ofName name direction
  refine ⟨?_, ?_⟩
  · rw [← filter.name_abort, like, name_abort, called]
  · rw [supports_of_abort_eq like, listed]

/-- No call in a direction that is supported fails for want of a codec. -/
theorem served_of_supported {filter : Filter} {direction : Direction}
    (supported : filter.supports direction = true) (parameters : Option Parameters)
    (bytes : List UInt8) (sink : Sink) :
    Served (filter.begin direction parameters).2
      ∧ Served (filter.block direction bytes sink).result
      ∧ Served (filter.finish direction sink).result
      ∧ Served (filter.run direction parameters bytes).2 := by
  refine ⟨served_begin supported parameters, served_block supported bytes sink,
    served_finish supported sink, ?_⟩
  rw [run_snd]
  exact (served_runOnce supported parameters bytes .unlimited).map _

end Filter

/-- What is said to be supported is what is served. A filter with any history supports what the table
says of its name; its calls in another direction are refused and have no effect, and the others are
never refused. A chain of equipped filters encodes exactly if all its stages do, and otherwise the last
one that does not is reported; with an empty buffer it never does. A fault of decoding, into whatever
sink, tells whether the stage that it names has a codec. -/
theorem supports_tells (name : String) (calls : List FilterCall) (direction : Direction)
    (chain : Chain) (data : List UInt8) :
    let filter := calls.foldl Filter.after (Filter.ofName name)
    (filter.name = ((Kind.ofName? name).map Kind.name).getD (bareName name)
        ∧ filter.supports direction = (Kind.ofName? name).any fun kind => kind.supports direction)
      ∧ (filter.supports direction = false → ∀ parameters bytes sink,
        filter.begin direction parameters = (filter, .error (.unsupported filter.name direction))
          ∧ filter.block direction bytes sink
            = ⟨filter, sink, .error (.unsupported filter.name direction)⟩
          ∧ filter.finish direction sink
            = ⟨filter, sink, .error (.unsupported filter.name direction)⟩)
      ∧ (filter.supports direction = true → ∀ parameters bytes sink,
        Served (filter.begin direction parameters).2
          ∧ Served (filter.block direction bytes sink).result
          ∧ Served (filter.finish direction sink).result
          ∧ Served (filter.run direction parameters bytes).2)
      ∧ ((∀ stage ∈ chain.stages, stage.filter.IsEquipped) →
        ((∃ encoded, (chain.encode data).2 = .ok encoded) ↔ chain.supports .encode = true)
          ∧ (chain.supports .encode = false → ∃ earlier stage later,
            chain.stages = earlier ++ stage :: later
              ∧ stage.filter.supports .encode = false
              ∧ (∀ other ∈ later, other.filter.supports .encode = true)
              ∧ (chain.encode data).2 = .error
                ⟨earlier.length, stage.filter.name, .unsupported stage.filter.name .encode⟩))
      ∧ ((∃ stage ∈ chain.stages, ∃ state, stage.filter = .flate state ∧ state.config.bufferSize = 0) →
        ∀ encoded, (chain.encode data).2 ≠ .ok encoded)
      ∧ (∀ fault, (chain.decode data).2 = .error fault →
        ∃ stage, chain.stages[fault.stage]? = some stage ∧ fault.filter = stage.filter.name
          ∧ fault.isUnsupported = !stage.filter.supports .decode)
      ∧ ∀ sink fault, (chain.decodeInto data sink).2.2 = .error fault →
        (chain.stages = [] ∧ fault.isUnsupported = false)
          ∨ ∃ stage, chain.stages[fault.stage]? = some stage ∧ fault.filter = stage.filter.name
            ∧ fault.isUnsupported = !stage.filter.supports .decode := by
  intro filter
  refine ⟨Filter.supports_foldl_after name calls direction, ?_, Filter.served_of_supported, ?_,
    fun empty => Chain.encode_ne_ok_of_no_room empty data, fun _ => Chain.isUnsupported_of_decode,
    fun _ _ => Chain.isUnsupported_of_decodeInto⟩
  · intro unsupported parameters bytes sink
    exact ⟨Filter.begin_of_unsupported unsupported parameters,
      Filter.block_of_unsupported unsupported bytes sink,
      Filter.finish_of_unsupported unsupported sink⟩
  · intro equipped
    exact ⟨Chain.encode_iff_supports equipped data,
      fun unsupported => Chain.exists_last_of_not_supports equipped unsupported data⟩

end

/-- A filter that has been called, a chain with a stage that only decodes in front of one that compresses,
and a chain that compresses through an empty buffer. -/
theorem supports_tells_mixed :
    let filter := [FilterCall.begin .decode none, .block .decode [0x80, 0x12] .unlimited].foldl
      Filter.after (Filter.ofName "/LZW")
    let chain : Chain := ⟨[⟨.hex .idle, none⟩, ⟨.lzw .idle, none⟩, ⟨.flate (.idle {}), none⟩]⟩
    let empty : Chain := ⟨[⟨.flate (.idle { bufferSize := 0 }), none⟩]⟩
    (filter.supports .encode = false
        ∧ filter.begin .encode none = (filter, .error (.unsupported filter.name .encode)))
      ∧ ((∀ stage ∈ chain.stages, stage.filter.IsEquipped)
        ∧ ¬ ∃ encoded, (chain.encode [1, 2, 3]).2 = .ok encoded)
      ∧ ((∃ stage ∈ empty.stages, ∃ state,
          stage.filter = .flate state ∧ state.config.bufferSize = 0)
        ∧ ∀ encoded, (empty.encode [1, 2, 3]).2 ≠ .ok encoded) := by
  intro filter chain empty
  let calls : List FilterCall := [.begin .decode none, .block .decode [0x80, 0x12] .unlimited]
  have equipped : ∀ stage ∈ chain.stages, stage.filter.IsEquipped := by
    have compresses : (Filter.flate (.idle {})).IsEquipped :=
      ⟨rfl, Host.compresses_builtIn (by decide) _⟩
    simp only [chain, List.forall_mem_cons]
    exact ⟨trivial, trivial, compresses, List.forall_mem_nil _⟩
  obtain ⟨⟨-, listed⟩, refused, -, encodes, -⟩ := supports_tells "/LZW" calls .encode chain [1, 2, 3]
  have unsupported : filter.supports .encode = false := listed.trans (by decide +kernel)
  have none_there : ∃ stage ∈ empty.stages, ∃ state,
      stage.filter = .flate state ∧ state.config.bufferSize = 0 :=
    ⟨_, List.mem_cons_self, _, rfl, rfl⟩
  obtain ⟨-, -, -, -, fails, -⟩ := supports_tells "/LZW" calls .encode empty [1, 2, 3]
  refine ⟨⟨unsupported, (refused unsupported none [] .unlimited).1⟩, ⟨equipped, ?_⟩,
    none_there, fails none_there⟩
  rw [(encodes equipped).1]
  decide

end PdfFilters

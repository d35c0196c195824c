import PdfFilters.Proofs.Chunking
import PdfFilters.Proofs.Composition
import PdfFilters.Proofs.Deflate.Lawful
import PdfFilters.Proofs.Text.Base85
import PdfFilters.Proofs.Text.Hex

/-!
# Decoding undoes encoding

Every filter that writes can be read by one of its own kind: the hexadecimal and the base-85 filter
whatever their parameters, and the filter for compressed streams as long as its parameters ask for no
predictor (`Stage.IsInvertible.exists_encoded`). By induction on the stages, what a chain of such
filters encodes is decoded to the data again, be it by the chain itself or by one made of the same
names and parameters (`Chain.decode_encode`).
-/

namespace PdfFilters

theorem Prediction.isActive_of_predictor_le {parameters : Option Parameters}
    (plain : ∀ predictor, parameters.bind (·.get? "Predictor") = some predictor → predictor ≤ 1) :
    (ofParameters parameters).isActive = false := by
  rw [isActive, decide_eq_false_iff_not, Int.not_lt]
  cases parameters with
  | none => exact Int.le_refl 1
  | some dictionary =>
    show (dictionary.get? "Predictor").getD 1 ≤ 1
    cases entry : dictionary.get? "Predictor" with
    | none => exact Int.le_refl 1
    | some predictor => exact plain predictor entry

section

variable [Host]

/-- The host serves a filter that is set up like this: there is memory for its buffer, and its engines
compress and inflate in this format with the room that the buffer gives them. -/
structure FlateConfig.IsServed (format : List UInt8 → Inflation) (config : FlateConfig) : Prop where
  hasRoom : reserve 0 config.bufferSize = .ok ()
  compresses : Host.Compresses config.level config.bufferSize
  restores : Host.Restores format config.level config.bufferSize
  inflates : Host.Inflates format config.bufferSize

/-- A stage whose decoding undoes its encoding. The filter for compressed streams must not have a
predictor to undo, and depends on its host. -/
inductive Stage.IsInvertible (format : List UInt8 → Inflation) : Stage → Prop
  | hex (state : Hex) (parameters : Option Parameters) : IsInvertible format ⟨.hex state, parameters⟩
  | base85 (state : Base85) (parameters : Option Parameters) :
      IsInvertible format ⟨.base85 state, parameters⟩
  | flate (state : Flate) {parameters : Option Parameters} (served : state.config.IsServed format)
      (plain : ∀ predictor, parameters.bind (·.get? "Predictor") = some predictor → predictor ≤ 1) :
      IsInvertible format ⟨.flate state, parameters⟩

namespace Filter

variable (parameters : Option Parameters) (data : List UInt8)

theorem run_encode_hex (state : Hex) :
    ((hex state).run .encode parameters data).2 = .ok (data.flatMap Hex.encodeByte) := by
  have ran : ((hex state).run .encode parameters data).2 = .ok (data.flatMap Hex.encodeByte ++ []) :=
    Session.run_of_begin .hexWriting trivial rfl rfl rfl
  rwa [List.append_nil] at ran

theorem run_decode_hex (state : Hex) :
    ((hex state).run .decode parameters (data.flatMap Hex.encodeByte)).2 = .ok data := by
  have ran : ((hex state).run .decode parameters (data.flatMap Hex.encodeByte)).2
      = .ok (data ++ []) :=
    Session.run_of_begin .hexReading trivial rfl (Hex.scanned_encode data) rfl
  rwa [List.append_nil] at ran

/-- What is written in base 85 stands for the data up to its end mark. -/
theorem exists_run_encode_base85 :
    ∃ body, (∀ state parameters, ((base85 state).run .encode parameters data).2
        = .ok (body ++ [Base85.tilde, Base85.closing]))
      ∧ Base85.StandsFor body data := by
  obtain ⟨text, writer, last, written, closed, stands⟩ := Base85.exists_standsFor data
  refine ⟨text ++ last, fun state parameters => ?_, stands⟩
  have ended : writer.closingText.map base85
      = ⟨last ++ [Base85.tilde, Base85.closing], .ok (base85 .idle)⟩ := by
    rw [closed]
    rfl
  rw [List.append_assoc]
  exact Session.run_of_begin .base85Writing trivial rfl written ended

/-- Base-85 text is read as what it was written for, by any filter of that kind. -/
theorem exists_run_base85 :
    ∃ text, (∀ state, ((base85 state).run .encode parameters data).2 = .ok text)
      ∧ ∀ state parameters, ((base85 state).run .decode parameters text).2 = .ok data := by
  obtain ⟨body, written, stands⟩ := exists_run_encode_base85 data
  exact ⟨_, fun state => written state parameters, run_of_spells (.mk stands (.inr ⟨[], rfl⟩))⟩

/-- The filter writes what its engine makes of the blocks. -/
theorem output_passed_encode_flate (config : FlateConfig) (session : FlateSession)
    (room : reserve 0 config.bufferSize = .ok ()) (blocks : List (List UInt8)) :
    (Session.passed (flate ⟨config, session⟩) .encode parameters blocks).output
      = compressedTo config.level config.bufferSize blocks := by
  have begun : (flate ⟨config, session⟩).begin .encode parameters
      = ((Codec.flateWriting config).filter (Host.newDeflater config.level), .ok ()) := by
    simp only [begin, Flate.beginEncode, room]
    rfl
  rw [Session.passed,
    (Session.emits_pass_of_begin (.flateWriting config) trivial begun blocks).emissionOf_eq]
  exact Emission.output_andThen_map _ (drained config.bufferSize) fun _ => flate (.idle config)

theorem run_encode_flate (state : Flate) (room : reserve 0 state.config.bufferSize = .ok ()) :
    ((flate state).run .encode parameters data).2
      = compressedTo state.config.level state.config.bufferSize [data] := by
  obtain ⟨config, session⟩ := state
  rw [Session.run_eq_passed, ← output_passed_encode_flate parameters config session room]
  rfl

/-- Without a predictor, the filter decodes a stream to what it inflates to. -/
theorem run_decode_flate (state : Flate) (room : reserve 0 state.config.bufferSize = .ok ())
    (plain : (Prediction.ofParameters parameters).isActive = false) {format : List UInt8 → Inflation}
    (inflates : Host.Inflates format state.config.bufferSize) (stream : List UInt8) :
    ((flate state).run .decode parameters stream).2 = (format stream).output := by
  obtain ⟨config, session⟩ := state
  have begun := begin_decode_flate session plain room
  rw [Session.run_eq_output (.flateReading config) trivial begun, ← inflates.output_inflated stream]
  exact Emission.output_andThen_quiet _ _

end Filter

namespace Stage

/-- What a stage encodes is decoded by any stage of the same kind. -/
theorem IsInvertible.exists_encoded {format : List UInt8 → Inflation} {stage : Stage}
    (invertible : stage.IsInvertible format) (data : List UInt8) :
    ∃ encoded, (stage.filter.run .encode stage.parameters data).2 = .ok encoded
      ∧ ∀ other : Stage, other.IsInvertible format → other.filter.kind? = stage.filter.kind? →
        (other.filter.run .decode other.parameters encoded).2 = .ok data := by
  cases invertible with
  | hex state parameters =>
    refine ⟨_, Filter.run_encode_hex parameters data state, ?_⟩
    intro other invertible same
    cases invertible with
    | hex state parameters => exact Filter.run_decode_hex parameters data state
    | base85 | flate => cases same
  | base85 state parameters =>
    obtain ⟨text, written, read⟩ := Filter.exists_run_base85 parameters data
    refine ⟨text, written state, ?_⟩
    intro other invertible same
    cases invertible with
    | base85 state parameters => exact read state parameters
    | hex | flate => cases same
  | flate state served plain =>
    obtain ⟨stream, compressed⟩ := served.compresses.exists_compressedTo [data]
    have known := served.restores.format_of_compressedTo compressed
    refine ⟨stream, (Filter.run_encode_flate _ data state served.hasRoom).trans compressed, ?_⟩
    intro other invertible same
    cases invertible with
    | flate state served plain =>
      have read := Filter.run_decode_flate _ state served.hasRoom
        (Prediction.isActive_of_predictor_le plain) served.inflates stream
      rw [known] at read
      rw [read, Inflation.output, List.flatten_singleton]
    | hex | base85 => cases same

end Stage

/-- A stage made from the name of an invertible one is of the same kind, and invertible as well, if the
host serves a filter that was not set up otherwise. -/
theorem Stage.IsInvertible.ofName {format : List UInt8 → Inflation} {stage : Stage}
    (invertible : stage.IsInvertible format)
    (usual : stage.filter.kind? = some .flate → FlateConfig.IsServed format {}) :
    Stage.IsInvertible format ⟨Filter.ofName stage.filter.name, stage.parameters⟩
      ∧ (Filter.ofName stage.filter.name).kind? = stage.filter.kind? := by
  cases invertible with
  | hex state parameters =>
    have same : Filter.ofName (Filter.hex state).name = .hex .idle := Filter.ofName_name .asciiHex
    simp only [same]
    exact ⟨.hex .idle parameters, rfl⟩
  | base85 state parameters =>
    have same : Filter.ofName (Filter.base85 state).name = .base85 .idle :=
      Filter.ofName_name .ascii85
    simp only [same]
    exact ⟨.base85 .idle parameters, rfl⟩
  | flate state served plain =>
    have same : Filter.ofName (Filter.flate state).name = .flate (.idle {}) :=
      Filter.ofName_name .flate
    simp only [same]
    exact ⟨.flate (.idle {}) (usual rfl) plain, rfl⟩

/-- What stages encode from the last to the first is decoded by stages of the same kinds from the
first to the last. -/
theorem exists_encoded_all {format : List UInt8 → Inflation} {stages : List Stage}
    (invertible : ∀ stage ∈ stages, stage.IsInvertible format) (place : Nat) (data : List UInt8) :
    ∃ encoded, (stages.zipIdx place).reverse.foldlM (PlacedStage.output .encode) data = .ok encoded
      ∧ ∀ (others : List Stage) (place' : Nat), (∀ other ∈ others, other.IsInvertible format) →
        others.map (·.filter.kind?) = stages.map (·.filter.kind?) →
        (others.zipIdx place').foldlM (PlacedStage.output .decode) encoded = .ok data := by
  induction stages generalizing place with
  | nil =>
    refine ⟨data, rfl, ?_⟩
    intro others place' _ same
    rw [List.map_eq_nil_iff.mp same]
    rfl
  | cons stage rest ih =>
    -- Encoding comes to the first stage last, and decoding begins with it.
    obtain ⟨between, encoded, decoded⟩ :=
      ih (fun other h => invertible other (List.mem_cons_of_mem _ h)) (place + 1)
    obtain ⟨text, written, read⟩ := (invertible stage List.mem_cons_self).exists_encoded between
    refine ⟨text, ?_, ?_⟩
    · have last : PlacedStage.output .encode between (stage, place) = .ok text := by
        rw [PlacedStage.output, written]
        rfl
      rw [List.zipIdx_cons, List.reverse_cons, List.foldlM_append, encoded]
      show PlacedStage.output .encode between (stage, place) >>= _ = _
      rw [last]
      rfl
    · intro others place' invertible' same
      obtain ⟨other, others, rfl, kind, same⟩ := List.map_eq_cons_iff.mp same
      have first : PlacedStage.output .decode text (other, place') = .ok between := by
        rw [PlacedStage.output, read other (invertible' other List.mem_cons_self) kind]
        rfl
      rw [List.zipIdx_cons, List.foldlM_cons, first]
      exact decoded others (place' + 1) (fun other h => invertible' other (List.mem_cons_of_mem _ h))
        same

namespace Chain

variable {format : List UInt8 → Inflation}

theorem isInvertible_ofNames {stages : List Stage}
    (invertible : ∀ stage ∈ stages, stage.IsInvertible format)
    (usual : ∀ stage ∈ stages, stage.filter.kind? = some .flate → FlateConfig.IsServed format {}) :
    (∀ stage ∈ (ofNames (stages.map (·.filter.name)) (stages.map (·.parameters))).stages,
        stage.IsInvertible format)
      ∧ (ofNames (stages.map (·.filter.name)) (stages.map (·.parameters))).stages.map (·.filter.kind?)
        = stages.map (·.filter.kind?) := by
  induction stages with
  | nil => exact ⟨fun _ h => absurd h List.not_mem_nil, rfl⟩
  | cons stage rest ih =>
    obtain ⟨first, kind⟩ :=
      (invertible stage List.mem_cons_self).ofName (usual stage List.mem_cons_self)
    obtain ⟨others, kinds⟩ := ih (fun other h => invertible other (List.mem_cons_of_mem _ h))
      fun other h => usual other (List.mem_cons_of_mem _ h)
    rw [List.map_cons, List.map_cons, ofNames, List.headD_cons, List.tail_cons, List.map_cons,
      List.map_cons, kind, kinds]
    refine ⟨?_, rfl⟩
    intro other h
    rcases List.mem_cons.mp h with rfl | h
    · exact first
    · exact others other h

/-- What a chain of invertible stages encodes is decoded to the data again: by the chain that the
encoding leaves, and by a fresh chain of the same names and parameters, if the host also serves the
filters that this one is made of. -/
theorem decode_encode {chain : Chain} (invertible : ∀ stage ∈ chain.stages, stage.IsInvertible format)
    (data : List UInt8) :
    ∃ encoded, (chain.encode data).2 = .ok encoded
      ∧ ((chain.encode data).1.decode encoded).2 = .ok data
      ∧ ((∀ stage ∈ chain.stages, stage.filter.kind? = some .flate → FlateConfig.IsServed format {}) →
        ((ofNames (chain.stages.map (·.filter.name)) (chain.stages.map (·.parameters))).decode
          encoded).2 = .ok data) := by
  obtain ⟨encoded, written, read⟩ := exists_encoded_all invertible 0 data
  refine ⟨encoded, ?_, ?_, fun usual => ?_⟩
  · rw [encode_eq_foldlM, written]
  · have same : ((chain.encode data).1.decode encoded).2 = (chain.decode encoded).2 :=
      run_foldl_after chain [.encode data] .decode encoded
    rw [same, decode_eq_foldlM, read _ 0 invertible rfl]
  · obtain ⟨invertible', kinds⟩ := isInvertible_ofNames invertible usual
    rw [decode_eq_foldlM, read _ 0 invertible' kinds]

end Chain

end

/-- The library serves filters with a buffer that is not empty and fits into memory. -/
theorem FlateConfig.isServed_builtIn {config : FlateConfig} (pos : 0 < config.bufferSize)
    (fits : config.bufferSize ≤ maxBlock) : config.IsServed Inflate.inflation where
  hasRoom := if_pos (decide_eq_true (by rwa [Nat.zero_add]))
  compresses := Host.compresses_builtIn pos config.level
  restores := Host.restores_builtIn config.level
  inflates := Host.inflates_builtIn pos

/-- Three stages, with a predictor that is none on the last one. -/
theorem Chain.decode_encode_three :
    let chain : Chain := ⟨[⟨.hex .idle, none⟩, ⟨.base85 .idle, some ⟨[("Predictor", 12)]⟩⟩,
      ⟨.flate (.idle {}), some ⟨[("Predictor", 1)]⟩⟩]⟩
    (∀ stage ∈ chain.stages, stage.IsInvertible Inflate.inflation)
      ∧ FlateConfig.IsServed Inflate.inflation {}
      ∧ ∃ encoded, (chain.encode [0, 0, 0, 0, 7]).2 = .ok encoded
        ∧ ((chain.encode [0, 0, 0, 0, 7]).1.decode encoded).2 = .ok [0, 0, 0, 0, 7]
        ∧ ((ofNames (chain.stages.map (·.filter.name)) (chain.stages.map (·.parameters))).decode
            encoded).2 = .ok [0, 0, 0, 0, 7] := by
  intro chain
  have served : FlateConfig.IsServed Inflate.inflation {} :=
    FlateConfig.isServed_builtIn (by decide) (by decide)
  have plain : ∀ predictor, (some (Parameters.mk [("Predictor", 1)])).bind (·.get? "Predictor")
      = some predictor → predictor ≤ 1 := by
    intro predictor entry
    have listed : (some (Parameters.mk [("Predictor", 1)])).bind (·.get? "Predictor") = some 1 := by
      decide +kernel
    rw [listed] at entry
    exact Int.le_of_eq (Option.some.inj entry).symm
  have invertible : ∀ stage ∈ chain.stages, stage.IsInvertible Inflate.inflation := by
    intro stage h
    rcases List.mem_cons.mp h with rfl | h
    · exact .hex .idle none
    · rcases List.mem_cons.mp h with rfl | h
      · exact .base85 .idle _
      · rw [List.mem_singleton.mp h]
        exact .flate (.idle {}) served plain
  obtain ⟨encoded, written, read, fresh⟩ := decode_encode invertible [0, 0, 0, 0, 7]
  exact ⟨invertible, served, encoded, written, read, fresh fun _ _ _ => served⟩

end PdfFilters

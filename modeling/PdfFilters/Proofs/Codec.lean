import PdfFilters.Filter
import PdfFilters.Proofs.EngineLaws
import PdfFilters.Proofs.Lzw.Decoding
import PdfFilters.Proofs.Scan
import PdfFilters.Proofs.Stored

/-!
# Filters in a session as codecs

In an open session a filter is one of a few codecs. A `Codec` is what such a filter looks like to its
session: its states, what a block emits, and what the end emits. Every filter that can begin in a
direction is one (`begin_cases`).

Blocks can be cut anywhere (`Codec.TakesCuts`), unless an engine is at work: inflating takes cuts if the
engine inflates a format, and of compressing nothing is known (`Filter.TakesCuts`).
-/

namespace PdfFilters

section

variable [Host]

/-- A codec that a filter is in a session of this direction. -/
structure Codec (direction : Direction) where
  State : Type
  /-- The filter in this state. -/
  filter : State → Filter
  /-- What a block emits. -/
  take : State → List UInt8 → Emission State
  /-- What the end emits. -/
  close : State → Emission Filter
  /-- The states that occur. -/
  occurs : State → Prop
  occurs_of_ok {state next : State} {block : List UInt8} :
    occurs state → (take state block).result = .ok next → occurs next
  emits_block : ∀ {state}, occurs state → ∀ block,
    Emits (fun sink => ((filter state).block direction block sink).outcome)
      ((take state block).map filter)
  emits_finish : ∀ {state}, occurs state →
    Emits (fun sink => ((filter state).finish direction sink).outcome) (close state)

/-- From this state on, the stream of a codec may be cut into blocks anywhere. If it is exact, the cuts do
not even show before a fault. -/
inductive Codec.TakesCuts {direction : Direction} (codec : Codec direction) (exact : Prop)
    (state : codec.State) : Prop
  | intro {occurs : codec.State → Prop} {similar : codec.State → codec.State → Prop}
      (now : occurs state) (cuttable : Cuttable codec.take occurs similar exact)
      (alike : ∀ {a b}, similar a b → Emission.Alike Eq exact (codec.close a) (codec.close b))

namespace Codec.TakesCuts

variable {direction : Direction} {codec : Codec direction} {exact : Prop} {state : codec.State}

/-- A stream that is taken block by block, and its end, are alike to the stream taken whole. -/
theorem emitAll_flatten (cuts : codec.TakesCuts exact state) (blocks : List (List UInt8)) :
    Emission.Alike Eq exact ((emitAll codec.take state blocks).andThen codec.close)
      ((codec.take state blocks.flatten).andThen codec.close) := by
  obtain ⟨now, cuttable, alike⟩ := cuts
  exact (cuttable.emitAll_flatten now blocks).andThen alike

theorem weaken {fewer : Prop} (cuts : codec.TakesCuts exact state) (fewer_imp : fewer → exact) :
    codec.TakesCuts fewer state := by
  obtain ⟨now, cuttable, alike⟩ := cuts
  exact .intro now (cuttable.weaken fewer_imp) fun similar => (alike similar).weaken fewer_imp

/-- Where the codec takes a block, it takes any part that the block begins with. -/
theorem exists_take_of_append (cuts : codec.TakesCuts exact state) {next : codec.State}
    {first second bytes : List UInt8} (taken : codec.take state (first ++ second) = ⟨bytes, .ok next⟩) :
    ∃ early middle, codec.take state first = ⟨early, .ok middle⟩ ∧ early <+: bytes := by
  obtain ⟨now, cuttable, -⟩ := cuts
  exact cuttable.exists_take_of_append now taken

end Codec.TakesCuts

end

/-- A call that puts its state into something larger. -/
theorem Emits.embed {σ τ : Type} {call : Sink → Reply σ} {emission : Emission σ}
    (h : Emits (fun sink => (call sink).outcome) emission) (into : σ → τ) :
    Emits (fun sink => Reply.outcome ⟨into (call sink).state, (call sink).sink, (call sink).result⟩)
      (emission.map into) := by
  intro sink
  rw [← h.map into sink]
  dsimp only
  obtain ⟨state, left, result⟩ := call sink
  cases result <;> rfl

/-- A call that writes into rows and leaves its sink alone. -/
theorem Emits.collected {σ : Type} {call : Sink → Sink × Except Fault σ} {emission : Emission σ}
    (h : Emits call emission) (rows : RowStore) :
    (call .unlimited).2.map (fun next => (next, rows.add (call .unlimited).1.accepted))
      = emission.result.map fun next => (next, rows.add emission.bytes.toArray) := by
  rw [h .unlimited, Sink.unlimited_eq_endless, Sink.absorb_endless]
  simp [Sink.endless, RowStore.add]

/-- A write that ends a session. -/
theorem Emits.lastWrite {σ : Type} (bytes : List UInt8) (ended failed : σ) :
    Emits
      (fun sink =>
        Reply.outcome <| match sink.write bytes with
          | (sink, .ok ()) => ⟨ended, sink, .ok ()⟩
          | (sink, .error fault) => ⟨failed, sink, .error fault⟩)
      ⟨bytes, .ok ended⟩ := by
  intro sink
  rw [Sink.absorb]
  dsimp only
  rcases sink.write bytes with ⟨left, fault | taken⟩
  · rfl
  · rfl

/-- Equal states end alike. -/
theorem alike_of_eq {σ τ : Type} {exact : Prop} (close : σ → Emission τ) {a b : σ} (same : a = b) :
    Emission.Alike Eq exact (close a) (close b) := by
  subst same
  exact .refl (fun _ => rfl) _

/-- What the end of hexadecimal text emits. -/
def Hex.ending (reader : Hex) : Emission Hex :=
  match reader.high with
  | none => .quiet (.ok idle)
  | some high => ⟨[high * 16], .ok idle⟩

theorem Hex.emits_endDecode (reader : Hex) :
    Emits (fun sink => (reader.endDecode sink).outcome) reader.ending := by
  intro sink
  dsimp only
  rw [endDecode, ending]
  cases reader.high with
  | none => exact (sink.absorb_quiet _).symm
  | some high => exact Emits.lastWrite _ _ _ sink

theorem Hex.emits_encodeBlock (writer : Hex) (block : List UInt8) :
    Emits (fun sink => (writer.encodeBlock block sink).outcome)
      ⟨block.flatMap encodeByte, .ok writer⟩ :=
  fun sink => Reply.outcome_write writer sink _

/-- What the end of base-85 text emits. -/
def Base85.ending (reader : Base85) : Emission Base85 :=
  if reader.halfEnded then .quiet (.error (reader.fault .openEndMark))
  else if reader.count ≤ 1 then .quiet (.ok idle)
  else
    match reader.bytes? reader.paddedGroup with
    | .error fault => .quiet (.error fault)
    | .ok last => ⟨last.take (reader.count - 1), .ok idle⟩

theorem Base85.emits_endDecode (reader : Base85) :
    Emits (fun sink => (reader.endDecode sink).outcome) reader.ending := by
  intro sink
  dsimp only
  rw [endDecode, ending]
  split
  · exact (sink.absorb_quiet _).symm
  · split
    · exact (sink.absorb_quiet _).symm
    · cases reader.bytes? reader.paddedGroup with
      | error fault => exact (sink.absorb_quiet _).symm
      | ok last => exact Emits.lastWrite _ _ _ sink

/-- What the end of writing base-85 text emits. -/
def Base85.closingText (writer : Base85) : Emission Base85 :=
  ⟨(if writer.count = 0 then [] else groupText writer.group writer.count) ++ [tilde, closing],
    .ok idle⟩

theorem Base85.emits_endEncode (writer : Base85) :
    Emits (fun sink => (writer.endEncode sink).outcome) writer.closingText := by
  intro sink
  exact Emits.lastWrite _ _ _ sink

/-- Writing base-85 text never fails. -/
theorem total_scanned_encodeStep (writer : Base85) (block : List UInt8) :
    ∃ next, (scanned Base85.encodeStep writer block).result = .ok next := by
  refine exists_scanned_of_total (fun writer byte => ?_) writer block
  simp only [Base85.encodeStep]
  split
  · exact ⟨_, _, rfl⟩
  · exact ⟨_, _, rfl⟩

/-- A session for variable-width codes starts with a decoder for one of the spaces in use. -/
theorem exists_openSession {parameters : Option Parameters} {session : LzwSession}
    (opened : Lzw.openSession parameters = .ok session) :
    ∃ space rows, space.IsNarrow ∧ session = ⟨.start space, rows⟩ := by
  obtain ⟨space, asked, opened⟩ := exists_of_bind_ok opened
  have narrow := CodeSpace.isNarrow_of_ofPrediction asked
  dsimp only at opened
  split at opened
  · obtain ⟨rows, _, opened⟩ := exists_of_bind_ok opened
    cases opened
    exact ⟨space, rows, narrow, rfl⟩
  · cases opened
    exact ⟨space, none, narrow, rfl⟩

section

variable [Host]

namespace Codec

/-- A codec that goes byte by byte. -/
def ofScan {σ : Type} {direction : Direction} (toFilter : σ → Filter)
    (step : σ → UInt8 → σ × Except Fault (List UInt8)) (close : σ → Emission Filter)
    (block_eq : ∀ state block sink, (toFilter state).block direction block sink
      = Filter.reply toFilter (scanBlock step state block sink))
    (emits_finish : ∀ state,
      Emits (fun sink => ((toFilter state).finish direction sink).outcome) (close state)) :
    Codec direction where
  State := σ
  filter := toFilter
  take := scanned step
  close := close
  occurs _ := True
  occurs_of_ok _ _ := trivial
  emits_block _ block := by
    simp only [block_eq]
    exact (emits_scanBlock _ block).embed toFilter
  emits_finish _ := emits_finish _

def hexReading : Codec .decode :=
  ofScan .hex Hex.step (fun reader => reader.ending.map .hex) (fun _ _ _ => rfl)
    fun reader => reader.emits_endDecode.embed Filter.hex

def base85Reading : Codec .decode :=
  ofScan .base85 Base85.step (fun reader => reader.ending.map .base85) (fun _ _ _ => rfl)
    fun reader => reader.emits_endDecode.embed Filter.base85

def runReading : Codec .decode :=
  ofScan .runLength RunLength.step (fun _ => .quiet (.ok (.runLength .idle))) (fun _ _ _ => rfl)
    fun _ => Emits.quiet (.ok (Filter.runLength .idle))

def base85Writing : Codec .encode :=
  ofScan .base85 Base85.encodeStep (fun writer => writer.closingText.map .base85) (fun _ _ _ => rfl)
    fun writer => writer.emits_endEncode.embed Filter.base85

/-- A codec that does nothing but to put out something for each byte. -/
def hexWriting : Codec .encode where
  State := Hex
  filter := .hex
  take writer block := ⟨block.flatMap Hex.encodeByte, .ok writer⟩
  close _ := .quiet (.ok (.hex .idle))
  occurs _ := True
  occurs_of_ok _ _ := trivial
  emits_block _ block := (Hex.emits_encodeBlock _ block).embed Filter.hex
  emits_finish _ := Emits.quiet (.ok (Filter.hex .idle))

def lzwReading : Codec .decode where
  State := LzwDecoder
  filter decoder := .lzw ⟨some ⟨decoder, none⟩⟩
  take := LzwDecoder.decoded
  close _ := .quiet (.ok (.lzw .idle))
  occurs := LzwDecoder.IsSound
  occurs_of_ok := LzwDecoder.cuttable_decoded.occurs_of_ok
  emits_block sound block :=
    (LzwDecoder.emits_decoded sound block).embed fun decoder => Filter.lzw ⟨some ⟨decoder, none⟩⟩
  emits_finish _ := Emits.quiet (.ok (Filter.lzw .idle))

/-- What the end of a session with rows emits. -/
theorem emits_restored (rows : RowStore) (idle : Filter) :
    Emits (fun sink => Reply.outcome ⟨idle, (rows.finish sink).1, (rows.finish sink).2⟩)
      (rows.restored.map fun _ => idle) :=
  rows.emits_finish.map fun _ => idle

def lzwStoring : Codec .decode where
  State := LzwDecoder × RowStore
  filter state := .lzw ⟨some ⟨state.1, some state.2⟩⟩
  take := stored LzwDecoder.decoded
  close state := state.2.restored.map fun _ => Filter.lzw .idle
  occurs state := state.1.IsSound
  occurs_of_ok := LzwDecoder.cuttable_decoded.stored.occurs_of_ok
  emits_block {state} sound block := by
    intro sink
    have collected := (LzwDecoder.emits_decoded sound block).collected state.2
    rw [stored, ← collected, Emission.map_quiet, Sink.absorb_quiet]
    simp only [Filter.block, Filter.reply, Lzw.decodeBlock]
    obtain ⟨decoder, outlet, result⟩ := state.1.feed block .unlimited
    cases result <;> rfl
  emits_finish {state} _ := emits_restored state.2 (.lzw .idle)

def flateReading (config : FlateConfig) : Codec .decode where
  State := Host.Inflater × Bool
  filter state := .flate ⟨config, .decoding state.1 none state.2⟩
  take := inflated config.bufferSize
  close _ := .quiet (.ok (.flate (.idle config)))
  occurs _ := True
  occurs_of_ok _ _ := trivial
  emits_block {state} _ block := by
    intro sink
    obtain ⟨engine, finished⟩ := state
    -- After the end of the stream the filter does not call the engine.
    cases finished with
    | true => exact (sink.absorb_quiet _).symm
    | false =>
      have emits := (emits_decompressBlock config engine block).map fun answer =>
        Filter.flate ⟨config, .decoding answer.1 none answer.2⟩
      refine Eq.trans ?_ (emits sink)
      simp only [Filter.block, Filter.reply, Flate.decodeBlock]
      obtain ⟨left, result⟩ := decompressBlock config engine block sink
      cases result <;> rfl
  emits_finish _ := Emits.quiet (.ok (Filter.flate (.idle config)))

def flateStoring (config : FlateConfig) : Codec .decode where
  State := (Host.Inflater × Bool) × RowStore
  filter state := .flate ⟨config, .decoding state.1.1 (some state.2) state.1.2⟩
  take := stored (inflated config.bufferSize)
  close state := state.2.restored.map fun _ => Filter.flate (.idle config)
  occurs _ := True
  occurs_of_ok _ _ := trivial
  emits_block {state} _ block := by
    intro sink
    obtain ⟨⟨engine, finished⟩, rows⟩ := state
    rw [stored, Emission.map_quiet, Sink.absorb_quiet]
    cases finished with
    | true =>
      exact congrArg
        (fun rows => (sink, Except.ok (Filter.flate ⟨config, .decoding engine (some rows) true⟩)))
        (RowStore.add_empty rows).symm
    | false =>
      have collected := congrArg (Except.map fun answer : (Host.Inflater × Bool) × RowStore =>
          Filter.flate ⟨config, .decoding answer.1.1 (some answer.2) answer.1.2⟩)
        ((emits_decompressBlock config engine block).collected rows)
      refine Eq.trans (b := (sink, _)) ?_ (congrArg (Prod.mk sink) collected)
      simp only [Filter.block, Filter.reply, Flate.decodeBlock]
      obtain ⟨outlet, result⟩ := decompressBlock config engine block .unlimited
      cases result <;> rfl
  emits_finish {state} _ := emits_restored state.2 (.flate (.idle config))

def flateWriting (config : FlateConfig) : Codec .encode where
  State := Host.Deflater
  filter engine := .flate ⟨config, .encoding engine⟩
  take := deflated config.bufferSize
  close engine := (drained config.bufferSize engine).map fun _ => .flate (.idle config)
  occurs _ := True
  occurs_of_ok _ _ := trivial
  emits_block {engine} _ block := by
    intro sink
    have emits := (emits_compressBlock config engine block).map fun next =>
      Filter.flate ⟨config, .encoding next⟩
    refine Eq.trans ?_ (emits sink)
    simp only [Filter.block, Filter.reply, Flate.encodeBlock]
    obtain ⟨left, result⟩ := compressBlock config engine block sink
    cases result <;> rfl
  emits_finish {engine} _ :=
    (emits_finishCompress config engine).map fun _ => Filter.flate (.idle config)

end Codec

/-! ## Cuts -/

namespace Codec

theorem takesCuts_hexReading (reader : Hex) : hexReading.TakesCuts False reader :=
  .intro trivial (cuttable_scanned Hex.step) (alike_of_eq hexReading.close)

theorem takesCuts_base85Reading (reader : Base85) : base85Reading.TakesCuts False reader :=
  .intro trivial (cuttable_scanned Base85.step) (alike_of_eq base85Reading.close)

theorem takesCuts_runReading (reader : RunLength) : runReading.TakesCuts False reader :=
  .intro trivial (cuttable_scanned RunLength.step) (alike_of_eq runReading.close)

theorem takesCuts_base85Writing (writer : Base85) : base85Writing.TakesCuts True writer :=
  .intro trivial ((cuttable_scanned _).exact_of_total total_scanned_encodeStep)
    (alike_of_eq base85Writing.close)

theorem takesCuts_hexWriting (writer : Hex) : hexWriting.TakesCuts True writer := by
  have cuttable : Cuttable hexWriting.take (fun _ => True) Eq True := by
    refine ⟨fun _ _ => trivial, fun _ _ _ => Eq.trans, fun _ => .ok rfl, ?_⟩
    intro state first second _
    simp only [hexWriting, List.flatMap_append]
    exact .ok rfl
  exact .intro trivial cuttable (alike_of_eq hexWriting.close)

theorem takesCuts_lzwReading {decoder : LzwDecoder} (sound : decoder.IsSound) :
    lzwReading.TakesCuts True decoder :=
  .intro sound LzwDecoder.cuttable_decoded fun _ => .ok rfl

theorem takesCuts_lzwStoring {decoder : LzwDecoder} (sound : decoder.IsSound) (rows : RowStore) :
    lzwStoring.TakesCuts True (decoder, rows) :=
  .intro (by exact sound) LzwDecoder.cuttable_decoded.stored fun similar =>
    alike_of_eq (fun rows : RowStore => rows.restored.map _) similar.2

variable {format : List UInt8 → Inflation} {config : FlateConfig}
  (inflates : Host.Inflates format config.bufferSize)

include inflates

theorem takesCuts_flateReading : (flateReading config).TakesCuts False (Host.newInflater, false) :=
  .intro ⟨[], [], inflates.reached_nil⟩ inflates.cuttable fun _ => .ok rfl

theorem takesCuts_flateStoring (rows : RowStore) :
    (flateStoring config).TakesCuts True ((Host.newInflater, false), rows) :=
  .intro (by exact ⟨[], [], inflates.reached_nil⟩) inflates.cuttable.stored fun similar =>
    alike_of_eq (fun rows : RowStore => rows.restored.map _) similar.2

end Codec

/-- Data for the filter may be cut into blocks anywhere. With an engine at work this is known only of
inflating, if the engine inflates a format with the room that it has. -/
def Filter.TakesCuts (filter : Filter) (direction : Direction) : Prop :=
  match filter, direction with
  | .flate state, .decode => ∃ format, Host.Inflates format state.config.bufferSize
  | .flate _, .encode => False
  | _, _ => True

/-- A session for compressed data starts with a new engine. -/
theorem exists_openDecode {config : FlateConfig} {parameters : Option Parameters}
    {session : FlateSession} (opened : Flate.openDecode config parameters = .ok session) :
    ∃ rows, session = .decoding Host.newInflater rows false := by
  rw [Flate.openDecode] at opened
  dsimp only at opened
  split at opened
  · obtain ⟨rows, _, opened⟩ := exists_of_bind_ok opened
    obtain ⟨_, _, opened⟩ := exists_of_bind_ok opened
    cases opened
    exact ⟨rows, rfl⟩
  · obtain ⟨rows, _, opened⟩ := exists_of_bind_ok opened
    obtain ⟨_, _, opened⟩ := exists_of_bind_ok opened
    cases opened
    exact ⟨rows, rfl⟩

theorem Flate.openDecode_of_inactive (config : FlateConfig) {parameters : Option Parameters}
    (inactive : (Prediction.ofParameters parameters).isActive = false) :
    openDecode config parameters = (do
      reserve 0 config.bufferSize
      return .decoding Host.newInflater none false) := by
  simp only [openDecode, inactive]
  rfl

/-- With memory for its buffer and without a predictor, the filter begins to inflate. -/
theorem Filter.begin_decode_flate {config : FlateConfig} (session : FlateSession)
    {parameters : Option Parameters} (plain : (Prediction.ofParameters parameters).isActive = false)
    (room : reserve 0 config.bufferSize = .ok ()) :
    (flate ⟨config, session⟩).begin .decode parameters
      = ((Codec.flateReading config).filter (Host.newInflater, false), .ok ()) := by
  simp only [begin, Flate.beginDecode, Flate.openDecode_of_inactive config plain, room]
  rfl

/-- A filter that begins is a codec in a session, and takes cuts if that is known of the filter. In
writing, and in decoding variable-width codes, they do not show at all. -/
theorem begin_cases (filter : Filter) (direction : Direction) (parameters : Option Parameters) :
    (∃ left fault, filter.begin direction parameters = (left, .error fault)) ∨
      ∃ (codec : Codec direction) (state : codec.State),
        codec.occurs state ∧ filter.begin direction parameters = (codec.filter state, .ok ())
          ∧ (filter.TakesCuts direction →
            codec.TakesCuts (direction = .encode ∨ ∃ lzw, filter = .lzw lzw) state) := by
  cases filter with
  | hex state =>
    right
    cases direction with
    | decode =>
      exact ⟨.hexReading, .idle, trivial, rfl, fun _ => (Codec.takesCuts_hexReading _).weaken (by simp)⟩
    | encode =>
      exact ⟨.hexWriting, .idle, trivial, rfl,
        fun _ => (Codec.takesCuts_hexWriting _).weaken fun _ => trivial⟩
  | base85 state =>
    right
    cases direction with
    | decode =>
      exact ⟨.base85Reading, .idle, trivial, rfl,
        fun _ => (Codec.takesCuts_base85Reading _).weaken (by simp)⟩
    | encode =>
      exact ⟨.base85Writing, .idle, trivial, rfl,
        fun _ => (Codec.takesCuts_base85Writing _).weaken fun _ => trivial⟩
  | runLength state =>
    cases direction with
    | decode =>
      exact .inr ⟨.runReading, .idle, trivial, rfl,
        fun _ => (Codec.takesCuts_runReading _).weaken (by simp)⟩
    | encode => exact .inl ⟨_, _, rfl⟩
  -- A filter that does not exist begins nothing, whatever it is called.
  | absent name kind =>
    left
    cases direction <;> exact ⟨_, _, rfl⟩
  | lzw state =>
    cases direction with
    | encode => exact .inl ⟨_, _, rfl⟩
    | decode =>
      cases opened : Lzw.openSession parameters with
      | error fault =>
        left
        simp only [Filter.begin, Lzw.beginDecode, opened]
        exact ⟨_, _, rfl⟩
      | ok session =>
        right
        obtain ⟨space, rows, narrow, rfl⟩ := exists_openSession opened
        have sound := LzwDecoder.isSound_start narrow
        simp only [Filter.begin, Lzw.beginDecode, opened]
        cases rows with
        | none =>
          exact ⟨.lzwReading, .start space, sound, rfl,
            fun _ => (Codec.takesCuts_lzwReading sound).weaken fun _ => trivial⟩
        | some rows =>
          exact ⟨.lzwStoring, (.start space, rows), sound, rfl,
            fun _ => (Codec.takesCuts_lzwStoring sound rows).weaken fun _ => trivial⟩
  | flate state =>
    obtain ⟨config, session⟩ := state
    cases direction with
    | encode =>
      simp only [Filter.begin, Flate.beginEncode]
      split
      · exact .inr ⟨.flateWriting config, Host.newDeflater config.level, trivial, rfl, False.elim⟩
      · exact .inl ⟨_, _, rfl⟩
    | decode =>
      cases opened : Flate.openDecode config parameters with
      | error fault =>
        left
        simp only [Filter.begin, Flate.beginDecode, opened]
        exact ⟨_, _, rfl⟩
      | ok session =>
        right
        obtain ⟨rows, rfl⟩ := exists_openDecode opened
        simp only [Filter.begin, Flate.beginDecode, opened]
        cases rows with
        | none =>
          refine ⟨.flateReading config, (Host.newInflater, false), trivial, rfl, ?_⟩
          rintro ⟨format, inflates⟩
          exact (Codec.takesCuts_flateReading inflates).weaken (by simp)
        | some rows =>
          refine ⟨.flateStoring config, ((Host.newInflater, false), rows), trivial, rfl, ?_⟩
          rintro ⟨format, inflates⟩
          exact (Codec.takesCuts_flateStoring inflates rows).weaken fun _ => trivial

end

end PdfFilters

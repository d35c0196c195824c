import PdfFilters.Filter
import PdfFilters.Proofs.Lzw.Decoding

/-!
# Calls that are served

A call may fail for its data, for its parameters, for its sink, for want of memory, or for coming out
of turn. None of this says that there is no codec, and a caller must not take it for that: a call is
`Served` if it does not fail for want of a codec.

Everything that a codec calls is served, in all its states and whatever it is called with, and so are
the calls of every filter in a direction that it supports (`Filter.served_begin`,
`Filter.served_block`, `Filter.served_finish`). A sink may carry any fault of its own, but only a
shortage of memory is passed on as such (`WriteFailure.isUnsupported_fault`).
-/

namespace PdfFilters

variable {α β σ : Type}

/-- The call does not fail for want of a codec. -/
def Served : Except Fault α → Prop
  | .ok _ => True
  | .error fault => fault.isUnsupported = false

namespace Served

/-- A call that is served has a fault of another kind, if any. -/
theorem isUnsupported_eq {result : Except Fault α} {fault : Fault} (served : Served result)
    (failed : result = .error fault) : fault.isUnsupported = false := by
  rw [failed] at served
  exact served

theorem map {result : Except Fault α} (served : Served result) (change : α → β) :
    Served (result.map change) := by
  cases result with
  | ok value => trivial
  | error fault => exact served

theorem bind {first : Except Fault α} {next : α → Except Fault β} (served : Served first)
    (onward : ∀ value, Served (next value)) : Served (first >>= next) := by
  cases first with
  | ok value => exact onward value
  | error fault => exact served

end Served

/-- A sink cannot make a caller believe that there is no codec. -/
theorem WriteFailure.isUnsupported_fault (failure : WriteFailure) :
    failure.fault.isUnsupported = false := by
  unfold fault
  split <;> rfl

theorem Sink.served_write (sink : Sink) (bytes : List UInt8) : Served (sink.write bytes).2 := by
  obtain ⟨accepted, room, failure⟩ := sink
  unfold write
  cases room with
  | none => trivial
  | some room =>
    dsimp only
    split
    · trivial
    · exact failure.isUnsupported_fault

/-- The fault of a sink that refuses. -/
theorem Sink.isUnsupported_of_write {sink left : Sink} {bytes : List UInt8} {fault : Fault}
    (refused : sink.write bytes = (left, .error fault)) : fault.isUnsupported = false :=
  (sink.served_write bytes).isUnsupported_eq (congrArg Prod.snd refused)

theorem served_reserve [Host] (held additional : Nat) : Served (reserve held additional) := by
  unfold reserve
  split
  · trivial
  · rfl

/-! ### Rows -/

theorem Prediction.served_layout (prediction : Prediction) : Served prediction.layout := by
  unfold layout
  dsimp only
  split
  · split
    · split
      · split
        · trivial
        · rfl
      · rfl
    · rfl
  · rfl

theorem served_undoTaggedFrom (layout : Layout) (above restored : Array UInt8) (data : List UInt8) :
    Served (undoTaggedFrom layout above restored data) := by
  fun_induction undoTaggedFrom layout above restored data with
  | case1 => trivial
  | case2 => rfl
  | case3 _ _ _ _ _ _ _ ih => exact ih

theorem Prediction.served_undo (prediction : Prediction) (data : List UInt8) :
    Served (prediction.undo data) := by
  unfold undo
  split
  · trivial
  · split
    · exact prediction.served_layout.bind fun _ => trivial
    · split
      · exact prediction.served_layout.bind fun layout =>
          (served_undoTaggedFrom layout #[] #[] data).map _
      · rfl

namespace RowStore

theorem served_start (prediction : Prediction) : Served (start prediction) := by
  unfold start
  split
  · exact prediction.served_layout.map _
  · rfl

theorem served_finish (store : RowStore) (sink : Sink) : Served (store.finish sink).2 := by
  unfold finish
  split
  next rows _ => exact sink.served_write rows
  next failed => exact (store.prediction.served_undo _).isUnsupported_eq failed

end RowStore

/-! ### Text and runs -/

/-- A scan fails as one of its steps does. -/
theorem served_scan {step : σ → UInt8 → σ × Except Fault (List UInt8)}
    (served : ∀ state byte, Served (step state byte).2) (state : σ) (output : Array UInt8)
    (bytes : List UInt8) : Served (scan step state output bytes).2.2 := by
  induction bytes generalizing state output with
  | nil => trivial
  | cons byte rest ih =>
    unfold scan
    have here := served state byte
    rcases stepped : step state byte with ⟨next, fault | produced⟩
    · rw [stepped] at here
      exact here
    · exact ih next (output ++ produced)

theorem served_scanBlock {step : σ → UInt8 → σ × Except Fault (List UInt8)}
    (served : ∀ state byte, Served (step state byte).2) (state : σ) (block : List UInt8)
    (sink : Sink) : Served (scanBlock step state block sink).result := by
  have all := served_scan served state #[] block
  unfold scanBlock
  rcases scanned : scan step state #[] block with ⟨next, output, fault | done⟩
  · rw [scanned] at all
    exact all
  · exact sink.served_write output.toList

namespace Hex

theorem served_step (reader : Hex) (byte : UInt8) : Served (reader.step byte).2 := by
  unfold step
  split
  · trivial
  · split
    · trivial
    · dsimp only
      split
      · trivial
      · split
        · rfl
        · trivial
        · trivial

theorem served_endDecode (reader : Hex) (sink : Sink) : Served (reader.endDecode sink).result := by
  unfold endDecode
  split
  · trivial
  next high _ =>
    split
    · trivial
    next refused => exact Sink.isUnsupported_of_write refused

end Hex

namespace Base85

theorem served_bytes? (reader : Base85) (value : Nat) : Served (reader.bytes? value) := by
  unfold bytes?
  split
  · trivial
  · rfl

theorem served_readDigit (reader : Base85) (digit : Nat) : Served (reader.readDigit digit).2 := by
  unfold readDigit
  dsimp only
  split
  · split
    · trivial
    next failed => exact (reader.served_bytes? _).isUnsupported_eq failed
  · trivial

theorem served_step (reader : Base85) (byte : UInt8) : Served (reader.step byte).2 := by
  unfold step
  dsimp only
  split
  · trivial
  · split
    · split
      · trivial
      · rfl
    · split
      · exact reader.served_readDigit _
      · split
        · split
          · trivial
          · rfl
        · split
          · trivial
          · split
            · trivial
            · rfl

theorem served_encodeStep (writer : Base85) (byte : UInt8) : Served (writer.encodeStep byte).2 := by
  unfold encodeStep
  dsimp only
  split <;> trivial

theorem served_endDecode (reader : Base85) (sink : Sink) :
    Served (reader.endDecode sink).result := by
  unfold endDecode
  split
  · rfl
  · split
    · trivial
    · split
      next failed => exact (reader.served_bytes? _).isUnsupported_eq failed
      next last _ =>
        split
        · trivial
        next refused => exact Sink.isUnsupported_of_write refused

theorem served_endEncode (writer : Base85) (sink : Sink) :
    Served (writer.endEncode sink).result := by
  unfold endEncode
  dsimp only
  split
  · trivial
  next refused => exact Sink.isUnsupported_of_write refused

end Base85

theorem RunLength.served_step (reader : RunLength) (byte : UInt8) :
    Served (reader.step byte).2 := by
  unfold step
  cases reader <;> trivial

/-! ### Codes of variable width -/

theorem CodeSpace.served_ofPrediction (prediction : Prediction) :
    Served (ofPrediction prediction) := by
  unfold ofPrediction
  split
  · trivial
  · split
    · trivial
    · rfl

namespace Book

theorem served_entry (book : Book) (bits code : Nat) : Served (book.entry bits code) := by
  unfold entry
  split
  · trivial
  · rfl

theorem served_string (book : Book) (bits code : Nat) : Served (book.string bits code) := by
  unfold Book.string
  split
  · trivial
  next previous _ _ => exact (book.served_entry bits previous).bind fun _ => trivial
  · rfl

theorem served_addition? (space : CodeSpace) (book : Book) (bits : Nat) (string : List UInt8) :
    Served (book.addition? space bits string) := by
  unfold addition?
  split
  · trivial
  next previous _ =>
    split
    · trivial
    · exact (book.served_entry bits previous).bind fun _ => trivial

theorem served_read (space : CodeSpace) (book : Book) (bits code : Nat) (sink : Sink) :
    Served (book.read space bits code sink).result := by
  unfold read
  split
  next failed => exact (book.served_string bits code).isUnsupported_eq failed
  next string _ =>
    split
    next refused => exact Sink.isUnsupported_of_write refused
    · split
      next failed => exact (book.served_addition? space bits string).isUnsupported_eq failed
      · trivial

end Book

namespace LzwDecoder

theorem served_readCodes (space : CodeSpace) (book : Book) (queue : BitQueue)
    (bytes : List UInt8) (sink : Sink) : Served (readCodes space book queue bytes sink).result := by
  rw [readCodes_eq]
  cases took : (queue.load bytes).1.take? book.table.width with
  | none => trivial
  | some taken =>
    obtain ⟨code, left⟩ := taken
    have shorter := BitQueue.load_take?_shortens took book.table.width_pos
    dsimp only
    split
    · exact served_readCodes space _ left _ sink
    · split
      · trivial
      · have served := book.served_read space left.taken code sink
        rcases read : book.read space left.taken code sink with ⟨next, rest, fault | done⟩
        · rw [read] at served
          exact served
        · exact served_readCodes space next left _ rest
  termination_by queue.count + 8 * bytes.length
  decreasing_by all_goals assumption

theorem served_feed (decoder : LzwDecoder) (block : List UInt8) (sink : Sink) :
    Served (decoder.feed block sink).result := by
  obtain ⟨space, book, queue, ended⟩ := decoder
  cases ended with
  | true => trivial
  | false => exact served_readCodes space book queue block sink

end LzwDecoder

namespace Lzw

theorem served_openSession (parameters : Option Parameters) : Served (openSession parameters) := by
  unfold openSession
  refine (CodeSpace.served_ofPrediction _).bind fun space => ?_
  dsimp only
  split
  · exact ((RowStore.served_start _).map some).bind fun _ => trivial
  · trivial

theorem served_beginDecode (parameters : Option Parameters) : Served (beginDecode parameters).2 := by
  unfold beginDecode
  split
  · trivial
  next failed => exact (served_openSession parameters).isUnsupported_eq failed

theorem served_decodeBlock (filter : Lzw) (block : List UInt8) (sink : Sink) :
    Served (filter.decodeBlock block sink).result := by
  unfold decodeBlock
  split
  · rfl
  next decoder => exact decoder.served_feed block sink
  next decoder rows => exact decoder.served_feed block .unlimited

theorem served_endDecode (filter : Lzw) (sink : Sink) : Served (filter.endDecode sink).result := by
  unfold endDecode
  split
  · rfl
  · trivial
  next rows => exact rows.served_finish sink

end Lzw

/-! ### Compressed streams -/

variable [Host]

theorem served_compressBlock (config : FlateConfig) (engine : Host.Deflater) (input : List UInt8)
    (sink : Sink) : Served (compressBlock config engine input sink).2 := by
  rw [compressBlock]
  split
  · rfl
  next next progress called =>
    split
    next refused => exact Sink.isUnsupported_of_write refused
    next =>
      dsimp only
      split
      · trivial
      · split
        · rfl
        next moved =>
          have shorter := Host.deflating.appetite_lt called moved
          exact served_compressBlock config next _ _
  termination_by Host.deflating.appetite engine input
  decreasing_by exact shorter

theorem served_finishCompress (config : FlateConfig) (engine : Host.Deflater) (sink : Sink) :
    Served (finishCompress config engine sink).2 := by
  rw [finishCompress]
  split
  · rfl
  next next progress called =>
    split
    next refused => exact Sink.isUnsupported_of_write refused
    next =>
      split
      · trivial
      · split
        · rfl
        next moved =>
          have shorter : Host.deflating.appetite next [] < Host.deflating.appetite engine [] := by
            have less := Host.deflating.appetite_lt called fun both => moved both.2
            rwa [List.drop_nil] at less
          exact served_finishCompress config next _
  termination_by Host.deflating.appetite engine []
  decreasing_by exact shorter

theorem served_decompressBlock (config : FlateConfig) (engine : Host.Inflater) (input : List UInt8)
    (sink : Sink) : Served (decompressBlock config engine input sink).2 := by
  rw [decompressBlock]
  split
  · rfl
  next next progress called =>
    split
    next refused => exact Sink.isUnsupported_of_write refused
    next =>
      dsimp only
      split
      · trivial
      · split
        · trivial
        · split
          · rfl
          next moved =>
            have shorter := Host.inflating.appetite_lt called moved
            exact served_decompressBlock config next _ _
  termination_by Host.inflating.appetite engine input
  decreasing_by exact shorter

namespace Flate

theorem served_beginEncode (filter : Flate) : Served filter.beginEncode.2 := by
  unfold beginEncode
  split
  · trivial
  next failed => exact (served_reserve 0 _).isUnsupported_eq failed

theorem served_encodeBlock (filter : Flate) (block : List UInt8) (sink : Sink) :
    Served (filter.encodeBlock block sink).result := by
  unfold encodeBlock
  split
  next config engine =>
    split
    · trivial
    next failed =>
      exact (served_compressBlock config engine block sink).isUnsupported_eq
        (congrArg Prod.snd failed)
  · rfl

theorem served_endEncode (filter : Flate) (sink : Sink) : Served (filter.endEncode sink).result := by
  unfold endEncode
  split
  next config engine => exact served_finishCompress config engine sink
  · rfl

theorem served_openDecode (config : FlateConfig) (parameters : Option Parameters) :
    Served (openDecode config parameters) := by
  have room := served_reserve 0 config.bufferSize
  unfold openDecode
  dsimp only
  split
  · exact ((RowStore.served_start _).map some).bind fun _ => room.bind fun _ => trivial
  · exact room.bind fun _ => trivial

theorem served_beginDecode (filter : Flate) (parameters : Option Parameters) :
    Served (filter.beginDecode parameters).2 := by
  unfold beginDecode
  split
  · trivial
  next failed => exact (served_openDecode filter.config parameters).isUnsupported_eq failed

theorem served_decodeBlock (filter : Flate) (block : List UInt8) (sink : Sink) :
    Served (filter.decodeBlock block sink).result := by
  unfold decodeBlock
  split
  · trivial
  next config engine =>
    split
    · trivial
    next failed =>
      exact (served_decompressBlock config engine block sink).isUnsupported_eq
        (congrArg Prod.snd failed)
  next config engine rows =>
    split
    · trivial
    next failed =>
      exact (served_decompressBlock config engine block .unlimited).isUnsupported_eq
        (congrArg Prod.snd failed)
  · rfl

theorem served_endDecode (filter : Flate) (sink : Sink) : Served (filter.endDecode sink).result := by
  unfold endDecode
  split
  · trivial
  next rows _ => exact rows.served_finish sink
  · rfl

end Flate

/-! ### All filters -/

namespace Filter

variable {filter : Filter} {direction : Direction} (supported : filter.supports direction = true)

include supported

theorem served_begin (parameters : Option Parameters) :
    Served (filter.begin direction parameters).2 := by
  cases filter with
  | hex state => trivial
  | base85 state => trivial
  | lzw state =>
    cases direction with
    | encode => cases supported
    | decode => exact Lzw.served_beginDecode parameters
  | flate state =>
    cases direction with
    | encode => exact state.served_beginEncode
    | decode => exact state.served_beginDecode parameters
  | runLength state =>
    cases direction with
    | encode => cases supported
    | decode => trivial
  | absent name kind => cases supported

theorem served_block (bytes : List UInt8) (sink : Sink) :
    Served (filter.block direction bytes sink).result := by
  cases filter with
  | hex state =>
    cases direction with
    | encode => exact sink.served_write _
    | decode => exact served_scanBlock Hex.served_step state bytes sink
  | base85 state =>
    cases direction with
    | encode => exact served_scanBlock Base85.served_encodeStep state bytes sink
    | decode => exact served_scanBlock Base85.served_step state bytes sink
  | lzw state =>
    cases direction with
    | encode => cases supported
    | decode => exact state.served_decodeBlock bytes sink
  | flate state =>
    cases direction with
    | encode => exact state.served_encodeBlock bytes sink
    | decode => exact state.served_decodeBlock bytes sink
  | runLength state =>
    cases direction with
    | encode => cases supported
    | decode => exact served_scanBlock RunLength.served_step state bytes sink
  | absent name kind => cases supported

theorem served_finish (sink : Sink) : Served (filter.finish direction sink).result := by
  cases filter with
  | hex state =>
    cases direction with
    | encode => trivial
    | decode => exact state.served_endDecode sink
  | base85 state =>
    cases direction with
    | encode => exact state.served_endEncode sink
    | decode => exact state.served_endDecode sink
  | lzw state =>
    cases direction with
    | encode => cases supported
    | decode => exact state.served_endDecode sink
  | flate state =>
    cases direction with
    | encode => exact state.served_endEncode sink
    | decode => exact state.served_endDecode sink
  | runLength state =>
    cases direction with
    | encode => cases supported
    | decode => trivial
  | absent name kind => cases supported

end Filter

end PdfFilters

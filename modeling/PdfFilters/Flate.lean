import PdfFilters.Host
import PdfFilters.Rows.Undo

/-!
# The filter for compressed streams

`Flate` brackets an engine of its host into sessions, for compressing or for inflating. Output goes
through a buffer of a size that the filter was set up with, so a session can only begin if there is
memory for that buffer, and the sink gets its bytes in pieces of at most that size.

Three loops keep an engine going: they call it, write what it puts out, and call it again with the
rest of the input. `compressBlock` and `decompressBlock` stop when the input is used up and the
buffer was not filled; `finishCompress` stops at the end of the stream, and so does
`decompressBlock`, after which nothing more is looked at. All of them fail when the engine does, and
when a call gets nowhere, as every call does in the end if the buffer is empty. A decode session may
end anywhere; an unfinished stream keeps what has been inflated. Any fault inside a session closes it.

With a predictor nothing is written before the end, where the rows are put back.
-/

namespace PdfFilters

namespace FlateConfig

/-- The level that stores. -/
def storeLevel : Nat := 0

/-- The level that compresses fastest. -/
def fastLevel : Nat := 1

/-- The level of a filter that was not told another. -/
def usualLevel : Nat := 6

/-- The level that compresses best. -/
def bestLevel : Nat := 9

/-- The buffer size of a filter that was not told another. -/
def usualBufferSize : Nat := 16384

end FlateConfig

/-- What a filter is set up with. -/
structure FlateConfig where
  /-- How hard to compress, from 0 (not at all) to 9. -/
  level : Nat := FlateConfig.usualLevel
  /-- The size of the buffer that output goes through. -/
  bufferSize : Nat := FlateConfig.usualBufferSize
  level_le : level ≤ FlateConfig.bestLevel := by decide

namespace FlateConfig

/-- The setting with this level, or with the best one if it is beyond that. -/
def withLevel (config : FlateConfig) (level : Nat) : FlateConfig :=
  { config with level := min level bestLevel, level_le := Nat.min_le_right _ _ }

/-- The setting with this buffer size, which is at least one byte. -/
def withBufferSize (config : FlateConfig) (size : Nat) : FlateConfig :=
  { config with bufferSize := max size 1 }

end FlateConfig

section

variable [Host]

/-- What a filter is in the middle of. -/
inductive FlateSession where
  | idle
  | encoding (engine : Host.Deflater)
  /-- Inflating, into rows if there is a predictor, and whether the stream has ended. -/
  | decoding (engine : Host.Inflater) (rows : Option RowStore) (finished : Bool)

/-- A session as faults name it. -/
def FlateSession.name : FlateSession → String
  | .idle => "idle filter"
  | .encoding _ => "encode session"
  | .decoding _ _ _ => "decode session"

/-- The filter for compressed streams. -/
structure Flate where
  config : FlateConfig := {}
  session : FlateSession := .idle

/-- Compress a block, writing what the engine puts out. -/
def compressBlock (config : FlateConfig) (engine : Host.Deflater) (input : List UInt8) (sink : Sink) :
    Sink × Except Fault Host.Deflater :=
  match called : Host.deflating.call engine .more input config.bufferSize with
  | .error text => (sink, .error (.deflating text))
  | .ok (next, progress) =>
    match sink.write progress.produced with
    | (sink, .error fault) => (sink, .error fault)
    | (sink, .ok ()) =>
      let rest := input.drop progress.consumed
      -- An engine that does not fill the buffer has nothing more to put out.
      if rest = [] ∧ progress.produced.length < config.bufferSize then (sink, .ok next)
      else if stuck : progress.isStuck then (sink, .error (.deflating "compressor made no progress"))
      else
        have := Host.deflating.appetite_lt called stuck
        compressBlock config next rest sink
  termination_by Host.deflating.appetite engine input
  decreasing_by assumption

/-- Finish compressing, writing the rest of the stream. -/
def finishCompress (config : FlateConfig) (engine : Host.Deflater) (sink : Sink) :
    Sink × Except Fault Unit :=
  match called : Host.deflating.call engine .finish [] config.bufferSize with
  | .error text => (sink, .error (.deflating text))
  | .ok (next, progress) =>
    match sink.write progress.produced with
    | (sink, .error fault) => (sink, .error fault)
    | (sink, .ok ()) =>
      if progress.ended then (sink, .ok ())
      else if stuck : progress.produced = [] then
        (sink, .error (.deflating "compressor made no progress"))
      else
        have : Host.deflating.appetite next [] < Host.deflating.appetite engine [] := by
          have shorter := Host.deflating.appetite_lt called fun both => stuck both.2
          rwa [List.drop_nil] at shorter
        finishCompress config next sink
  termination_by Host.deflating.appetite engine []
  decreasing_by assumption

/-- Inflate a block, writing what the engine puts out. Tells whether the stream has ended; what
comes after its end is not looked at. -/
def decompressBlock (config : FlateConfig) (engine : Host.Inflater) (input : List UInt8) (sink : Sink) :
    Sink × Except Fault (Host.Inflater × Bool) :=
  match called : Host.inflating.call engine .more input config.bufferSize with
  | .error text => (sink, .error (.inflating text))
  | .ok (next, progress) =>
    match sink.write progress.produced with
    | (sink, .error fault) => (sink, .error fault)
    | (sink, .ok ()) =>
      let rest := input.drop progress.consumed
      -- What is left of the input after the end of the stream is dropped.
      if progress.ended then (sink, .ok (next, true))
      else if rest = [] ∧ progress.produced.length < config.bufferSize then (sink, .ok (next, false))
      else if stuck : progress.isStuck then (sink, .error (.inflating "decompressor made no progress"))
      else
        have := Host.inflating.appetite_lt called stuck
        decompressBlock config next rest sink
  termination_by Host.inflating.appetite engine input
  decreasing_by assumption

namespace Flate

/-- A filter at rest. -/
def idle (config : FlateConfig) : Flate := { config }

/-- The fault of a call that needs another session than the one there is. -/
def wrongSession (expected : String) (session : FlateSession) : Fault :=
  .wrongState expected session.name

/-- Begin to compress. Without memory for the buffer everything stays as it is. -/
def beginEncode (filter : Flate) : Flate × Except Fault Unit :=
  match reserve 0 filter.config.bufferSize with
  | .ok () => ({ filter with session := .encoding (Host.newDeflater filter.config.level) }, .ok ())
  | .error fault => (filter, .error fault)

/-- Compress a block. -/
def encodeBlock (filter : Flate) (block : List UInt8) (sink : Sink) : Reply Flate :=
  match filter with
  | ⟨config, .encoding engine⟩ =>
    match compressBlock config engine block sink with
    | (sink, .ok engine) => ⟨⟨config, .encoding engine⟩, sink, .ok ()⟩
    | (sink, .error fault) => ⟨idle config, sink, .error fault⟩
  | ⟨config, session⟩ => ⟨⟨config, session⟩, sink, .error (wrongSession "encode session" session)⟩

/-- Finish the stream. -/
def endEncode (filter : Flate) (sink : Sink) : Reply Flate :=
  match filter with
  | ⟨config, .encoding engine⟩ =>
    let (sink, result) := finishCompress config engine sink
    ⟨idle config, sink, result⟩
  | ⟨config, session⟩ => ⟨idle config, sink, .error (wrongSession "encode session" session)⟩

/-- The session that parameters ask for. The predictor is looked at before the buffer. -/
def openDecode (config : FlateConfig) (parameters : Option Parameters) :
    Except Fault FlateSession := do
  let prediction := Prediction.ofParameters parameters
  let rows ← if prediction.isActive then some <$> RowStore.start prediction else pure none
  reserve 0 config.bufferSize
  return .decoding Host.newInflater rows false

/-- Begin to inflate, in place of whatever was there. -/
def beginDecode (filter : Flate) (parameters : Option Parameters) : Flate × Except Fault Unit :=
  match openDecode filter.config parameters with
  | .ok session => ({ filter with session }, .ok ())
  | .error fault => (idle filter.config, .error fault)

/-- Inflate a block, into the row store if there is one. -/
def decodeBlock (filter : Flate) (block : List UInt8) (sink : Sink) : Reply Flate :=
  match filter with
  | ⟨config, .decoding engine rows true⟩ => ⟨⟨config, .decoding engine rows true⟩, sink, .ok ()⟩
  | ⟨config, .decoding engine none false⟩ =>
    match decompressBlock config engine block sink with
    | (sink, .ok (engine, finished)) => ⟨⟨config, .decoding engine none finished⟩, sink, .ok ()⟩
    | (sink, .error fault) => ⟨idle config, sink, .error fault⟩
  | ⟨config, .decoding engine (some rows) false⟩ =>
    match decompressBlock config engine block .unlimited with
    | (outlet, .ok (engine, finished)) =>
      ⟨⟨config, .decoding engine (some (rows.add outlet.accepted)) finished⟩, sink, .ok ()⟩
    | (_, .error fault) => ⟨idle config, sink, .error fault⟩
  | ⟨config, session⟩ => ⟨⟨config, session⟩, sink, .error (wrongSession "decode session" session)⟩

/-- End inflating, wherever the stream is, and put the rows back if there is a predictor. -/
def endDecode (filter : Flate) (sink : Sink) : Reply Flate :=
  match filter with
  | ⟨config, .decoding _ none _⟩ => ⟨idle config, sink, .ok ()⟩
  | ⟨config, .decoding _ (some rows) _⟩ =>
    let (sink, result) := rows.finish sink
    ⟨idle config, sink, result⟩
  | ⟨config, session⟩ => ⟨idle config, sink, .error (wrongSession "decode session" session)⟩

end Flate

end

end PdfFilters

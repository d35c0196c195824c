import PdfFilters.Catalogue
import PdfFilters.Flate
import PdfFilters.Lzw.Codec
import PdfFilters.RunLength
import PdfFilters.Text.Base85
import PdfFilters.Text.Hex

/-!
# One type for all filters

A `Filter` is one of the codecs in its current state, or a stand-in for a filter without a codec.
All of them are driven alike: begin in a direction, hand over blocks, finish, or abort at any time.

A filter that does not support a direction answers every call in it with the same fault and stays
as it is; which filters support what is `Filter.supports`.
-/

namespace PdfFilters

variable [Host]

/-- A filter in some state. -/
inductive Filter where
  | hex (state : Hex)
  | base85 (state : Base85)
  | lzw (state : Lzw)
  | flate (state : Flate)
  | runLength (state : RunLength)
  /-- No codec: a standard filter that is not implemented, or a name that nobody knows. -/
  | absent (name : String) (kind : Option Kind)

namespace Filter

/-- A fresh filter of a standard kind. -/
def ofKind : Kind → Filter
  | .asciiHex => .hex .idle
  | .ascii85 => .base85 .idle
  | .lzw => .lzw .idle
  | .flate => .flate (.idle {})
  | .runLength => .runLength .idle
  | kind => .absent kind.name (some kind)

/-- A fresh filter for a name, full or short. A name that nobody knows gives a stand-in. -/
def ofName (name : String) : Filter :=
  match Kind.ofName? name with
  | some kind => ofKind kind
  | none => .absent (bareName name) none

theorem ofName_name (kind : Kind) : ofName kind.name = ofKind kind := by
  rw [ofName, Kind.ofName?_name]

/-- The standard filter that this is, if it is one. -/
def kind? : Filter → Option Kind
  | .hex _ => some .asciiHex
  | .base85 _ => some .ascii85
  | .lzw _ => some .lzw
  | .flate _ => some .flate
  | .runLength _ => some .runLength
  | .absent _ kind => kind

/-- The name of the filter. -/
def name : Filter → String
  | .hex _ => Kind.asciiHex.name
  | .base85 _ => Kind.ascii85.name
  | .lzw _ => Kind.lzw.name
  | .flate _ => Kind.flate.name
  | .runLength _ => Kind.runLength.name
  | .absent name _ => name

/-- Whether there is no codec. -/
def isAbsent : Filter → Bool
  | .absent _ _ => true
  | _ => false

/-- Whether the filter runs in this direction. -/
def supports : Filter → Direction → Bool
  | .hex _, _ | .base85 _, _ | .flate _, _ => true
  | .lzw _, .decode | .runLength _, .decode => true
  | .lzw _, .encode | .runLength _, .encode | .absent _ _, _ => false

/-- The fault of every call in a direction that the filter does not support. -/
def unsupported (filter : Filter) (direction : Direction) : Fault :=
  .unsupported filter.name direction

/-- Begin a session. Parameters only matter to decoding. -/
def begin (filter : Filter) (direction : Direction) (parameters : Option Parameters) :
    Filter × Except Fault Unit :=
  match filter, direction with
  | .hex _, _ => (.hex .idle, .ok ())
  | .base85 _, _ => (.base85 .idle, .ok ())
  | .runLength _, .decode => (.runLength .idle, .ok ())
  | .lzw _, .decode =>
    let (state, result) := Lzw.beginDecode parameters
    (.lzw state, result)
  | .flate state, .encode =>
    let (state, result) := state.beginEncode
    (.flate state, result)
  | .flate state, .decode =>
    let (state, result) := state.beginDecode parameters
    (.flate state, result)
  | filter, direction => (filter, .error (filter.unsupported direction))

/-- The reply of a codec as the reply of a filter. -/
def reply {σ : Type} (toFilter : σ → Filter) (reply : Reply σ) : Reply Filter :=
  ⟨toFilter reply.state, reply.sink, reply.result⟩

/-- Hand over a block. -/
def block (filter : Filter) (direction : Direction) (bytes : List UInt8) (sink : Sink) :
    Reply Filter :=
  match filter, direction with
  | .hex state, .encode => reply .hex (state.encodeBlock bytes sink)
  | .hex state, .decode => reply .hex (state.decodeBlock bytes sink)
  | .base85 state, .encode => reply .base85 (state.encodeBlock bytes sink)
  | .base85 state, .decode => reply .base85 (state.decodeBlock bytes sink)
  | .runLength state, .decode => reply .runLength (state.decodeBlock bytes sink)
  | .lzw state, .decode => reply .lzw (state.decodeBlock bytes sink)
  | .flate state, .encode => reply .flate (state.encodeBlock bytes sink)
  | .flate state, .decode => reply .flate (state.decodeBlock bytes sink)
  | filter, direction => ⟨filter, sink, .error (filter.unsupported direction)⟩

/-- Finish a session: write what is still due. -/
def finish (filter : Filter) (direction : Direction) (sink : Sink) : Reply Filter :=
  match filter, direction with
  | .hex state, .encode => reply .hex (state.endEncode sink)
  | .hex state, .decode => reply .hex (state.endDecode sink)
  | .base85 state, .encode => reply .base85 (state.endEncode sink)
  | .base85 state, .decode => reply .base85 (state.endDecode sink)
  | .runLength state, .decode => reply .runLength (state.endDecode sink)
  | .lzw state, .decode => reply .lzw (state.endDecode sink)
  | .flate state, .encode => reply .flate (state.endEncode sink)
  | .flate state, .decode => reply .flate (state.endDecode sink)
  | filter, direction => ⟨filter, sink, .error (filter.unsupported direction)⟩

/-- Drop whatever the filter is in the middle of. -/
def abort : Filter → Filter
  | .hex _ => .hex .idle
  | .base85 _ => .base85 .idle
  | .lzw _ => .lzw .idle
  | .flate state => .flate (.idle state.config)
  | .runLength _ => .runLength .idle
  | .absent name kind => .absent name kind

/-- Begin, hand over all data as one block, and finish, stopping at the first fault. -/
def runOnce (filter : Filter) (direction : Direction) (parameters : Option Parameters)
    (data : List UInt8) (sink : Sink) : Reply Filter :=
  match filter.begin direction parameters with
  | (filter, .error fault) => ⟨filter, sink, .error fault⟩
  | (filter, .ok ()) =>
    match filter.block direction data sink with
    | ⟨filter, sink, .error fault⟩ => ⟨filter, sink, .error fault⟩
    | ⟨filter, sink, .ok ()⟩ => filter.finish direction sink

/-- Pass all data through the filter at once. After a fault the filter is aborted. -/
def run (filter : Filter) (direction : Direction) (parameters : Option Parameters)
    (data : List UInt8) : Filter × Except Fault (List UInt8) :=
  match filter.runOnce direction parameters data .unlimited with
  | ⟨filter, sink, .ok ()⟩ => (filter, .ok sink.accepted.toList)
  | ⟨filter, _, .error fault⟩ => (filter.abort, .error fault)

end Filter

end PdfFilters

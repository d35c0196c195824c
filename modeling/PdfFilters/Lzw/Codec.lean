import PdfFilters.Lzw.Decoder
import PdfFilters.Rows.Undo

/-!
# The filter for variable-width codes

`Lzw` brackets a decoder into sessions. A session has a row store exactly if its parameters ask
for a predictor; then nothing reaches the sink before the end. A fault inside a session leaves it
open, and the end closes it whatever happens. There is no encoder.
-/

namespace PdfFilters

/-- An open session: its decoder, and where its rows are kept if there is a predictor. -/
structure LzwSession where
  decoder : LzwDecoder
  rows : Option RowStore

/-- The filter: idle, or with a session open. -/
structure Lzw where
  session : Option LzwSession := none

namespace Lzw

/-- No session open. -/
def idle : Lzw := {}

/-- The fault of a call that needs an open session. -/
def notOpen : Fault := .wrongState "decode session" "idle filter"

/-- The session that parameters ask for. How codes grow is looked at before the predictor. -/
def openSession (parameters : Option Parameters) : Except Fault LzwSession := do
  let prediction := Prediction.ofParameters parameters
  let space ← CodeSpace.ofPrediction prediction
  let rows ← if prediction.isActive then some <$> RowStore.start prediction else pure none
  return { decoder := .start space, rows }

/-- Open a session, in place of whatever was there. -/
def beginDecode (parameters : Option Parameters) : Lzw × Except Fault Unit :=
  match openSession parameters with
  | .ok session => (⟨some session⟩, .ok ())
  | .error fault => (idle, .error fault)

/-- Decode a block, into the row store if there is one. -/
def decodeBlock (filter : Lzw) (block : List UInt8) (sink : Sink) : Reply Lzw :=
  match filter with
  | ⟨none⟩ => ⟨idle, sink, .error notOpen⟩
  | ⟨some ⟨decoder, none⟩⟩ =>
    let ⟨decoder, sink, result⟩ := decoder.feed block sink
    ⟨⟨some ⟨decoder, none⟩⟩, sink, result⟩
  | ⟨some ⟨decoder, some rows⟩⟩ =>
    let ⟨decoder, outlet, result⟩ := decoder.feed block .unlimited
    ⟨⟨some ⟨decoder, some (rows.add outlet.accepted)⟩⟩, sink, result⟩

/-- Close the session, putting the rows back if there is a predictor. -/
def endDecode (filter : Lzw) (sink : Sink) : Reply Lzw :=
  match filter with
  | ⟨none⟩ => ⟨idle, sink, .error notOpen⟩
  | ⟨some ⟨_, none⟩⟩ => ⟨idle, sink, .ok ()⟩
  | ⟨some ⟨_, some rows⟩⟩ =>
    let (sink, result) := rows.finish sink
    ⟨idle, sink, result⟩

end Lzw

end PdfFilters

import PdfFilters.Rows.Png
import PdfFilters.Rows.Tiff
import PdfFilters.Sink

/-!
# Undoing the predictor of a whole stream

`Prediction.undo` puts the rows of completely decoded data back: nothing to do for predictor 1,
running sums for 2, tagged rows for 10 to 15, and no other predictor exists.

Rows can only be cut once all data are there, so a decoder with an active predictor writes into a
`RowStore` in place of its sink. `RowStore.start` turns down, before any data come, whatever `undo`
would turn down whatever the data; after that only a row tag can be wrong.

Data that have been decoded are taken to fit into memory: neither collecting them in a `RowStore` nor
putting their rows back asks the host for room, and so neither runs out of it.
-/

namespace PdfFilters

/-- Whether `Prediction.undo` knows this predictor. -/
def isPredictor (value : Int) : Bool :=
  value = 1 ∨ value = 2 ∨ (10 ≤ value ∧ value ≤ 15)

/-- Put the rows of decoded data back. There is memory for them. -/
def Prediction.undo (prediction : Prediction) (data : List UInt8) : Except Fault (List UInt8) :=
  if prediction.predictor = 1 then .ok data
  else if prediction.predictor = 2 then do
    let layout ← prediction.layout
    return undoDifferences layout data
  else if 10 ≤ prediction.predictor ∧ prediction.predictor ≤ 15 then do
    let layout ← prediction.layout
    undoTagged layout data
  else .error (.unknownPredictor prediction.predictor)

/-- Decoded data that wait for their rows to be put back. -/
structure RowStore where
  prediction : Prediction
  data : Array UInt8 := #[]

namespace RowStore

/-- An empty store, if the predictor exists and its rows can be laid out. -/
def start (prediction : Prediction) : Except Fault RowStore :=
  if isPredictor prediction.predictor then
    prediction.layout.map fun _ => { prediction }
  else .error (.unknownPredictor prediction.predictor)

/-- Take in decoded bytes. There is memory for them. -/
def add (store : RowStore) (bytes : Array UInt8) : RowStore :=
  { store with data := store.data ++ bytes }

/-- Put the rows back and hand them to the sink, in one piece. -/
def finish (store : RowStore) (sink : Sink) : Sink × Except Fault Unit :=
  match store.prediction.undo store.data.toList with
  | .ok rows => sink.write rows
  | .error fault => (sink, .error fault)

end RowStore

end PdfFilters

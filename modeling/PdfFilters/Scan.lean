import PdfFilters.Sink

/-!
# Decoders that go byte by byte

Several codecs are a state and a step: the step takes one byte of input, moves the state, and
either puts out some bytes or finds a fault. `scan` runs the step over a block and `scanBlock`
makes a filter call of it: the output of the block goes to the sink in one piece after the last
byte, so a block with a fault in it writes nothing, but the state stays where the fault left it.
-/

namespace PdfFilters

variable {σ : Type}

/-- Run a step over bytes, adding to the output, up to the first fault. -/
def scan (step : σ → UInt8 → σ × Except Fault (List UInt8)) (state : σ) (output : Array UInt8) :
    List UInt8 → σ × Array UInt8 × Except Fault Unit
  | [] => (state, output, .ok ())
  | byte :: rest =>
    match step state byte with
    | (state, .ok produced) => scan step state (output ++ produced) rest
    | (state, .error fault) => (state, output, .error fault)

/-- A scan over one list after another is a scan over both, up to the first fault. -/
theorem scan_append (step : σ → UInt8 → σ × Except Fault (List UInt8)) (state : σ)
    (output : Array UInt8) (first second : List UInt8) :
    scan step state output (first ++ second)
      = match scan step state output first with
        | (state, output, .ok ()) => scan step state output second
        | (state, output, .error fault) => (state, output, .error fault) := by
  induction first generalizing state output with
  | nil => rfl
  | cons byte rest ih =>
    simp only [List.cons_append, scan]
    split
    · exact ih _ _
    · rfl

/-- Run a step over a block and write what it puts out. -/
def scanBlock (step : σ → UInt8 → σ × Except Fault (List UInt8)) (state : σ)
    (block : List UInt8) (sink : Sink) : Reply σ :=
  match scan step state #[] block with
  | (state, output, .ok ()) =>
    let (sink, result) := sink.write output.toList
    ⟨state, sink, result⟩
  | (state, _, .error fault) => ⟨state, sink, .error fault⟩

end PdfFilters

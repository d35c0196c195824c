import PdfFilters.Deflate.Engine
import PdfFilters.Session

/-!
# Chains of filters

A stream may have gone through several filters. A `Chain` lists them in the order in which
decoding applies them; each stage works on the complete output of the one before, in a session of
its own, and only the last stage to run writes into the caller's sink. Encoding goes through the
stages backwards and makes no use of their parameters. The first stage that fails ends the run,
and the fault says which stage it was, counted in decoding order (`ChainFault`).

A `Job` is a stream on its own, decoded with a fresh chain.
-/

namespace PdfFilters

/-- The failure of one stage of a chain. -/
structure ChainFault where
  /-- The place of the stage in decoding order, from zero. -/
  stage : Nat
  /-- The name of its filter. -/
  filter : String
  cause : Fault
  deriving DecidableEq

namespace ChainFault

/-- The wording of a failure. -/
def message (fault : ChainFault) : String :=
  "filter stage " ++ toString fault.stage ++ " (" ++ fault.filter ++ ") failed: "
    ++ fault.cause.message

/-- Whether the stage failed for not being implemented, and not because of its data. -/
def isUnsupported (fault : ChainFault) : Bool := fault.cause.isUnsupported

end ChainFault

variable [Host]

/-- A filter of a chain, and the parameters that the stream has for it. -/
structure Stage where
  filter : Filter
  parameters : Option Parameters

namespace Stage

/-- Pass data through a stage, as one block of one session. -/
def run (stage : Stage) (direction : Direction) (data : List UInt8) (sink : Sink) : Reply Stage :=
  match stage with
  | ⟨filter, parameters⟩ =>
    let ⟨filter, sink, result⟩ := Session.pass filter direction parameters [data] sink
    ⟨⟨filter, parameters⟩, sink, result⟩

end Stage

/-- A stage together with its place in decoding order. -/
abbrev PlacedStage := Stage × Nat

/-- What a run through some stages leaves behind. -/
structure RunReply where
  stages : List PlacedStage
  sink : Sink
  result : Except ChainFault Unit

/-- Run the stages in the order of the list. All but the last write into a place of their own,
which the next one reads; no stage at all is the identity. -/
def runStages (direction : Direction) (data : List UInt8) (sink : Sink) :
    List PlacedStage → RunReply
  | [] =>
    let (sink, result) := sink.write data
    ⟨[], sink, result.mapError (⟨0, "identity", ·⟩)⟩
  | [(stage, place)] =>
    let name := stage.filter.name
    let ⟨stage, sink, result⟩ := stage.run direction data sink
    ⟨[(stage, place)], sink, result.mapError (⟨place, name, ·⟩)⟩
  | (stage, place) :: next :: rest =>
    let name := stage.filter.name
    match stage.run direction data .unlimited with
    | ⟨stage, _, .error fault⟩ =>
      ⟨(stage, place) :: next :: rest, sink, .error ⟨place, name, fault⟩⟩
    | ⟨stage, between, .ok ()⟩ =>
      let ⟨stages, sink, result⟩ :=
        runStages direction between.accepted.toList sink (next :: rest)
      ⟨(stage, place) :: stages, sink, result⟩

/-- Filters in decoding order. -/
structure Chain where
  stages : List Stage := []

namespace Chain

/-- The chain of these filters. Parameters are paired with names from the front, and a filter for
which there are none left has none. -/
def ofNames : List String → List (Option Parameters) → Chain
  | [], _ => {}
  | name :: names, parameters =>
    ⟨⟨Filter.ofName name, parameters.headD none⟩ :: (ofNames names parameters.tail).stages⟩

/-- The chain with a stage at its end. -/
def push (chain : Chain) (filter : Filter) (parameters : Option Parameters) : Chain :=
  ⟨chain.stages ++ [⟨filter, parameters⟩]⟩

/-- The number of stages. -/
def length (chain : Chain) : Nat := chain.stages.length

/-- Whether there are no stages. -/
def isEmpty (chain : Chain) : Bool := chain.stages.isEmpty

/-- Whether every stage supports a direction. -/
def supports (chain : Chain) (direction : Direction) : Bool :=
  chain.stages.all fun stage => stage.filter.supports direction

/-- Pass data through the whole chain, into a sink. -/
def runInto (chain : Chain) (direction : Direction) (data : List UInt8) (sink : Sink) :
    Chain × Sink × Except ChainFault Unit :=
  match direction with
  | .decode =>
    let ⟨stages, sink, result⟩ := runStages .decode data sink chain.stages.zipIdx
    (⟨stages.map Prod.fst⟩, sink, result)
  | .encode =>
    let ⟨stages, sink, result⟩ := runStages .encode data sink chain.stages.zipIdx.reverse
    (⟨stages.reverse.map Prod.fst⟩, sink, result)

/-- Pass data through the whole chain. -/
def run (chain : Chain) (direction : Direction) (data : List UInt8) :
    Chain × Except ChainFault (List UInt8) :=
  let (chain, sink, result) := chain.runInto direction data .unlimited
  (chain, result.map fun () => sink.accepted.toList)

/-- Decode into a sink. -/
def decodeInto (chain : Chain) (data : List UInt8) (sink : Sink) :
    Chain × Sink × Except ChainFault Unit :=
  chain.runInto .decode data sink

/-- Decode data. -/
def decode (chain : Chain) (data : List UInt8) : Chain × Except ChainFault (List UInt8) :=
  chain.run .decode data

/-- Encode data so that decoding without parameters gives them back. -/
def encode (chain : Chain) (data : List UInt8) : Chain × Except ChainFault (List UInt8) :=
  chain.run .encode data

end Chain

/-- A stream on its own: its filters, their parameters, and its data. -/
structure Job where
  filters : List String
  parameters : List (Option Parameters)
  data : List UInt8

/-- Decode a stream with a fresh chain. -/
def Job.decode (job : Job) : Except ChainFault (List UInt8) :=
  ((Chain.ofNames job.filters job.parameters).decode job.data).2

/-- Decode streams that have nothing to do with one another, each answer in its job's place. -/
def decodeAll (jobs : List Job) : List (Except ChainFault (List UInt8)) := jobs.map Job.decode

end PdfFilters

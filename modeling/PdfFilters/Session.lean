import PdfFilters.Filter

/-!
# Guarded sessions

A `Session` holds a filter and a sink from the beginning to the end of one pass. It counts the
bytes it was fed, and once a call has failed it refuses all further ones. However it goes, the
filter comes out of it with nothing left over from the pass: a failing call aborts it, and so does
dropping a session that is still open.
-/

namespace PdfFilters

variable [Host]

/-- A pass through a filter that has begun. -/
structure Session where
  filter : Filter
  sink : Sink
  direction : Direction
  /-- No call has failed yet. -/
  isOpen : Bool := true
  /-- How many bytes have been fed, the block of a failing call included. -/
  fed : Nat := 0

namespace Session

/-- The fault of every call after a failing one. -/
def alreadyFailed : Fault := .wrongState "open session" "failed session"

/-- Begin a pass. If the filter cannot begin, it is handed back aborted. -/
def start (filter : Filter) (direction : Direction) (parameters : Option Parameters)
    (sink : Sink) : Except (Filter × Fault) Session :=
  match filter.begin direction parameters with
  | (filter, .ok ()) => .ok { filter, sink, direction }
  | (filter, .error fault) => .error (filter.abort, fault)

/-- Feed one block. -/
def feed (session : Session) (block : List UInt8) : Session × Except Fault Unit :=
  match session with
  | ⟨filter, sink, direction, false, fed⟩ =>
    (⟨filter, sink, direction, false, fed⟩, .error alreadyFailed)
  | ⟨filter, sink, direction, true, fed⟩ =>
    let fed := fed + block.length
    match filter.block direction block sink with
    | ⟨filter, sink, .ok ()⟩ => (⟨filter, sink, direction, true, fed⟩, .ok ())
    | ⟨filter, sink, .error fault⟩ => (⟨filter.abort, sink, direction, false, fed⟩, .error fault)

/-- End the pass. -/
def finish (session : Session) : Reply Filter :=
  match session with
  | ⟨filter, sink, _, false, _⟩ => ⟨filter, sink, .error alreadyFailed⟩
  | ⟨filter, sink, direction, true, _⟩ =>
    match filter.finish direction sink with
    | ⟨filter, sink, .ok ()⟩ => ⟨filter, sink, .ok ()⟩
    | ⟨filter, sink, .error fault⟩ => ⟨filter.abort, sink, .error fault⟩

/-- Feed blocks one after another, up to the first fault. -/
def feedAll (session : Session) : List (List UInt8) → Session × Except Fault Unit
  | [] => (session, .ok ())
  | block :: rest =>
    match session.feed block with
    | (session, .ok ()) => session.feedAll rest
    | (session, .error fault) => (session, .error fault)

/-- Give the pass up, wherever it is: what the filter is then. -/
def drop (session : Session) : Filter :=
  if session.isOpen then session.filter.abort else session.filter

/-- A whole pass: begin, feed the blocks, and end, stopping at the first fault. -/
def pass (filter : Filter) (direction : Direction) (parameters : Option Parameters)
    (blocks : List (List UInt8)) (sink : Sink) : Reply Filter :=
  match start filter direction parameters sink with
  | .error (filter, fault) => ⟨filter, sink, .error fault⟩
  | .ok session =>
    match session.feedAll blocks with
    | (session, .ok ()) => session.finish
    | (session, .error fault) => ⟨session.drop, session.sink, .error fault⟩

/-- Change the sink of a session from the outside. -/
def mapSink (session : Session) (change : Sink → Sink) : Session :=
  { session with sink := change session.sink }

end Session

end PdfFilters

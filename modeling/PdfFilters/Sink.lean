import PdfFilters.Fault

/-!
# The sink that takes a filter's output

A `Sink` is a value: the bytes it has accepted, how many more it will accept, and how it fails
once that room is used up. A write that fits is accepted whole; a write that does not fit leaves
exactly the part that fitted and fails (`Sink.write`); a write of nothing always succeeds. So
whatever happens, the sink holds an initial part of what was handed to it.

A failing sink gives a reason of its own. `WriteFailure.fault` says what a filter makes of it:
only a shortage of memory that says how much was wanted keeps its identity, and everything else is
a plain fault of the sink.

`Reply` is the shape of every filter call: the state and the sink afterwards, and the result.
-/

namespace PdfFilters

/-- How a sink fails. `shortage` tells whether the sink calls it a lack of memory. -/
inductive WriteFailure where
  /-- The sink takes no more bytes and does not say why. -/
  | stalled
  /-- The sink gives its reason in words. -/
  | told (shortage : Bool) (reason : String)
  /-- The sink passes on a fault of its own. -/
  | carried (shortage : Bool) (cause : Fault)

/-- What a filter reports when its sink fails: a shortage that names the amount wanted is passed
on as such, all the rest is a fault of the sink. -/
def WriteFailure.fault : WriteFailure → Fault
  | .stalled => .sink "failed to write whole buffer"
  | .told _ reason => .sink reason
  | .carried true (.outOfMemory requested) => .outOfMemory requested
  | .carried _ cause => .sink cause.message

/-- A place for bytes: what it has accepted, how many more bytes it accepts (`none`: any number),
and how it fails after that. -/
structure Sink where
  accepted : Array UInt8 := #[]
  room : Option Nat := none
  failure : WriteFailure := .stalled

namespace Sink

/-- An empty sink that never fails. -/
def unlimited : Sink := {}

/-- The sink with a new limit, counted from here on; what it has accepted stays. -/
def restrict (sink : Sink) (room : Option Nat) (failure : WriteFailure) : Sink :=
  { sink with room, failure }

/-- Hand bytes to the sink: it takes all of them, or the part that fits and then fails. -/
def write (sink : Sink) (bytes : List UInt8) : Sink × Except Fault Unit :=
  match sink with
  | ⟨accepted, none, failure⟩ => (⟨accepted ++ bytes, none, failure⟩, .ok ())
  | ⟨accepted, some room, failure⟩ =>
    let length := bytes.length
    if length ≤ room then
      (⟨accepted ++ bytes, some (room - length), failure⟩, .ok ())
    else
      (⟨accepted ++ bytes.take room, some 0, failure⟩, .error failure.fault)

@[simp] theorem write_nil (sink : Sink) : sink.write [] = (sink, .ok ()) := by
  obtain ⟨accepted, room, failure⟩ := sink
  cases room <;> simp [write]

theorem append_append (accepted : Array UInt8) (first second : List UInt8) :
    accepted ++ (first ++ second) = accepted ++ first ++ second :=
  Array.ext' (by simp)

/-- A write that succeeds and another one after it are one write. -/
theorem write_append_of_ok {sink next : Sink} {first : List UInt8}
    (h : sink.write first = (next, .ok ())) (second : List UInt8) :
    sink.write (first ++ second) = next.write second := by
  obtain ⟨accepted, room, failure⟩ := sink
  cases room with
  | none =>
    simp only [write, Prod.mk.injEq, and_true] at h
    subst h
    simp [write, append_append]
  | some room =>
    simp only [write] at h
    split at h
    next hfits =>
      simp only [Prod.mk.injEq, and_true] at h
      subst h
      by_cases hall : second.length ≤ room - first.length
      · have : first.length + second.length ≤ room := by omega
        simp [write, hall, this, Nat.sub_sub, append_append]
      · have : ¬ first.length + second.length ≤ room := by omega
        simp [write, hall, this, List.take_append, List.take_of_length_le hfits, append_append]
    next => simp at h

/-- A write that fails does so whatever comes after it, and with the same effect. -/
theorem write_append_of_error {sink next : Sink} {first : List UInt8} {fault : Fault}
    (h : sink.write first = (next, .error fault)) (second : List UInt8) :
    sink.write (first ++ second) = (next, .error fault) := by
  obtain ⟨accepted, room, failure⟩ := sink
  cases room with
  | none => simp [write] at h
  | some room =>
    simp only [write] at h
    split at h
    next => simp at h
    next hover =>
      have hall : ¬ first.length + second.length ≤ room := by omega
      have hpart : room ≤ first.length := by omega
      simpa [write, hall, List.take_append_of_le_length hpart] using h

end Sink

/-- What a call leaves behind: the state and the sink it hands on, and its result. -/
structure Reply (σ : Type) where
  state : σ
  sink : Sink
  result : Except Fault Unit

end PdfFilters

import PdfFilters.Fault

/-!
# What filters need from their host

Two things that filters rely on are not theirs: memory for buffers, and the engines that compress and
inflate. Both come from a `Host`, and everything about filters is said for any host.

An engine is called again and again. Each call offers input and room for output; the engine takes some
of the input, puts out at most what there is room for, and tells how far it has come (`Progress`). Any
call may fail, with a text of the engine's own. An `Engine` is the calls together with what makes loops
over them end: it takes no more than it is offered, puts out no more than there is room for, and has
only so much to put out for so much input (`Engine.backlog_le`).

How a stream goes through an engine is an `Engine.Run`. What a run comes to is up to the engine.
-/

namespace PdfFilters

/-- What an engine is told with its input. -/
inductive Flush where
  /-- More input may follow. -/
  | more
  /-- The input ends here. -/
  | finish

/-- What a call of an engine did. -/
structure Progress where
  /-- How many bytes of the input were taken. -/
  consumed : Nat
  /-- The output. -/
  produced : List UInt8
  /-- The stream has ended, and nothing of it is left to hand over. -/
  ended : Bool

/-- The call did not get anywhere. -/
def Progress.isStuck (progress : Progress) : Prop := progress.consumed = 0 ∧ progress.produced = []

instance (progress : Progress) : Decidable progress.isStuck :=
  inferInstanceAs (Decidable (progress.consumed = 0 ∧ progress.produced = []))

/-- An engine that takes a stream in and puts another one out. -/
structure Engine where
  /-- The engine between two calls. -/
  State : Type
  /-- Call the engine with input, and with room for so many bytes of output. -/
  call : State → Flush → List UInt8 → Nat → Except String (State × Progress)
  /-- A bound on what the engine still puts out if it gets this input and no other. -/
  backlog : State → List UInt8 → Nat
  consumed_le {state next : State} {flush : Flush} {input : List UInt8} {room : Nat}
    {progress : Progress} : call state flush input room = .ok (next, progress) →
    progress.consumed ≤ input.length
  produced_le {state next : State} {flush : Flush} {input : List UInt8} {room : Nat}
    {progress : Progress} : call state flush input room = .ok (next, progress) →
    progress.produced.length ≤ room
  backlog_le {state next : State} {flush : Flush} {input : List UInt8} {room : Nat}
    {progress : Progress} : call state flush input room = .ok (next, progress) →
    progress.produced.length + backlog next (input.drop progress.consumed) ≤ backlog state input

namespace Engine

variable (engine : Engine)

/-- What can still happen to an engine that has this input left: bytes of output, and of input. -/
def appetite (state : engine.State) (input : List UInt8) : Nat :=
  engine.backlog state input + input.length

/-- A call that gets anywhere leaves less to happen. -/
theorem appetite_lt {state next : engine.State} {flush : Flush} {input : List UInt8} {room : Nat}
    {progress : Progress} (called : engine.call state flush input room = .ok (next, progress))
    (moved : ¬ progress.isStuck) :
    engine.appetite next (input.drop progress.consumed) < engine.appetite state input := by
  have taken := engine.consumed_le called
  have due := engine.backlog_le called
  have some : progress.consumed ≠ 0 ∨ progress.produced.length ≠ 0 := by
    rw [ne_eq, ne_eq, List.length_eq_zero_iff]
    exact Decidable.not_and_iff_not_or_not.mp moved
  unfold appetite
  rw [List.length_drop]
  omega

/-- An engine in the middle of a stream, that started in a certain state and has had room for so many
bytes in every call: the bytes of the stream that have come, those of them that the engine has not
taken, and its output so far. Once the engine has been told to finish, no more bytes come. -/
inductive Run (start : engine.State) (room : Nat) :
    Flush → engine.State → (received left handed : List UInt8) → Prop
  | start : Run start room .more start [] [] []
  | receive {state : engine.State} {received left handed : List UInt8} (bytes : List UInt8) :
      Run start room .more state received left handed →
      Run start room .more state (received ++ bytes) (left ++ bytes) handed
  | finish {state : engine.State} {received handed : List UInt8} :
      Run start room .more state received [] handed → Run start room .finish state received [] handed
  | call {flush : Flush} {state next : engine.State} {received left handed : List UInt8}
      {progress : Progress} : Run start room flush state received left handed →
      engine.call state flush left room = .ok (next, progress) →
      Run start room flush next received (left.drop progress.consumed) (handed ++ progress.produced)

end Engine

/-- What the filters run on. -/
class Host where
  /-- Whether a buffer that holds so many bytes can get room for so many more. -/
  hasRoom (held additional : Nat) : Bool
  /-- The engine that compresses. -/
  deflating : Engine
  /-- It starts with a level, from 0 (store) to 9 (compress best). -/
  newDeflater (level : Nat) : deflating.State
  /-- The engine that inflates. -/
  inflating : Engine
  newInflater : inflating.State

/-- A compressing engine between two calls. -/
abbrev Host.Deflater [Host] : Type := deflating.State

/-- An inflating engine between two calls. -/
abbrev Host.Inflater [Host] : Type := inflating.State

/-- Make room for `additional` bytes in a buffer that holds `held`. A size that there is no memory
for is a fault that names the size asked for. -/
def reserve [Host] (held additional : Nat) : Except Fault Unit :=
  if Host.hasRoom held additional then .ok () else .error (.outOfMemory additional)

end PdfFilters

import PdfFilters.Deflate.Compress
import PdfFilters.Deflate.Inflate
import PdfFilters.Host

/-!
# A host of its own

The library brings engines along, so that filters run on `Host.builtIn` where nothing else is said. What
an engine has put out beyond the room of a call stays with it until the next calls.

Both take new input only when all output of the input before has been handed over. A `Deflater` then
takes it up to where the next output is due. An `Inflater` takes it up to the end of the stream, unless
the stream turns out to be corrupt there. Then it takes none, puts out what it still hands over, and
refuses the next call.
-/

namespace PdfFilters

/-- A compressing engine between two calls. -/
inductive Deflater where
  /-- Taking in data, with output that has not been handed over. -/
  | gathering (machine : Deflate) (ready : List UInt8)
  /-- Putting out the rest of the stream. -/
  | draining (ready : List UInt8)

namespace Deflater

/-- Hand over what there is room for. -/
def handOver (machine : Deflate) (ready : List UInt8) (room consumed : Nat) : Deflater × Progress :=
  (.gathering machine (ready.drop room), ⟨consumed, ready.take room, false⟩)

/-- Call the engine with data: output that is ready goes first, and input is taken when none is. An
engine that was told to finish takes no more. -/
def gather (engine : Deflater) (input : List UInt8) (room : Nat) : Deflater × Progress :=
  match engine with
  | .gathering machine [] =>
    let (machine, ready, rest) := machine.advance input
    handOver machine ready room (input.length - rest.length)
  | .gathering machine (byte :: ready) => handOver machine (byte :: ready) room 0
  | .draining ready => (.draining ready, ⟨0, [], false⟩)

/-- The part of the stream that the engine has not put out, if this input is the last. -/
def due (engine : Deflater) (input : List UInt8) : List UInt8 :=
  match engine with
  | .gathering machine ready => ready ++ (machine.feed input).2 ++ (machine.feed input).1.close
  | .draining ready => ready

/-- Tell the engine to finish the stream, or to go on finishing it. -/
def finish (engine : Deflater) (input : List UInt8) (room : Nat) : Deflater × Progress :=
  let due := engine.due input
  let left := due.drop room
  (.draining left, ⟨input.length, due.take room, left.isEmpty⟩)

def call (engine : Deflater) : Flush → List UInt8 → Nat → Except String (Deflater × Progress)
  | .more, input, room => .ok (engine.gather input room)
  | .finish, input, room => .ok (engine.finish input room)

theorem length_take_drop (room : Nat) (due : List UInt8) :
    (due.take room).length + (due.drop room).length = due.length := by
  rw [← List.length_append, List.take_append_drop]

/-- Gathering moves output from what is due to what has been put out. -/
theorem due_gather (engine : Deflater) (input : List UInt8) (room : Nat) :
    (engine.gather input room).2.produced
        ++ (engine.gather input room).1.due (input.drop (engine.gather input room).2.consumed)
      = engine.due input := by
  match engine with
  | .gathering machine [] =>
    obtain ⟨taken, all, -⟩ := machine.exists_of_advance input
    have fed := machine.feed_eq_advance input
    rcases advanced : machine.advance input with ⟨next, ready, rest⟩
    rw [advanced] at all fed
    have left : input.drop (input.length - rest.length) = rest := by
      rw [all, List.length_append, Nat.add_sub_cancel]
      exact List.drop_left
    simp only [gather, advanced, handOver, due, left, fed, List.nil_append]
    rw [← List.append_assoc, ← List.append_assoc, List.take_append_drop]
  | .gathering machine (byte :: ready) =>
    simp only [gather, handOver, due, List.drop_zero]
    rw [← List.append_assoc, ← List.append_assoc, List.take_append_drop]
  | .draining ready => rfl

theorem consumed_gather_le (engine : Deflater) (input : List UInt8) (room : Nat) :
    (engine.gather input room).2.consumed ≤ input.length := by
  match engine with
  | .gathering machine [] => exact Nat.sub_le _ _
  | .gathering machine (byte :: ready) => exact Nat.zero_le _
  | .draining ready => exact Nat.zero_le _

theorem produced_gather_le (engine : Deflater) (input : List UInt8) (room : Nat) :
    (engine.gather input room).2.produced.length ≤ room := by
  match engine with
  | .gathering machine [] => exact List.length_take_le _ _
  | .gathering machine (byte :: ready) => exact List.length_take_le _ _
  | .draining ready => exact Nat.zero_le _

/-- The engine that compresses. -/
def engine : Engine where
  State := Deflater
  call := call
  backlog state input := (state.due input).length
  consumed_le {state next flush input room progress} called := by
    cases flush with
    | more =>
      have same : state.gather input room = (next, progress) := Except.ok.inj called
      have taken := state.consumed_gather_le input room
      rwa [same] at taken
    | finish =>
      cases called
      exact Nat.le_refl _
  produced_le {state next flush input room progress} called := by
    cases flush with
    | more =>
      have same : state.gather input room = (next, progress) := Except.ok.inj called
      have few := state.produced_gather_le input room
      rwa [same] at few
    | finish =>
      cases called
      exact List.length_take_le _ _
  backlog_le {state next flush input room progress} called := by
    cases flush with
    | more =>
      have same : state.gather input room = (next, progress) := Except.ok.inj called
      have moved := congrArg List.length (state.due_gather input room)
      rw [same, List.length_append] at moved
      exact Nat.le_of_eq moved
    | finish =>
      cases called
      exact Nat.le_of_eq (length_take_drop room (state.due input))

end Deflater

/-- An inflating engine between two calls. -/
structure Inflater where
  machine : Inflate
  /-- Output that has not been handed over. -/
  due : List UInt8 := []

/-- The size of the window that inflating works in: output becomes available window by window. -/
def inflateWindow : Nat := 32768

/-- The least multiple of the window that is not below a number. -/
def windowEnd (position : Nat) : Nat :=
  (position + (inflateWindow - 1)) / inflateWindow * inflateWindow

/-- How much of the output of a block is still handed over if the block turns out to be corrupt
after `produced` bytes, the stream having put out `start` bytes before. Windows are handed over
when they are full and fill the room at least once; of the others nothing is. -/
def handedOver (room start produced : Nat) : Nat :=
  let first := windowEnd (start + room)
  if start + produced ≤ first then 0
  else
    let round := windowEnd room
    first + (start + produced - 1 - first) / round * round - start

/-- What the machine has put out since it had put out so much. -/
def Inflate.freshFrom (size : Nat) (machine : Inflate) : List UInt8 :=
  (machine.output.extract size).toList

@[simp] theorem Inflate.length_freshFrom (size : Nat) (machine : Inflate) :
    (machine.freshFrom size).length = machine.output.size - size := by
  simp [freshFrom]

namespace Inflater

/-- What the engine says of a corrupt stream. -/
def corrupt : String := "deflate decompression error"

/-- Hand over what there is room for. -/
def handOver (machine : Inflate) (due : List UInt8) (room consumed : Nat) : Inflater × Progress :=
  let left := due.drop room
  (⟨machine, left⟩, ⟨consumed, due.take room, machine.isDone && left.isEmpty⟩)

/-- Call the engine: output that is due goes first, and input is taken when none is. -/
def inflate (engine : Inflater) (input : List UInt8) (room : Nat) :
    Except String (Inflater × Progress) :=
  match engine with
  | ⟨machine, byte :: due⟩ => .ok (handOver machine (byte :: due) room 0)
  | ⟨machine, []⟩ =>
    -- Nothing is due, so the machine can take the input, as far as the stream goes.
    let (next, rest) := machine.advance input
    let fresh := next.freshFrom machine.output.size
    if next.isBad then
      match fresh.take (handedOver room machine.output.size fresh.length) with
      | [] => .error corrupt
      | byte :: due => .ok (handOver next (byte :: due) room 0)
    else .ok (handOver next fresh room (input.length - rest.length))

/-- How many bytes the engine can still put out if it gets this input. -/
def backlog (engine : Inflater) (input : List UInt8) : Nat :=
  engine.due.length + ((engine.machine.feed input).output.size - engine.machine.output.size)

/-- The ways in which a call can go well. -/
theorem cases_of_inflate {machine : Inflate} {due : List UInt8} {next : Inflater} {input : List UInt8}
    {room : Nat} {progress : Progress} (called : inflate ⟨machine, due⟩ input room = .ok (next, progress)) :
    (due ≠ [] ∧ (next, progress) = handOver machine due room 0)
      ∨ (due = [] ∧ (machine.feed input).isBad = false
        ∧ (next, progress) = handOver (machine.feed input)
          ((machine.feed input).freshFrom machine.output.size) room
          (input.length - (machine.advance input).2.length))
      ∨ (due = [] ∧ (machine.feed input).isBad = true ∧ ∃ some, some ≠ []
        ∧ some <+: (machine.feed input).freshFrom machine.output.size
        ∧ (next, progress) = handOver (machine.feed input) some room 0) := by
  cases due with
  | cons byte due => exact .inl ⟨List.cons_ne_nil _ _, (Except.ok.inj called).symm⟩
  | nil =>
    right
    simp only [inflate, Inflate.fst_advance] at called
    split at called
    next bad =>
      right
      split at called
      next => cases called
      next byte due part =>
        refine ⟨rfl, bad, byte :: due, List.cons_ne_nil _ _, ?_, (Except.ok.inj called).symm⟩
        rw [← part]
        exact List.take_prefix _ _
    next sound => exact .inl ⟨rfl, Bool.eq_false_iff.mpr sound, (Except.ok.inj called).symm⟩

theorem error_of_inflate {machine : Inflate} {due : List UInt8} {input : List UInt8} {room : Nat}
    {text : String} (failed : inflate ⟨machine, due⟩ input room = .error text) :
    (machine.feed input).isBad = true ∧ text = corrupt := by
  cases due with
  | cons byte due => cases failed
  | nil =>
    simp only [inflate, Inflate.fst_advance] at failed
    split at failed
    next bad =>
      split at failed
      next => exact ⟨bad, (Except.error.inj failed).symm⟩
      next => cases failed
    next => cases failed

/-- After the input that the machine takes, the rest of it makes no difference. -/
theorem feed_left (machine : Inflate) (input : List UInt8) :
    (machine.feed input).feed (input.drop (input.length - (machine.advance input).2.length))
      = machine.feed input := by
  obtain ⟨taken, all, left, -⟩ := machine.exists_of_advance input
  have rest : input.drop (input.length - (machine.advance input).2.length)
      = (machine.advance input).2 := by
    have length := congrArg List.length all
    rw [List.length_append] at length
    have front : input.length - (machine.advance input).2.length = taken.length := by omega
    rw [front]
    exact (congrArg (List.drop taken.length) all).trans List.drop_left
  rw [rest]
  rcases left with none | ended
  · rw [none]
    rfl
  · exact Inflate.feed_of_isDone ended _

/-- The engine that inflates. It does not care whether more input follows. -/
def engine : Engine where
  State := Inflater
  call state _ input room := state.inflate input room
  backlog := backlog
  consumed_le {state next flush input room progress} called := by
    obtain ⟨machine, due⟩ := state
    rcases cases_of_inflate called with ⟨-, same⟩ | ⟨-, -, same⟩ | ⟨-, -, some, -, -, same⟩
    · cases same
      exact Nat.zero_le _
    · cases same
      exact Nat.sub_le _ _
    · cases same
      exact Nat.zero_le _
  produced_le {state next flush input room progress} called := by
    obtain ⟨machine, due⟩ := state
    rcases cases_of_inflate called with ⟨-, same⟩ | ⟨-, -, same⟩ | ⟨-, -, some, -, -, same⟩
    · cases same
      exact List.length_take_le _ _
    · cases same
      exact List.length_take_le _ _
    · cases same
      exact List.length_take_le _ _
  backlog_le {state next flush input room progress} called := by
    obtain ⟨machine, due⟩ := state
    rcases cases_of_inflate called with ⟨-, same⟩ | ⟨rfl, -, same⟩ | ⟨rfl, bad, some, -, part, same⟩
    · cases same
      have moved := Deflater.length_take_drop room due
      simp only [backlog, List.drop_zero]
      omega
    · cases same
      have moved := Deflater.length_take_drop room
        ((machine.feed input).freshFrom machine.output.size)
      rw [Inflate.length_freshFrom] at moved
      simp only [backlog, feed_left, List.length_nil]
      omega
    · cases same
      have moved := Deflater.length_take_drop room some
      have few := part.length_le
      rw [Inflate.length_freshFrom] at few
      simp only [backlog, Inflate.feed_of_isBad bad, List.length_nil]
      omega

end Inflater

/-- The largest size of a block of memory that the host is asked for, one byte less than 64 gibibytes. -/
def maxBlock : Nat := 0xFFFFFFFFF

/-- The engines of the library, in a memory of a certain size. -/
instance Host.builtIn : Host where
  hasRoom held additional := held + additional ≤ maxBlock
  deflating := Deflater.engine
  newDeflater level := Deflater.gathering (.start level) []
  inflating := Inflater.engine
  newInflater := Inflater.mk .start []

end PdfFilters

import PdfFilters.Flate
import PdfFilters.Proofs.Cut

/-!
# What the loops around the engines emit

Three loops keep an engine going: one compresses a block, one finishes the stream, and one inflates a
block. They are one loop (`EngineLoop`), which differs in what the engine is told, in when it stops, and
in what it calls a failure. The loop looks at its sink as little as any filter, so it has an emission
(`EngineLoop.pumped`): all that the engine puts out on the way, and how the last call ends.

For an engine in the middle of a stream that last call is one of the run (`EngineLoop.exists_last_call`).
So what the loop comes to follows from what is known about single calls.
-/

namespace PdfFilters

/-- An engine that was told to finish has taken all of its input. -/
theorem Engine.Run.left_eq_nil {engine : Engine} {start state : engine.State} {room : Nat}
    {received left handed : List UInt8} (run : engine.Run start room .finish state received left handed) :
    left = [] := by
  generalize told : Flush.finish = flush at run
  induction run with
  | start | receive => cases told
  | finish => rfl
  | call _ _ ih => rw [ih told, List.drop_nil]

/-- A loop around an engine. -/
structure EngineLoop where
  /-- What the engine is told in each call. -/
  flush : Flush
  /-- The fault that the loop makes of a text. -/
  blame : String → Fault
  /-- The text for a call that gets nowhere. -/
  stuck : String
  /-- Whether the loop stops when this is left of the input, and if so with which answer. -/
  stops : List UInt8 → Progress → Option Bool

namespace EngineLoop

/-- The loop that compresses a block stops when the input is used up and the buffer is not full. -/
def compressing (room : Nat) : EngineLoop where
  flush := .more
  blame := .deflating
  stuck := "compressor made no progress"
  stops rest progress := if rest = [] ∧ progress.produced.length < room then some false else none

/-- The loop that finishes a stream stops at the end of it. -/
def finishing : EngineLoop where
  flush := .finish
  blame := .deflating
  stuck := "compressor made no progress"
  stops _ progress := if progress.ended then some true else none

/-- The loop that inflates a block stops at the end of the stream, or when the input is used up and the
buffer is not full. -/
def inflating (room : Nat) : EngineLoop where
  flush := .more
  blame := .inflating
  stuck := "decompressor made no progress"
  stops rest progress :=
    if progress.ended then some true
    else if rest = [] ∧ progress.produced.length < room then some false else none

theorem inflating_stops_of_ended {room : Nat} {rest : List UInt8} {progress : Progress}
    (ended : progress.ended = true) : (inflating room).stops rest progress = some true :=
  if_pos ended

theorem inflating_stops_of_not_ended {room : Nat} {rest : List UInt8} {progress : Progress}
    (ended : progress.ended = false) :
    (inflating room).stops rest progress
      = if rest = [] ∧ progress.produced.length < room then some false else none :=
  if_neg (Bool.eq_false_iff.mp ended)

variable (loop : EngineLoop) {engine : Engine} {room : Nat}

/-- What the loop emits, whatever its sink: the output of all calls, up to the last one. -/
def pumped (engine : Engine) (room : Nat) (state : engine.State) (input : List UInt8) :
    Emission (engine.State × Bool) :=
  match called : engine.call state loop.flush input room with
  | .error text => .quiet (.error (loop.blame text))
  | .ok (next, progress) =>
    match loop.stops (input.drop progress.consumed) progress with
    | some answer => ⟨progress.produced, .ok (next, answer)⟩
    | none =>
      if stuck : progress.isStuck then .quiet (.error (loop.blame loop.stuck))
      else
        have := engine.appetite_lt called stuck
        let onward := pumped engine room next (input.drop progress.consumed)
        ⟨progress.produced ++ onward.bytes, onward.result⟩
  termination_by engine.appetite state input
  decreasing_by assumption

section Calls

variable {loop} {state next : engine.State} {input : List UInt8} {progress : Progress}

theorem pumped_of_error {text : String}
    (failed : engine.call state loop.flush input room = .error text) :
    loop.pumped engine room state input = .quiet (.error (loop.blame text)) := by
  rw [pumped]
  split
  next other same =>
    rw [failed] at same
    cases same
    rfl
  next called =>
    rw [failed] at called
    cases called

variable (called : engine.call state loop.flush input room = .ok (next, progress))

include called

/-- The last call of the loop. -/
theorem pumped_of_stops {answer : Bool}
    (last : loop.stops (input.drop progress.consumed) progress = some answer) :
    loop.pumped engine room state input = ⟨progress.produced, .ok (next, answer)⟩ := by
  rw [pumped]
  split
  next failed =>
    rw [called] at failed
    cases failed
  next same =>
    rw [called] at same
    cases same
    rw [last]

variable (more : loop.stops (input.drop progress.consumed) progress = none)

include more

theorem pumped_of_stuck (stuck : progress.isStuck) :
    loop.pumped engine room state input = .quiet (.error (loop.blame loop.stuck)) := by
  rw [pumped]
  split
  next failed =>
    rw [called] at failed
    cases failed
  next same =>
    rw [called] at same
    cases same
    rw [more]
    exact dif_pos stuck

/-- A call after which the loop goes on. -/
theorem pumped_of_moved (moved : ¬ progress.isStuck) :
    loop.pumped engine room state input
      = .andThen ⟨progress.produced, .ok ()⟩ fun _ =>
          loop.pumped engine room next (input.drop progress.consumed) := by
  rw [pumped]
  split
  next failed =>
    rw [called] at failed
    cases failed
  next same =>
    rw [called] at same
    cases same
    rw [more]
    exact dif_neg moved

end Calls

/-- A loop that goes on after a call does to its sink what the call and the rest of the loop do. -/
theorem absorb_pumped_of_moved {loop : EngineLoop} {state next : engine.State} {input : List UInt8}
    {progress : Progress} (called : engine.call state loop.flush input room = .ok (next, progress))
    (more : loop.stops (input.drop progress.consumed) progress = none) (moved : ¬ progress.isStuck)
    (sink : Sink) :
    sink.absorb (loop.pumped engine room state input)
      = match sink.write progress.produced with
        | (left, .ok ()) => left.absorb (loop.pumped engine room next (input.drop progress.consumed))
        | (left, .error fault) => (left, .error fault) := by
  rw [pumped_of_moved called more moved, Sink.absorb_andThen, Sink.absorb]
  dsimp only
  rcases sink.write progress.produced with ⟨left, fault | _⟩
  · rfl
  · rfl

/-- How a loop can be over: with a call that it stops at, with one that the engine fails in, or with one
that gets nowhere. Here the engine is in the middle of a stream, and has taken this much of it by then. -/
inductive LastCall (loop : EngineLoop) (engine : Engine) (room : Nat) (state : engine.State)
    (left : List UInt8) : Except Fault (engine.State × Bool) → (produced : List UInt8) → Prop
  | stopped {next : engine.State} {progress : Progress} {answer : Bool}
      (called : engine.call state loop.flush left room = .ok (next, progress))
      (last : loop.stops (left.drop progress.consumed) progress = some answer) :
      LastCall loop engine room state left (.ok (next, answer)) progress.produced
  | failed {text : String} (called : engine.call state loop.flush left room = .error text) :
      LastCall loop engine room state left (.error (loop.blame text)) []
  | stuck {next : engine.State} {progress : Progress}
      (called : engine.call state loop.flush left room = .ok (next, progress))
      (more : loop.stops (left.drop progress.consumed) progress = none) (stuck : progress.isStuck) :
      LastCall loop engine room state left (.error (loop.blame loop.stuck)) []

/-- In the middle of a stream, a loop goes on with the stream until its last call. -/
theorem exists_last_call {start state : engine.State} {received left handed : List UInt8}
    (run : engine.Run start room loop.flush state received left handed) :
    ∃ last rest before produced, engine.Run start room loop.flush last received rest before
      ∧ LastCall loop engine room last rest (loop.pumped engine room state left).result produced
      ∧ handed ++ (loop.pumped engine room state left).bytes = before ++ produced := by
  cases called : engine.call state loop.flush left room with
  | error text =>
    rw [pumped_of_error called]
    exact ⟨state, left, handed, [], run, .failed called, rfl⟩
  | ok answer =>
    obtain ⟨next, progress⟩ := answer
    cases stopped : loop.stops (left.drop progress.consumed) progress with
    | some answer =>
      rw [pumped_of_stops called stopped]
      exact ⟨state, left, handed, progress.produced, run, .stopped called stopped, rfl⟩
    | none =>
      by_cases stuck : progress.isStuck
      · rw [pumped_of_stuck called stopped stuck]
        exact ⟨state, left, handed, [], run, .stuck called stopped stuck, rfl⟩
      · have shorter := engine.appetite_lt called stuck
        obtain ⟨last, rest, before, produced, run', ended, bytes⟩ := exists_last_call (run.call called)
        rw [pumped_of_moved called stopped stuck, Emission.andThen_ok, ← List.append_assoc]
        exact ⟨last, rest, before, produced, run', ended, bytes⟩
  termination_by engine.appetite state left
  decreasing_by exact shorter

end EngineLoop

section Loops

variable [Host] (config : FlateConfig)

/-- Compressing a block emits what its loop does. -/
theorem emits_compressBlock (engine : Host.Deflater) (input : List UInt8) :
    Emits (compressBlock config engine input)
      (((EngineLoop.compressing config.bufferSize).pumped Host.deflating config.bufferSize engine
        input).map Prod.fst) := by
  intro sink
  rw [compressBlock, Sink.absorb_map]
  split
  next text failed =>
    rw [EngineLoop.pumped_of_error failed, Sink.absorb_quiet]
    rfl
  next next progress called =>
    by_cases last : input.drop progress.consumed = [] ∧ progress.produced.length < config.bufferSize
    · rw [EngineLoop.pumped_of_stops called (if_pos last), Sink.absorb]
      rcases sink.write progress.produced with ⟨left, fault | _⟩
      · rfl
      · exact if_pos last
    · by_cases stuck : progress.isStuck
      · rw [EngineLoop.pumped_of_stuck called (if_neg last) stuck, Sink.absorb_quiet, stuck.2,
          Sink.write_nil]
        dsimp only
        rw [stuck.2] at last
        rw [if_neg last, dif_pos stuck]
        rfl
      · have shorter := Host.deflating.appetite_lt called stuck
        rw [EngineLoop.absorb_pumped_of_moved called (if_neg last) stuck]
        rcases sink.write progress.produced with ⟨left, fault | _⟩
        · rfl
        · have onward := emits_compressBlock next (input.drop progress.consumed) left
          rw [Sink.absorb_map] at onward
          dsimp only
          rw [if_neg last, dif_neg stuck, onward]
  termination_by Host.deflating.appetite engine input
  decreasing_by exact shorter

/-- Finishing emits what its loop does. -/
theorem emits_finishCompress (engine : Host.Deflater) :
    Emits (finishCompress config engine)
      ((EngineLoop.finishing.pumped Host.deflating config.bufferSize engine []).map fun _ => ()) := by
  intro sink
  rw [finishCompress, Sink.absorb_map]
  split
  next text failed =>
    rw [EngineLoop.pumped_of_error failed, Sink.absorb_quiet]
    rfl
  next next progress called =>
    cases ended : progress.ended with
    | true =>
      rw [EngineLoop.pumped_of_stops called (if_pos ended), Sink.absorb]
      rcases sink.write progress.produced with ⟨left, fault | _⟩
      · rfl
      · rfl
    | false =>
      have more : EngineLoop.finishing.stops (List.drop progress.consumed []) progress = none :=
        if_neg (Bool.eq_false_iff.mp ended)
      -- There is no input to take, so a call that puts nothing out gets nowhere.
      by_cases nothing : progress.produced = []
      · have stuck : progress.isStuck :=
          ⟨Nat.eq_zero_of_le_zero (Host.deflating.consumed_le called), nothing⟩
        have written : sink.write progress.produced = (sink, .ok ()) := by
          rw [nothing, Sink.write_nil]
        rw [EngineLoop.pumped_of_stuck called more stuck, Sink.absorb_quiet, written]
        exact dif_pos nothing
      · have moved : ¬ progress.isStuck := fun both => nothing both.2
        have shorter : Host.deflating.appetite next [] < Host.deflating.appetite engine [] := by
          have less := Host.deflating.appetite_lt called moved
          rwa [List.drop_nil] at less
        rw [EngineLoop.absorb_pumped_of_moved called more moved, List.drop_nil]
        rcases sink.write progress.produced with ⟨left, fault | _⟩
        · rfl
        · have onward := emits_finishCompress next left
          rw [Sink.absorb_map] at onward
          dsimp only
          rw [if_neg Bool.false_ne_true, dif_neg nothing, onward]
  termination_by Host.deflating.appetite engine []
  decreasing_by exact shorter

/-- Inflating a block emits what its loop does. -/
theorem emits_decompressBlock (engine : Host.Inflater) (input : List UInt8) :
    Emits (decompressBlock config engine input)
      ((EngineLoop.inflating config.bufferSize).pumped Host.inflating config.bufferSize engine input) := by
  intro sink
  rw [decompressBlock]
  split
  next text failed =>
    rw [EngineLoop.pumped_of_error failed, Sink.absorb_quiet]
    rfl
  next next progress called =>
    cases ended : progress.ended with
    | true =>
      rw [EngineLoop.pumped_of_stops called (if_pos ended), Sink.absorb]
      rcases sink.write progress.produced with ⟨left, fault | _⟩
      · rfl
      · rfl
    | false =>
      have unended := Bool.eq_false_iff.mp ended
      by_cases last : input.drop progress.consumed = [] ∧ progress.produced.length < config.bufferSize
      · rw [EngineLoop.pumped_of_stops called ((if_neg unended).trans (if_pos last)), Sink.absorb]
        rcases sink.write progress.produced with ⟨left, fault | _⟩
        · rfl
        · exact if_pos last
      · have more : (EngineLoop.inflating config.bufferSize).stops (input.drop progress.consumed) progress
            = none := (if_neg unended).trans (if_neg last)
        by_cases stuck : progress.isStuck
        · rw [EngineLoop.pumped_of_stuck called more stuck, Sink.absorb_quiet, stuck.2, Sink.write_nil]
          dsimp only
          rw [stuck.2] at last
          rw [if_neg Bool.false_ne_true, if_neg last, dif_pos stuck]
          rfl
        · have shorter := Host.inflating.appetite_lt called stuck
          rw [EngineLoop.absorb_pumped_of_moved called more stuck]
          rcases sink.write progress.produced with ⟨left, fault | _⟩
          · rfl
          · have onward := emits_decompressBlock next (input.drop progress.consumed) left
            dsimp only
            rw [if_neg Bool.false_ne_true, if_neg last, dif_neg stuck, onward]
  termination_by Host.inflating.appetite engine input
  decreasing_by exact shorter

end Loops

end PdfFilters

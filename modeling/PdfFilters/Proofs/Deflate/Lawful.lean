import PdfFilters.Deflate.Engine
import PdfFilters.Proofs.Deflate.Growth
import PdfFilters.Proofs.Deflate.Inverse
import PdfFilters.Proofs.EngineLaws

/-!
# The engines of the library

What is assumed of engines holds of those that the library brings along, in calls with any room at all:
they compress at every level (`Host.compresses_builtIn`), and inflate (`Host.inflates_builtIn`) what they
compress to the data (`Host.restores_builtIn`). The format is what the machine `Inflate` says of a stream
that it takes bit by bit (`Inflate.inflation`).

For both engines there is an invariant that every call keeps, and so every run. Together with what has been
handed over, what is due is the output of the machine for all that has been taken
(`Inflater.Keeps`, `Deflater.Keeps`).
-/

namespace PdfFilters

/-- What a stream comes to. -/
def Inflate.inflation (stream : List UInt8) : Inflation :=
  let machine := start.feed stream
  if machine.isBad then .refused Inflater.corrupt
  else if machine.isDone then .finished machine.output.toList
  else .unfinished machine.output.toList

namespace Inflate

variable {stream : List UInt8}

theorem isBad_of_isDone {state : Inflate} (ended : state.isDone = true) : state.isBad = false := by
  obtain ⟨task, lastBlock, taken, output⟩ := state
  cases task with
  | done => rfl
  | _ => cases ended

theorem inflation_of_isBad (bad : (start.feed stream).isBad = true) :
    inflation stream = .refused Inflater.corrupt :=
  if_pos bad

theorem inflation_of_isDone (ended : (start.feed stream).isDone = true) :
    inflation stream = .finished (start.feed stream).output.toList := by
  rw [inflation, if_neg (Bool.eq_false_iff.mp (isBad_of_isDone ended)), if_pos ended]

theorem inflation_of_underway (sound : (start.feed stream).isBad = false)
    (more : (start.feed stream).isDone = false) :
    inflation stream = .unfinished (start.feed stream).output.toList := by
  rw [inflation, if_neg (Bool.eq_false_iff.mp sound), if_neg (Bool.eq_false_iff.mp more)]

/-- Nothing comes behind the end of a stream. -/
theorem inflation_append_of_finished {output : List UInt8} (known : inflation stream = .finished output)
    (more : List UInt8) : inflation (stream ++ more) = .finished output := by
  cases sound : (start.feed stream).isBad with
  | true => cases (inflation_of_isBad sound).symm.trans known
  | false =>
    cases ended : (start.feed stream).isDone with
    | false => cases (inflation_of_underway sound ended).symm.trans known
    | true =>
      have same : start.feed (stream ++ more) = start.feed stream := by
        rw [feed_append, feed_of_isDone ended]
      rw [← known, inflation, inflation, same]

theorem inflation_append_of_refused {text : String} (known : inflation stream = .refused text)
    (more : List UInt8) : inflation (stream ++ more) = .refused text := by
  cases bad : (start.feed stream).isBad with
  | false =>
    cases ended : (start.feed stream).isDone with
    | true => cases (inflation_of_isDone ended).symm.trans known
    | false => cases (inflation_of_underway bad ended).symm.trans known
  | true =>
    have same : start.feed (stream ++ more) = start.feed stream := by
      rw [feed_append, feed_of_isBad bad]
    rw [← known, inflation, inflation, same]

/-- A compressed stream inflates to its data. -/
theorem inflation_compress (level : Nat) (data : Array UInt8) :
    inflation (compress level data) = .finished data.toList := by
  obtain ⟨ended, output⟩ := feed_compress level data
  rw [inflation_of_isDone ended, output]

/-- What has been put out since then stands behind what had been put out. -/
theorem toList_output_feed (machine : Inflate) (block : List UInt8) :
    (machine.feed block).output.toList
      = machine.output.toList ++ (machine.feed block).freshFrom machine.output.size := by
  obtain ⟨fresh, grown⟩ := machine.grows_feed block
  simp [freshFrom, grown]

end Inflate

/-- With room for some bytes, only nothing leaves nothing to hand over. -/
theorem eq_nil_of_take_eq_nil {room : Nat} (pos : 0 < room) {bytes : List UInt8}
    (none : bytes.take room = []) : bytes = [] := by
  rcases List.take_eq_nil_iff.mp none with zero | none
  · omega
  · exact none

namespace Inflater

variable {engine next : Inflater} {left : List UInt8} {room : Nat} {progress : Progress}

/-- What a call answers, in terms of what it leaves: output that there was no room for is due then. -/
theorem of_inflate (called : engine.inflate left room = .ok (next, progress)) :
    progress.ended = (next.machine.isDone && next.due.isEmpty)
      ∧ (progress.produced.length < room → next.due = []) := by
  have handed {machine : Inflate} {due : List UInt8} {consumed : Nat}
      (same : (next, progress) = handOver machine due room consumed) :
      progress.ended = (next.machine.isDone && next.due.isEmpty)
        ∧ (progress.produced.length < room → next.due = []) := by
    cases same
    refine ⟨rfl, fun few => ?_⟩
    rw [List.length_take] at few
    rw [List.drop_eq_nil_iff]
    omega
  obtain ⟨machine, due⟩ := engine
  rcases cases_of_inflate called with ⟨-, same⟩ | ⟨-, -, same⟩ | ⟨-, -, _, -, -, same⟩
  · exact handed same
  · exact handed same
  · exact handed same

/-- The engine in the middle of a stream: with the input that is left, its machine goes where the whole
stream leads. As long as nothing has been wrong, all output has been handed over or is due; something is
left over of a stream in which something was wrong. -/
structure Keeps (received left handed : List UInt8) (engine : Inflater) : Prop where
  feed_eq : engine.machine.feed left = Inflate.start.feed received
  output_eq : engine.machine.isBad = false → handed ++ engine.due = engine.machine.output.toList
  left_ne_nil : engine.machine.isBad = true → left ≠ []

namespace Keeps

variable {received handed : List UInt8}

theorem start : Keeps [] [] [] ⟨.start, []⟩ where
  feed_eq := rfl
  output_eq _ := rfl
  left_ne_nil bad := by cases bad

theorem receive (keeps : Keeps received left handed engine) (bytes : List UInt8) :
    Keeps (received ++ bytes) (left ++ bytes) handed engine where
  feed_eq := by rw [Inflate.feed_append, keeps.feed_eq, ← Inflate.feed_append]
  output_eq := keeps.output_eq
  left_ne_nil bad none := keeps.left_ne_nil bad (List.append_eq_nil_iff.mp none).1

theorem call (keeps : Keeps received left handed engine)
    (called : engine.inflate left room = .ok (next, progress)) :
    Keeps received (left.drop progress.consumed) (handed ++ progress.produced) next := by
  obtain ⟨machine, due⟩ := engine
  obtain ⟨feed_eq, output_eq, left_ne_nil⟩ := keeps
  rcases cases_of_inflate called with ⟨-, same⟩ | ⟨rfl, sound, same⟩ | ⟨rfl, bad, some, -, -, same⟩
  · cases same
    refine ⟨feed_eq, fun sound => ?_, left_ne_nil⟩
    rw [List.append_assoc, List.take_append_drop]
    exact output_eq sound
  · cases same
    have before : machine.isBad = false := by
      rw [Bool.eq_false_iff]
      intro bad
      rw [Inflate.feed_of_isBad bad, bad] at sound
      cases sound
    refine ⟨(feed_left machine left).trans feed_eq, fun _ => ?_, fun bad => ?_⟩
    · have earlier := output_eq before
      rw [List.append_nil] at earlier
      rw [List.append_assoc, List.take_append_drop, machine.toList_output_feed, earlier]
    · cases sound.symm.trans bad
  · cases same
    refine ⟨?_, fun sound => ?_, fun _ none => ?_⟩
    · rw [Inflate.feed_of_isBad bad]
      exact feed_eq
    · cases bad.symm.trans sound
    · -- Without any input the machine would have been corrupt before.
      obtain rfl : left = [] := none
      exact left_ne_nil bad rfl

/-- Every run of calls keeps this up. -/
theorem of_run {start state : Inflater.engine.State} (fresh : start = Inflater.mk .start [])
    {flush : Flush} (run : Inflater.engine.Run start room flush state received left handed) :
    Keeps received left handed state := by
  induction run with
  | start =>
    rw [fresh]
    exact Keeps.start
  | receive bytes _ ih => exact ih.receive bytes
  | finish _ ih => exact ih
  | call _ called ih => exact ih.call called

variable (keeps : Keeps received left handed engine)

include keeps

theorem inflation_of_error {text : String} (failed : engine.inflate left room = .error text) :
    Inflate.inflation received = .refused text := by
  obtain ⟨bad, rfl⟩ := error_of_inflate failed
  rw [keeps.feed_eq] at bad
  exact Inflate.inflation_of_isBad bad

theorem inflation_of_ended (called : engine.inflate left room = .ok (next, progress))
    (ended : progress.ended = true) :
    Inflate.inflation received = .finished (handed ++ progress.produced) := by
  obtain ⟨feed_eq, output_eq, -⟩ := keeps.call called
  rw [(of_inflate called).1, Bool.and_eq_true, List.isEmpty_iff] at ended
  obtain ⟨complete, none⟩ := ended
  rw [Inflate.feed_of_isDone complete] at feed_eq
  have all := output_eq (Inflate.isBad_of_isDone complete)
  rw [none, List.append_nil, feed_eq] at all
  rw [feed_eq] at complete
  rw [Inflate.inflation_of_isDone complete, all]

theorem inflation_of_settled (called : engine.inflate left room = .ok (next, progress))
    (more : progress.ended = false) (taken : left.drop progress.consumed = [])
    (few : progress.produced.length < room) :
    Inflate.inflation received = .unfinished (handed ++ progress.produced) := by
  obtain ⟨feed_eq, output_eq, left_ne_nil⟩ := keeps.call called
  obtain ⟨ended_eq, due_eq⟩ := of_inflate called
  have none := due_eq few
  have same : next.machine = Inflate.start.feed received := by
    rw [taken] at feed_eq
    exact feed_eq
  have sound : next.machine.isBad = false := by
    rw [Bool.eq_false_iff]
    intro bad
    exact left_ne_nil bad taken
  have open' : next.machine.isDone = false := by
    rw [ended_eq, none, List.isEmpty_nil, Bool.and_true] at more
    exact more
  have all := output_eq sound
  rw [none, List.append_nil, same] at all
  rw [same] at sound open'
  rw [Inflate.inflation_of_underway sound open', all]

end Keeps

/-- A call with room only gets nowhere at the end of the input or of the stream. -/
theorem left_eq_nil_of_isStuck (pos : 0 < room)
    (called : engine.inflate left room = .ok (next, progress)) (more : progress.ended = false)
    (stuck : progress.isStuck) : left = [] := by
  obtain ⟨machine, due⟩ := engine
  rcases cases_of_inflate called with ⟨some, same⟩ | ⟨-, -, same⟩ | ⟨-, -, due, some, -, same⟩
  · cases same
    exact absurd (eq_nil_of_take_eq_nil pos stuck.2) some
  · -- The machine has taken what there is, or it is done, and then the stream has ended.
    cases same
    have consumed : left.length - (machine.advance left).2.length = 0 := stuck.1
    have drained : ((machine.feed left).freshFrom machine.output.size).drop room = [] := by
      rw [eq_nil_of_take_eq_nil pos stuck.2, List.drop_nil]
    obtain ⟨taken, all, rest, -⟩ := machine.exists_of_advance left
    rcases rest with none | complete
    · rw [none, List.length_nil, Nat.sub_zero] at consumed
      exact List.eq_nil_of_length_eq_zero consumed
    · have ended : ((machine.feed left).isDone
          && (((machine.feed left).freshFrom machine.output.size).drop room).isEmpty) = false := more
      rw [complete, drained] at ended
      cases ended
  · cases same
    exact absurd (eq_nil_of_take_eq_nil pos stuck.2) some

end Inflater

namespace Deflater

variable {engine next : Deflater} {received left handed : List UInt8} {room level : Nat}
  {progress : Progress}

/-- The engine in the middle of a stream: together with what has been handed over, what is ready is the
output of the machine for all data that have been taken; or it is the whole stream, once the engine has
been told to finish it. -/
def Keeps (level : Nat) (flush : Flush) (received left handed : List UInt8) : Deflater → Prop
  | .gathering machine ready =>
    (machine.feed left).1 = ((Deflate.start level).feed received).1
      ∧ handed ++ (ready ++ (machine.feed left).2) = ((Deflate.start level).feed received).2
  | .draining ready => flush = .finish ∧ handed ++ ready = compress level received.toArray

/-- What is due when the data end is the rest of the stream. -/
theorem Keeps.append_due {flush : Flush} (keeps : Keeps level flush received left handed engine) :
    handed ++ engine.due left = compress level received.toArray := by
  cases engine with
  | draining ready => exact keeps.2
  | gathering machine ready =>
    obtain ⟨same, output⟩ := keeps
    rw [due, same, ← List.append_assoc, output]
    rfl

theorem Keeps.receive (keeps : Keeps level .more received left handed engine) (bytes : List UInt8) :
    Keeps level .more (received ++ bytes) (left ++ bytes) handed engine := by
  cases engine with
  | draining ready => cases keeps.1
  | gathering machine ready =>
    obtain ⟨same, output⟩ := keeps
    refine ⟨?_, ?_⟩
    · rw [Deflate.feed_append, Deflate.feed_append, same]
    · rw [Deflate.feed_append, Deflate.feed_append, same, ← output]
      simp only [List.append_assoc]

theorem Keeps.gather (keeps : Keeps level .more received left handed engine)
    (same : engine.gather left room = (next, progress)) :
    Keeps level .more received (left.drop progress.consumed) (handed ++ progress.produced) next := by
  match engine with
  | .draining ready => cases keeps.1
  | .gathering machine (byte :: ready) =>
    cases same
    refine ⟨keeps.1, ?_⟩
    rw [List.append_assoc, ← List.append_assoc ((byte :: ready).take room), List.take_append_drop]
    exact keeps.2
  | .gathering machine [] =>
    obtain ⟨taken, all, -⟩ := machine.exists_of_advance left
    have fed := machine.feed_eq_advance left
    rcases advanced : machine.advance left with ⟨after, ready, rest⟩
    rw [advanced] at all fed
    have onward : left.drop (left.length - rest.length) = rest := by
      rw [all, List.length_append, Nat.add_sub_cancel]
      exact List.drop_left
    simp only [Deflater.gather, advanced, handOver] at same
    cases same
    obtain ⟨machine_eq, output⟩ := keeps
    rw [fed] at machine_eq output
    rw [onward]
    refine ⟨machine_eq, ?_⟩
    rw [List.append_assoc, ← List.append_assoc (ready.take room), List.take_append_drop]
    exact output

/-- Telling the engine to finish hands over the end of the stream. -/
theorem Keeps.finish {flush : Flush} (keeps : Keeps level flush received [] handed engine) :
    Keeps level .finish received [] (handed ++ (engine.finish [] room).2.produced)
      (engine.finish [] room).1 := by
  have whole := keeps.append_due
  refine ⟨rfl, ?_⟩
  rw [← whole, List.append_assoc]
  exact congrArg (handed ++ ·) (List.take_append_drop room (engine.due []))

/-- Every run of calls keeps this up. -/
theorem Keeps.of_run {start state : Deflater.engine.State}
    (fresh : start = Deflater.gathering (.start level) []) {flush : Flush}
    (run : Deflater.engine.Run start room flush state received left handed) :
    Keeps level flush received left handed state := by
  induction run with
  | start =>
    rw [fresh]
    exact ⟨rfl, rfl⟩
  | receive bytes _ ih => exact ih.receive bytes
  | @finish state received handed _ ih =>
    cases state with
    | gathering => exact ih
    | draining => cases ih.1
  | @call flush state next received left handed progress run called ih =>
    cases flush with
    | more => exact ih.gather (Except.ok.inj called)
    | finish =>
      obtain rfl := run.left_eq_nil
      cases called
      exact ih.finish

/-- A call with room only gets nowhere for want of data. -/
theorem Keeps.left_eq_nil_of_isStuck (pos : 0 < room)
    (keeps : Keeps level .more received left handed engine)
    (same : engine.gather left room = (next, progress)) (stuck : progress.isStuck) : left = [] := by
  match engine with
  | .draining ready => cases keeps.1
  | .gathering machine (byte :: ready) =>
    cases same
    cases eq_nil_of_take_eq_nil pos stuck.2
  | .gathering machine [] =>
    obtain ⟨taken, all, some⟩ := machine.exists_of_advance left
    rcases advanced : machine.advance left with ⟨after, ready, rest⟩
    rw [advanced] at all
    simp only [Deflater.gather, advanced, handOver] at same
    cases same
    have consumed : left.length - rest.length = 0 := stuck.1
    have length : left.length = taken.length + rest.length := by rw [all, List.length_append]
    exact some (List.eq_nil_of_length_eq_zero (by omega))

end Deflater

namespace Host

variable {room : Nat} (pos : 0 < room)

include pos

theorem inflates_builtIn : Host.builtIn.Inflates Inflate.inflation room where
  format_nil := rfl
  format_append_of_finished more known := Inflate.inflation_append_of_finished known more
  format_append_of_refused more known := Inflate.inflation_append_of_refused known more
  refuses run failed := (Inflater.Keeps.of_run rfl run).inflation_of_error failed
  finishes run called ended := (Inflater.Keeps.of_run rfl run).inflation_of_ended called ended
  settles run called more taken few :=
    (Inflater.Keeps.of_run rfl run).inflation_of_settled called more taken few
  moves _ called more stuck := ⟨Inflater.left_eq_nil_of_isStuck pos called more stuck, pos⟩

theorem compresses_builtIn (level : Nat) : Host.builtIn.Compresses level room where
  answers {flush _ _ _ _} _ := by
    cases flush with
    | more => exact ⟨_, _, rfl⟩
    | finish => exact ⟨_, _, rfl⟩
  moves run called stuck :=
    ⟨(Deflater.Keeps.of_run rfl run).left_eq_nil_of_isStuck pos (Except.ok.inj called) stuck, pos⟩
  finishes {state next _ _ progress} _ called more := by
    cases called
    intro nothing
    have ended : ((Deflater.due state []).drop room).isEmpty = false := more
    rw [eq_nil_of_take_eq_nil pos nothing, List.drop_nil] at ended
    cases ended

omit pos

theorem restores_builtIn (level : Nat) : Host.builtIn.Restores Inflate.inflation level room where
  format_of_ended {state next received handed progress} run called ended := by
    cases called
    have whole := (Deflater.Keeps.of_run rfl run).append_due
    have all : (Deflater.due state []).take room = Deflater.due state [] := by
      have none : (Deflater.due state []).drop room = [] := List.isEmpty_iff.mp ended
      have parts := List.take_append_drop room (Deflater.due state [])
      rwa [none, List.append_nil] at parts
    show Inflate.inflation (handed ++ (Deflater.due state []).take room) = _
    rw [all, whole, Inflate.inflation_compress]

end Host

end PdfFilters

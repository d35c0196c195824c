import PdfFilters.Proofs.EngineLoops

/-!
# What is assumed of engines

The engines are not part of the library, so what filters make of a stream can only be said under
assumptions. These are about single calls in the middle of a stream, and always about calls with as much
room as the filter has in its buffer.

An engine inflates a format (`Host.Inflates`) if the bytes of the stream that have come so far tell what it
puts out and whether it objects, however they came, and if it gets somewhere as long as it can. Then the
loop around it emits what the format says (`Host.Inflates.follows_pumped`), so blocks can be cut anywhere
(`Host.Inflates.cuttable`).

An engine compresses (`Host.Compresses`) if it never fails, gets somewhere, and comes to an end: then so do
the loops (`Host.Compresses.exists_compressedTo`). It does so in a format (`Host.Restores`) if the finished
stream inflates to the data.

Without any room no engine satisfies this (`Host.Inflates.room_pos`, `Host.Compresses.room_pos`). Then
compressing a block always fails (`exists_deflated_error_of_no_room`), and inflating even an empty one does,
if only the engine does not end a stream of which nothing has come (`exists_inflated_error_of_no_room`).
-/

namespace PdfFilters

/-- What a stream comes to that has come so far. -/
inductive Inflation where
  /-- More of it may follow. -/
  | unfinished (output : List UInt8)
  | finished (output : List UInt8)
  /-- It is not in the format. -/
  | refused (text : String)

/-- What a caller has of the stream if no more of it comes. -/
def Inflation.output : Inflation → Except Fault (List UInt8)
  | .unfinished output => .ok output
  | .finished output => .ok output
  | .refused text => .error (.inflating text)

/-- The engine inflates a format in calls with room for so many bytes: all depends on the bytes that have
come so far, and not on how they came. -/
structure Host.Inflates [Host] (format : List UInt8 → Inflation) (room : Nat) : Prop where
  format_nil : format [] = .unfinished []
  /-- What comes behind the end is not looked at. -/
  format_append_of_finished {stream output : List UInt8} (more : List UInt8) :
    format stream = .finished output → format (stream ++ more) = .finished output
  /-- What is refused stays so. -/
  format_append_of_refused {stream : List UInt8} {text : String} (more : List UInt8) :
    format stream = .refused text → format (stream ++ more) = .refused text
  /-- The engine fails only if the stream is refused. -/
  refuses {state : Host.Inflater} {received left handed : List UInt8} {text : String} :
    Host.inflating.Run Host.newInflater room .more state received left handed →
    Host.inflating.call state .more left room = .error text → format received = .refused text
  /-- It ends the stream where that ends, with all output. -/
  finishes {state next : Host.Inflater} {received left handed : List UInt8} {progress : Progress} :
    Host.inflating.Run Host.newInflater room .more state received left handed →
    Host.inflating.call state .more left room = .ok (next, progress) → progress.ended = true →
    format received = .finished (handed ++ progress.produced)
  /-- An engine that has taken all input and does not use all the room has nothing left to put out. -/
  settles {state next : Host.Inflater} {received left handed : List UInt8} {progress : Progress} :
    Host.inflating.Run Host.newInflater room .more state received left handed →
    Host.inflating.call state .more left room = .ok (next, progress) → progress.ended = false →
    left.drop progress.consumed = [] → progress.produced.length < room →
    format received = .unfinished (handed ++ progress.produced)
  /-- In the middle of the stream it gets nowhere only for want of input, and never for want of room. -/
  moves {state next : Host.Inflater} {received left handed : List UInt8} {progress : Progress} :
    Host.inflating.Run Host.newInflater room .more state received left handed →
    Host.inflating.call state .more left room = .ok (next, progress) → progress.ended = false →
    progress.isStuck → left = [] ∧ 0 < room

/-- The engine compresses at a level, in calls with room for so many bytes. -/
structure Host.Compresses [Host] (level room : Nat) : Prop where
  /-- It never fails. -/
  answers {flush : Flush} {state : Host.Deflater} {received left handed : List UInt8} :
    Host.deflating.Run (Host.newDeflater level) room flush state received left handed →
    ∃ next progress, Host.deflating.call state flush left room = .ok (next, progress)
  /-- It gets nowhere only for want of input, and never for want of room, -/
  moves {state next : Host.Deflater} {received left handed : List UInt8} {progress : Progress} :
    Host.deflating.Run (Host.newDeflater level) room .more state received left handed →
    Host.deflating.call state .more left room = .ok (next, progress) → progress.isStuck →
    left = [] ∧ 0 < room
  /-- and not at all if the stream is to be finished. -/
  finishes {state next : Host.Deflater} {received handed : List UInt8} {progress : Progress} :
    Host.deflating.Run (Host.newDeflater level) room .finish state received [] handed →
    Host.deflating.call state .finish [] room = .ok (next, progress) → progress.ended = false →
    progress.produced ≠ []

/-- What the engine compresses at a level is in a format, and inflates to the data. -/
structure Host.Restores [Host] (format : List UInt8 → Inflation) (level room : Nat) : Prop where
  format_of_ended {state next : Host.Deflater} {received handed : List UInt8} {progress : Progress} :
    Host.deflating.Run (Host.newDeflater level) room .finish state received [] handed →
    Host.deflating.call state .finish [] room = .ok (next, progress) → progress.ended = true →
    format (handed ++ progress.produced) = .finished received

section Room

variable [Host]

/-- No engine inflates without room for output. -/
theorem Host.Inflates.room_pos {format : List UInt8 → Inflation} {room : Nat}
    (inflates : Host.Inflates format room) : 0 < room := by
  have fresh : Host.inflating.Run Host.newInflater room .more Host.newInflater [] [] [] := .start
  cases called : Host.inflating.call Host.newInflater .more [] room with
  | error text => cases inflates.format_nil.symm.trans (inflates.refuses fresh called)
  | ok answer =>
    obtain ⟨next, progress⟩ := answer
    cases ended : progress.ended with
    | true => cases inflates.format_nil.symm.trans (inflates.finishes fresh called ended)
    | false =>
      have taken : progress.consumed = 0 :=
        Nat.eq_zero_of_le_zero (Host.inflating.consumed_le called)
      by_cases nothing : progress.produced = []
      · exact (inflates.moves fresh called ended ⟨taken, nothing⟩).2
      · have few := Host.inflating.produced_le called
        have some := List.length_pos_iff.mpr nothing
        omega

/-- No engine compresses without room for output. -/
theorem Host.Compresses.room_pos {level room : Nat} (compresses : Host.Compresses level room) :
    0 < room := by
  have fresh : Host.deflating.Run (Host.newDeflater level) room .more (Host.newDeflater level) [] [] [] :=
    .start
  obtain ⟨next, progress, called⟩ := compresses.answers fresh
  have taken : progress.consumed = 0 := Nat.eq_zero_of_le_zero (Host.deflating.consumed_le called)
  by_cases nothing : progress.produced = []
  · exact (compresses.moves fresh called ⟨taken, nothing⟩).2
  · have few := Host.deflating.produced_le called
    have some := List.length_pos_iff.mpr nothing
    omega

end Room

section Inflating

variable [Host] {format : List UInt8 → Inflation} {room : Nat}

/-- What a filter emits for a block that it inflates. Once the stream has ended, nothing is looked at. -/
def inflated (room : Nat) (state : Host.Inflater × Bool) (block : List UInt8) :
    Emission (Host.Inflater × Bool) :=
  if state.2 then .quiet (.ok state)
  else (EngineLoop.inflating room).pumped Host.inflating room state.1 block

/-- Without any room an empty block is a failure, unless the engine ends the stream without a byte of it. -/
theorem exists_inflated_error_of_no_room
    (waits : ∀ next progress, Host.inflating.call Host.newInflater .more [] 0 = .ok (next, progress) →
      progress.ended = false) :
    ∃ text, inflated 0 (Host.newInflater, false) [] = .quiet (.error (.inflating text)) := by
  unfold inflated
  rw [if_neg Bool.false_ne_true]
  cases called : Host.inflating.call Host.newInflater .more [] 0 with
  | error text => exact ⟨text, EngineLoop.pumped_of_error called⟩
  | ok answer =>
    obtain ⟨next, progress⟩ := answer
    have nothing : progress.produced = [] :=
      List.eq_nil_of_length_eq_zero (Nat.eq_zero_of_le_zero (Host.inflating.produced_le called))
    have stuck : progress.isStuck :=
      ⟨Nat.eq_zero_of_le_zero (Host.inflating.consumed_le called), nothing⟩
    -- The loop does not stop either, because a buffer without room counts as full.
    have more : (EngineLoop.inflating 0).stops (List.drop progress.consumed []) progress = none := by
      rw [EngineLoop.inflating_stops_of_not_ended (waits next progress called)]
      exact if_neg fun both => Nat.not_lt_zero _ both.2
    exact ⟨_, EngineLoop.pumped_of_stuck called more stuck⟩

/-- A filter between two blocks: the engine has taken all the stream that has come, and has put out all that
the format says. -/
inductive Reached (format : List UInt8 → Inflation) (room : Nat) :
    (received : List UInt8) → Host.Inflater × Bool → (handed : List UInt8) → Prop
  | underway {state : Host.Inflater} {received handed : List UInt8}
      (run : Host.inflating.Run Host.newInflater room .more state received [] handed)
      (known : format received = .unfinished handed) : Reached format room received (state, false) handed
  | past {state : Host.Inflater} {received handed : List UInt8}
      (known : format received = .finished handed) : Reached format room received (state, true) handed

theorem Reached.output_eq {received handed : List UInt8} {state : Host.Inflater × Bool}
    (reached : Reached format room received state handed) : (format received).output = .ok handed := by
  cases reached with
  | underway _ known | past known =>
    rw [known]
    rfl

/-- What is emitted while the last bytes come is what the format says of the stream with them. -/
inductive Follows (format : List UInt8 → Inflation) (room : Nat) (received handed : List UInt8) :
    Emission (Host.Inflater × Bool) → Prop
  | reached {next : Host.Inflater × Bool} {bytes : List UInt8}
      (reached : Reached format room received next (handed ++ bytes)) :
      Follows format room received handed ⟨bytes, .ok next⟩
  | refused {text : String} {bytes : List UInt8} (known : format received = .refused text) :
      Follows format room received handed ⟨bytes, .error (.inflating text)⟩

namespace Follows

variable {received handed : List UInt8} {first second : Emission (Host.Inflater × Bool)}

/-- The format leaves no choice. -/
theorem alike (h : Follows format room received handed first)
    (h' : Follows format room received handed second) :
    Emission.Alike (fun _ _ => True) False first second := by
  cases h with
  | reached reached =>
    cases h' with
    | reached reached' =>
      have same := Except.ok.inj (reached.output_eq.symm.trans reached'.output_eq)
      obtain rfl := List.append_cancel_left same
      exact .ok trivial
    | refused known =>
      have other := reached.output_eq
      rw [known] at other
      cases other
  | refused known =>
    cases h' with
    | reached reached' =>
      have other := reached'.output_eq
      rw [known] at other
      cases other
    | refused known' =>
      obtain rfl := Inflation.refused.inj (known.symm.trans known')
      exact .error False.elim

theorem output_eq (h : Follows format room received [] first) :
    first.output = (format received).output := by
  cases h with
  | reached reached => exact reached.output_eq.symm
  | refused known =>
    rw [known]
    rfl

end Follows

namespace Host.Inflates

variable (inflates : Host.Inflates format room) {received handed : List UInt8}

include inflates

/-- The loop emits what the format says. -/
theorem follows_pumped {state : Host.Inflater} {left : List UInt8}
    (run : Host.inflating.Run Host.newInflater room .more state received left handed) :
    Follows format room received handed
      ((EngineLoop.inflating room).pumped Host.inflating room state left) := by
  obtain ⟨last, rest, before, produced, run', ended, bytes⟩ :=
    (EngineLoop.inflating room).exists_last_call run
  generalize (EngineLoop.inflating room).pumped Host.inflating room state left = emission at ended bytes
  obtain ⟨emitted, result⟩ := emission
  dsimp only at ended bytes
  cases ended with
  | failed called => exact .refused (inflates.refuses run' called)
  | @stopped next progress answer called stopped =>
    -- The loop stops at the end of the stream, or with its input used up and room to spare.
    cases ended : progress.ended with
    | true =>
      cases (EngineLoop.inflating_stops_of_ended ended).symm.trans stopped
      have known := inflates.finishes run' called ended
      rw [← bytes] at known
      exact .reached (.past known)
    | false =>
      rw [EngineLoop.inflating_stops_of_not_ended ended] at stopped
      obtain ⟨⟨none, spare⟩, same⟩ := Option.ite_none_right_eq_some.mp stopped
      cases same
      have known := inflates.settles run' called ended none spare
      have onward := run'.call called
      rw [none] at onward
      rw [← bytes] at known onward
      exact .reached (.underway onward known)
  | @stuck next progress called more stuck =>
    cases ended : progress.ended with
    | true => cases (EngineLoop.inflating_stops_of_ended ended).symm.trans more
    | false =>
      obtain ⟨none, spare⟩ := inflates.moves run' called ended stuck
      rw [EngineLoop.inflating_stops_of_not_ended ended, none, List.drop_nil, stuck.2,
        if_pos ⟨rfl, spare⟩] at more
      cases more

theorem reached_nil : Reached format room [] (Host.newInflater, false) [] :=
  .underway .start inflates.format_nil

/-- From where a filter has come, it goes on as the format says. -/
theorem follows_inflated {state : Host.Inflater × Bool}
    (reached : Reached format room received state handed) (block : List UInt8) :
    Follows format room (received ++ block) handed (inflated room state block) := by
  cases reached with
  | underway run known => exact inflates.follows_pumped (run.receive block)
  | past known =>
    refine .reached (.past ?_)
    rw [List.append_nil]
    exact inflates.format_append_of_finished block known

theorem follows_andThen {emission : Emission (Host.Inflater × Bool)}
    (h : Follows format room received handed emission) (block : List UInt8) :
    Follows format room (received ++ block) handed
      (emission.andThen fun next => inflated room next block) := by
  cases h with
  | refused known => exact .refused (inflates.format_append_of_refused block known)
  | @reached next bytes reached =>
    rw [Emission.andThen_ok]
    have onward := inflates.follows_inflated reached block
    generalize inflated room next block = emission at onward
    cases onward with
    | refused known => exact .refused known
    | reached reached' =>
      rw [List.append_assoc] at reached'
      exact .reached reached'

/-- How a stream is cut into blocks makes no difference to what is inflated. -/
theorem cuttable :
    Cuttable (inflated room) (fun state => ∃ received handed, Reached format room received state handed)
      (fun _ _ => True) False where
  occurs_of_ok {state next block} reached taken := by
    obtain ⟨received, handed, reached⟩ := reached
    have follows := inflates.follows_inflated reached block
    generalize inflated room state block = emission at follows taken
    cases follows with
    | refused => cases taken
    | reached onward =>
      cases taken
      exact ⟨_, _, onward⟩
  trans _ _ _ _ _ := trivial
  nil {state} reached := by
    obtain ⟨received, handed, reached⟩ := reached
    have follows := inflates.follows_inflated reached []
    rw [List.append_nil] at follows
    have still : Follows format room received handed (.quiet (.ok state)) :=
      .reached ((List.append_nil handed).symm ▸ reached)
    exact still.alike follows
  append {state} first second reached := by
    obtain ⟨received, handed, reached⟩ := reached
    have parts := inflates.follows_andThen (inflates.follows_inflated reached first) second
    rw [List.append_assoc] at parts
    exact parts.alike (inflates.follows_inflated reached (first ++ second))

/-- A stream that is inflated from its beginning comes to what the format says. -/
theorem output_inflated (stream : List UInt8) :
    (inflated room (Host.newInflater, false) stream).output = (format stream).output :=
  (inflates.follows_inflated inflates.reached_nil stream).output_eq

end Host.Inflates

end Inflating

section Compressing

variable [Host]

/-- What a filter emits for a block that it compresses. -/
def deflated (room : Nat) (state : Host.Deflater) (block : List UInt8) : Emission Host.Deflater :=
  ((EngineLoop.compressing room).pumped Host.deflating room state block).map Prod.fst

/-- What it emits when it finishes the stream. -/
def drained (room : Nat) (state : Host.Deflater) : Emission Unit :=
  (EngineLoop.finishing.pumped Host.deflating room state []).map fun _ => ()

variable {level room : Nat} {state : Host.Deflater} {received handed : List UInt8}

/-- A block that is compressed has been taken by the engine. -/
theorem run_of_deflated
    (run : Host.deflating.Run (Host.newDeflater level) room .more state received [] handed)
    {block bytes : List UInt8} {next : Host.Deflater}
    (fine : deflated room state block = ⟨bytes, .ok next⟩) :
    Host.deflating.Run (Host.newDeflater level) room .more next (received ++ block) []
      (handed ++ bytes) := by
  obtain ⟨last, rest, before, produced, run', ended, same⟩ :=
    (EngineLoop.compressing room).exists_last_call (run.receive block)
  unfold deflated at fine
  rw [List.nil_append] at ended same
  generalize (EngineLoop.compressing room).pumped Host.deflating room state block = emission
    at fine ended same
  obtain ⟨emitted, result⟩ := emission
  cases ended with
  | failed | stuck => cases fine
  | stopped called stopped =>
    cases fine
    obtain ⟨⟨none, -⟩, -⟩ := Option.ite_none_right_eq_some.mp stopped
    have onward := run'.call called
    dsimp only at same
    rw [none, ← same] at onward
    exact onward

/-- What has been compressed in some blocks. -/
theorem run_of_emitAll_deflated
    (run : Host.deflating.Run (Host.newDeflater level) room .more state received [] handed)
    {blocks : List (List UInt8)} {bytes : List UInt8} {next : Host.Deflater}
    (fine : emitAll (deflated room) state blocks = ⟨bytes, .ok next⟩) :
    Host.deflating.Run (Host.newDeflater level) room .more next (received ++ blocks.flatten) []
      (handed ++ bytes) := by
  induction blocks generalizing state received handed bytes with
  | nil =>
    cases fine
    rw [List.flatten_nil, List.append_nil, List.append_nil]
    exact run
  | cons block rest ih =>
    rw [emitAll] at fine
    rcases taken : deflated room state block with ⟨early, fault | middle⟩
    · rw [taken] at fine
      cases fine
    · rw [taken, Emission.andThen_ok] at fine
      rcases onward : emitAll (deflated room) middle rest with ⟨late, fault | last⟩
      · rw [onward] at fine
        cases fine
      · rw [onward] at fine
        cases fine
        have all := ih (run_of_deflated run taken) onward
        rw [List.append_assoc, List.append_assoc] at all
        exact all

/-- A stream that has been finished inflates to its data. -/
theorem Host.Restores.format_of_drained {format : List UInt8 → Inflation}
    (restores : Host.Restores format level room)
    (run : Host.deflating.Run (Host.newDeflater level) room .more state received [] handed)
    {bytes : List UInt8} (fine : drained room state = ⟨bytes, .ok ()⟩) :
    format (handed ++ bytes) = .finished received := by
  obtain ⟨last, rest, before, produced, run', ended, same⟩ :=
    EngineLoop.finishing.exists_last_call run.finish
  obtain rfl := run'.left_eq_nil
  unfold drained at fine
  generalize EngineLoop.finishing.pumped Host.deflating room state [] = emission at fine ended same
  obtain ⟨emitted, result⟩ := emission
  cases ended with
  | failed | stuck => cases fine
  | stopped called stopped =>
    cases fine
    obtain ⟨ended, -⟩ := Option.ite_none_right_eq_some.mp stopped
    dsimp only at same
    rw [same]
    exact restores.format_of_ended run' called ended

/-- What blocks are compressed to, from a new engine on. -/
def compressedTo (level room : Nat) (blocks : List (List UInt8)) : Except Fault (List UInt8) :=
  ((emitAll (deflated room) (Host.newDeflater level) blocks).andThen (drained room)).output

/-- What blocks are compressed to inflates to all of them. -/
theorem Host.Restores.format_of_compressedTo {format : List UInt8 → Inflation}
    (restores : Host.Restores format level room) {blocks : List (List UInt8)} {stream : List UInt8}
    (fine : compressedTo level room blocks = .ok stream) : format stream = .finished blocks.flatten := by
  unfold compressedTo at fine
  rcases taken : emitAll (deflated room) (Host.newDeflater level) blocks with ⟨bytes, fault | last⟩
  · rw [taken] at fine
    cases fine
  · rw [taken, Emission.andThen_ok] at fine
    rcases ended : drained room last with ⟨more, fault | _⟩
    · rw [ended] at fine
      cases fine
    · rw [ended] at fine
      cases fine
      exact restores.format_of_drained (run_of_emitAll_deflated .start taken) ended

variable (compresses : Host.Compresses level room)

include compresses

/-- An engine that compresses takes every block. -/
theorem Host.Compresses.exists_deflated
    (run : Host.deflating.Run (Host.newDeflater level) room .more state received [] handed)
    (block : List UInt8) : ∃ bytes next, deflated room state block = ⟨bytes, .ok next⟩ := by
  obtain ⟨last, rest, before, produced, run', ended, -⟩ :=
    (EngineLoop.compressing room).exists_last_call (run.receive block)
  unfold deflated
  rw [List.nil_append] at ended
  generalize (EngineLoop.compressing room).pumped Host.deflating room state block = emission at ended
  obtain ⟨emitted, result⟩ := emission
  cases ended with
  | stopped => exact ⟨_, _, rfl⟩
  | failed called =>
    obtain ⟨next, progress, called'⟩ := compresses.answers run'
    cases called.symm.trans called'
  | @stuck next progress called more stuck =>
    obtain ⟨none, spare⟩ := compresses.moves run' called stuck
    have left : rest.drop progress.consumed = [] := by rw [none, List.drop_nil]
    have few : progress.produced.length < room := by rwa [stuck.2]
    cases (if_pos ⟨left, few⟩).symm.trans more

theorem Host.Compresses.exists_emitAll_deflated
    (run : Host.deflating.Run (Host.newDeflater level) room .more state received [] handed)
    (blocks : List (List UInt8)) :
    ∃ bytes next, emitAll (deflated room) state blocks = ⟨bytes, .ok next⟩ := by
  induction blocks generalizing state received handed with
  | nil => exact ⟨[], state, rfl⟩
  | cons block rest ih =>
    obtain ⟨early, middle, taken⟩ := compresses.exists_deflated run block
    obtain ⟨late, last, onward⟩ := ih (run_of_deflated run taken)
    refine ⟨early ++ late, last, ?_⟩
    rw [emitAll, taken, Emission.andThen_ok, onward]

/-- It finishes every stream. -/
theorem Host.Compresses.exists_drained
    (run : Host.deflating.Run (Host.newDeflater level) room .more state received [] handed) :
    ∃ bytes, drained room state = ⟨bytes, .ok ()⟩ := by
  obtain ⟨last, rest, before, produced, run', ended, -⟩ :=
    EngineLoop.finishing.exists_last_call run.finish
  obtain rfl := run'.left_eq_nil
  unfold drained
  generalize EngineLoop.finishing.pumped Host.deflating room state [] = emission at ended
  obtain ⟨emitted, result⟩ := emission
  cases ended with
  | stopped => exact ⟨_, rfl⟩
  | failed called =>
    obtain ⟨next, progress, called'⟩ := compresses.answers run'
    cases called.symm.trans called'
  | @stuck next progress called more stuck =>
    cases ended : progress.ended with
    | true => cases (if_pos ended).symm.trans more
    | false => exact absurd stuck.2 (compresses.finishes run' called ended)

theorem Host.Compresses.exists_compressedTo (blocks : List (List UInt8)) :
    ∃ stream, compressedTo level room blocks = .ok stream := by
  obtain ⟨bytes, last, taken⟩ := compresses.exists_emitAll_deflated .start blocks
  obtain ⟨more, ended⟩ := compresses.exists_drained (run_of_emitAll_deflated .start taken)
  refine ⟨bytes ++ more, ?_⟩
  rw [compressedTo, taken, Emission.andThen_ok, ended]
  rfl

omit compresses

/-- Without any room, compressing a block fails, whatever the engine. -/
theorem exists_deflated_error_of_no_room (state : Host.Deflater) (block : List UInt8) :
    ∃ text, (deflated 0 state block).result = .error (.deflating text) := by
  have run : Host.deflating.Run state 0 .more state ([] ++ block) ([] ++ block) [] := .receive block .start
  obtain ⟨last, rest, before, produced, -, ended, -⟩ := (EngineLoop.compressing 0).exists_last_call run
  unfold deflated
  rw [List.nil_append] at ended
  generalize (EngineLoop.compressing 0).pumped Host.deflating 0 state block = emission at ended
  obtain ⟨emitted, result⟩ := emission
  cases ended with
  | failed | stuck => exact ⟨_, rfl⟩
  | stopped called stopped =>
    -- The loop only stops with room to spare.
    obtain ⟨⟨-, spare⟩, -⟩ := Option.ite_none_right_eq_some.mp stopped
    exact absurd spare (Nat.not_lt_zero _)

theorem exists_compressedTo_error_of_no_room (level : Nat) (block : List UInt8)
    (rest : List (List UInt8)) :
    ∃ text, compressedTo level 0 (block :: rest) = .error (.deflating text) := by
  obtain ⟨text, failed⟩ := exists_deflated_error_of_no_room (Host.newDeflater level) block
  refine ⟨text, ?_⟩
  unfold compressedTo
  rw [emitAll]
  generalize deflated 0 (Host.newDeflater level) block = emission at failed
  obtain ⟨bytes, result⟩ := emission
  cases failed
  rfl

end Compressing

end PdfFilters

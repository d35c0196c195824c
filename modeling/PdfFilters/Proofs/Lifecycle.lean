import PdfFilters.Proofs.Record

/-!
# The life of a session

A filter can be called directly, in any order, and left in the middle of anything. None of that
shows in a session that is begun on it later: it answers like on a new filter (`Filter.after`,
`Setup.abort_foldl_after`).

In a session, blocks are answered by the filter itself up to the first fault. From then on all calls
are refused, and nothing changes any more (`Session.answers_eq`). However a session is over, it
leaves its filter like new: at every moment of a session the filter would be new if it were aborted,
and it has been aborted once a call has failed (`Session.IsSettled`).
-/

namespace PdfFilters

variable [Host]

/-- A call that is made on a filter directly. -/
inductive FilterCall where
  | begin (direction : Direction) (parameters : Option Parameters)
  | block (direction : Direction) (bytes : List UInt8) (sink : Sink)
  | finish (direction : Direction) (sink : Sink)
  | abort
  | run (direction : Direction) (parameters : Option Parameters) (data : List UInt8)

/-- What a filter is set up as when it is made. -/
inductive Setup where
  | hex
  | base85
  | lzw
  | flate (config : FlateConfig)
  | runLength
  | absent (name : String) (kind : Option Kind)

/-- The new filter with this setup. -/
def Setup.filter : Setup → Filter
  | hex => .hex .idle
  | base85 => .base85 .idle
  | lzw => .lzw .idle
  | flate config => .flate (.idle config)
  | runLength => .runLength .idle
  | absent name kind => .absent name kind

namespace Filter

/-- The filter that a call leaves behind. -/
def after (filter : Filter) : FilterCall → Filter
  | .begin direction parameters => (filter.begin direction parameters).1
  | .block direction bytes sink => (filter.block direction bytes sink).state
  | .finish direction sink => (filter.finish direction sink).state
  | .abort => filter.abort
  | .run direction parameters data => (filter.run direction parameters data).1

/-- The answers of a filter itself to one block after another, up to the first fault. -/
def answers (filter : Filter) (direction : Direction) (sink : Sink) :
    List (List UInt8) → List Answer
  | [] => []
  | block :: rest =>
    match filter.block direction block sink with
    | ⟨next, sink, .ok ()⟩ => ⟨sink, .ok ()⟩ :: next.answers direction sink rest
    | ⟨_, sink, .error fault⟩ => [⟨sink, .error fault⟩]

theorem abort_runOnce (filter : Filter) (direction : Direction) (parameters : Option Parameters)
    (data : List UInt8) (sink : Sink) :
    (filter.runOnce direction parameters data sink).state.abort = filter.abort := by
  have same := filter.abort_begin direction parameters
  rw [runOnce]
  rcases begun : filter.begin direction parameters with ⟨ready, fault | _⟩
  · rw [begun] at same
    exact same
  · rw [begun] at same
    have kept := ready.abort_block direction data sink
    dsimp only
    rcases taken : ready.block direction data sink with ⟨next, left, fault | _⟩
    · rw [taken] at kept
      exact kept.trans same
    · rw [taken] at kept
      exact (next.abort_finish direction left).trans (kept.trans same)

/-- A call leaves a filter of the same kind, set up the same. -/
theorem abort_after (filter : Filter) (call : FilterCall) :
    (filter.after call).abort = filter.abort := by
  cases call with
  | begin direction parameters => exact filter.abort_begin direction parameters
  | block direction bytes sink => exact filter.abort_block direction bytes sink
  | finish direction sink => exact filter.abort_finish direction sink
  | abort => exact filter.abort_abort
  | run direction parameters data =>
    have same := filter.abort_runOnce direction parameters data .unlimited
    rw [after, run]
    rcases once : filter.runOnce direction parameters data .unlimited with ⟨left, sink, fault | _⟩
    · rw [once] at same
      exact left.abort_abort.trans same
    · rw [once] at same
      exact same

theorem abort_foldl_after (filter : Filter) (calls : List FilterCall) :
    (calls.foldl after filter).abort = filter.abort := by
  induction calls generalizing filter with
  | nil => rfl
  | cons call rest ih => rw [List.foldl_cons, ih, abort_after]

/-- A filter that is made by name has one of the setups. -/
theorem exists_setup (name : String) : ∃ setup : Setup, ofName name = setup.filter := by
  rw [ofName]
  cases Kind.ofName? name with
  | none => exact ⟨.absent (bareName name) none, rfl⟩
  | some kind =>
    cases kind with
    | asciiHex => exact ⟨.hex, rfl⟩
    | ascii85 => exact ⟨.base85, rfl⟩
    | lzw => exact ⟨.lzw, rfl⟩
    | flate => exact ⟨.flate {}, rfl⟩
    | runLength => exact ⟨.runLength, rfl⟩
    | _ => exact ⟨.absent _ _, rfl⟩

end Filter

namespace Setup

/-- There is nothing to abort in a new filter. -/
theorem abort_filter (setup : Setup) : setup.filter.abort = setup.filter := by
  cases setup <;> rfl

theorem abort_foldl_after (setup : Setup) (calls : List FilterCall) :
    (calls.foldl Filter.after setup.filter).abort = setup.filter := by
  rw [Filter.abort_foldl_after, abort_filter]

end Setup

namespace Session

/-- The filter of a session has been aborted if a call has failed. -/
def IsSettled (session : Session) : Prop :=
  session.isOpen = true ∨ session.filter.abort = session.filter

/-- A session begins with a filter of the same kind, set up the same, and nothing fed to it. -/
theorem abort_start {filter : Filter} {direction : Direction} {parameters : Option Parameters}
    {sink : Sink} {session : Session}
    (begun : start filter direction parameters sink = .ok session) :
    ∃ next : Filter, session = ⟨next, sink, direction, true, 0⟩ ∧ next.abort = filter.abort := by
  have same := filter.abort_begin direction parameters
  rw [start] at begun
  rcases answer : filter.begin direction parameters with ⟨next, fault | _⟩
  · rw [answer] at begun
    cases begun
  · rw [answer] at begun same
    cases begun
    exact ⟨next, rfl, same⟩

/-- A filter that cannot begin a session is handed back aborted. -/
theorem eq_abort_of_start {filter left : Filter} {direction : Direction}
    {parameters : Option Parameters} {sink : Sink} {fault : Fault}
    (failed : start filter direction parameters sink = .error (left, fault)) :
    left = filter.abort := by
  have same := filter.abort_begin direction parameters
  rw [start] at failed
  rcases answer : filter.begin direction parameters with ⟨next, other | _⟩
  · rw [answer] at failed same
    cases failed
    exact same
  · rw [answer] at failed
    cases failed

section Open

variable {filter next : Filter} {sink left : Sink} {direction : Direction} {block : List UInt8}

theorem feed_of_ok (fed : Nat)
    (taken : filter.block direction block sink = ⟨next, left, .ok ()⟩) :
    feed ⟨filter, sink, direction, true, fed⟩ block
      = (⟨next, left, direction, true, fed + block.length⟩, .ok ()) := by
  rw [feed, taken]

theorem feed_of_error {fault : Fault} (fed : Nat)
    (failed : filter.block direction block sink = ⟨next, left, .error fault⟩) :
    feed ⟨filter, sink, direction, true, fed⟩ block
      = (⟨next.abort, left, direction, false, fed + block.length⟩, .error fault) := by
  rw [feed, failed]

end Open

theorem abort_feed (session : Session) (block : List UInt8) :
    (session.feed block).1.filter.abort = session.filter.abort := by
  obtain ⟨filter, sink, direction, isOpen, fed⟩ := session
  cases isOpen with
  | false => rfl
  | true =>
    have same := filter.abort_block direction block sink
    rcases taken : filter.block direction block sink with ⟨next, left, fault | _⟩
    · rw [taken] at same
      rw [feed_of_error fed taken]
      exact next.abort_abort.trans same
    · rw [taken] at same
      rw [feed_of_ok fed taken]
      exact same

theorem IsSettled.feed {session : Session} (settled : session.IsSettled) (block : List UInt8) :
    (session.feed block).1.IsSettled := by
  obtain ⟨filter, sink, direction, isOpen, fed⟩ := session
  cases isOpen with
  | false => exact settled
  | true =>
    rcases taken : filter.block direction block sink with ⟨next, left, fault | _⟩
    · rw [feed_of_error fed taken]
      exact .inr next.abort_abort
    · rw [feed_of_ok fed taken]
      exact .inl rfl

theorem abort_feedEach (session : Session) (blocks : List (List UInt8)) :
    (session.feedEach blocks).filter.abort = session.filter.abort := by
  induction blocks generalizing session with
  | nil => rfl
  | cons block rest ih => exact (ih _).trans (session.abort_feed block)

theorem IsSettled.feedEach {session : Session} (settled : session.IsSettled)
    (blocks : List (List UInt8)) : (session.feedEach blocks).IsSettled := by
  induction blocks generalizing session with
  | nil => exact settled
  | cons block rest ih => exact ih (settled.feed block)

theorem IsSettled.drop_eq {session : Session} (settled : session.IsSettled) :
    session.drop = session.filter.abort := by
  obtain ⟨filter, sink, direction, isOpen, fed⟩ := session
  cases isOpen with
  | false =>
    rcases settled with unfailed | aborted
    · cases unfailed
    · exact aborted.symm
  | true => rfl

theorem IsSettled.state_finish {session : Session} (settled : session.IsSettled) :
    session.finish.state = session.filter.abort := by
  obtain ⟨filter, sink, direction, isOpen, fed⟩ := session
  cases isOpen with
  | false =>
    rcases settled with unfailed | aborted
    · cases unfailed
    · exact aborted.symm
  | true => exact Session.state_finish filter sink fed

/-- The filter answers blocks itself up to the first fault, all blocks fed until then count, and all
further ones are refused. -/
theorem answers_eq (filter : Filter) (direction : Direction) (sink : Sink) (fed : Nat)
    (blocks : List (List UInt8)) :
    let session : Session := ⟨filter, sink, direction, true, fed⟩
    let own := filter.answers direction sink blocks
    session.answers blocks = own ++ List.replicate (blocks.length - own.length)
        ⟨(session.feedEach blocks).sink, .error alreadyFailed⟩
      ∧ (session.feedEach blocks).fed = fed + (blocks.take own.length).flatten.length
      ∧ (session.feedEach blocks).isOpen = own.all (·.result.isOk) := by
  induction blocks generalizing filter sink fed with
  | nil => exact ⟨rfl, rfl, rfl⟩
  | cons block rest ih =>
    intro session own
    rcases taken : filter.block direction block sink with ⟨next, left, fault | _⟩
    · have fails := feed_of_error fed taken
      obtain ⟨same, answered⟩ := refused next.abort left direction (fed + block.length) rest
      have each : session.feedEach (block :: rest)
          = ⟨next.abort, left, direction, false, fed + block.length⟩ := by
        rw [feedEach, List.foldl_cons, fails]
        exact same
      have one : own = [⟨left, .error fault⟩] := by
        rw [show own = filter.answers direction sink (block :: rest) from rfl, Filter.answers, taken]
      rw [each, one, Session.answers, fails]
      dsimp only
      rw [answered]
      exact ⟨rfl, by simp, rfl⟩
    · have goes := feed_of_ok fed taken
      obtain ⟨answered, counted, unfailed⟩ := ih next left (fed + block.length)
      have each : session.feedEach (block :: rest)
          = feedEach ⟨next, left, direction, true, fed + block.length⟩ rest := by
        rw [feedEach, List.foldl_cons, goes]
        rfl
      have more : own = ⟨left, .ok ()⟩ :: next.answers direction left rest := by
        rw [show own = filter.answers direction sink (block :: rest) from rfl, Filter.answers, taken]
      rw [each, more, Session.answers, goes]
      dsimp only
      refine ⟨?_, ?_, unfailed⟩
      · rw [answered, List.length_cons, List.length_cons, Nat.add_sub_add_right, List.cons_append]
      · rw [counted, List.length_cons, List.take_succ_cons, List.flatten_cons, List.length_append]
        omega

/-- A session on a filter that has been called in whatever ways is the same as on a new one. If it
does not begin, the filter is like new. If it does, the filter itself answers the blocks up to the
first fault, and all blocks until then count as fed; once a call has failed, all calls are refused
and change nothing. Whether the session is ended or dropped then, the filter is like new. -/
theorem runs_as_new (setup : Setup) (calls : List FilterCall) (direction : Direction)
    (parameters : Option Parameters) (sink : Sink) (blocks : List (List UInt8)) :
    let used := calls.foldl Filter.after setup.filter
    start used direction parameters sink = start setup.filter direction parameters sink
      ∧ record used direction parameters blocks sink
        = record setup.filter direction parameters blocks sink
      ∧ match start used direction parameters sink with
        | .error (left, _) => left = setup.filter
        | .ok session =>
          let own := session.filter.answers direction session.sink blocks
          let fed := session.feedEach blocks
          session.answers blocks = own ++ List.replicate (blocks.length - own.length)
              ⟨fed.sink, .error alreadyFailed⟩
            ∧ fed.fed = (blocks.take own.length).flatten.length
            ∧ fed.isOpen = own.all (·.result.isOk)
            ∧ (fed.isOpen = false → ∀ more, fed.feedEach more = fed
              ∧ fed.answersToEnd more
                = List.replicate (more.length + 1) ⟨fed.sink, .error alreadyFailed⟩)
            ∧ fed.finish.state = setup.filter ∧ fed.drop = setup.filter := by
  intro used
  have aborted : used.abort = setup.filter := setup.abort_foldl_after calls
  have same : start used direction parameters sink = start setup.filter direction parameters sink := by
    rw [← aborted, start_abort]
  refine ⟨same, by rw [record, record, same], ?_⟩
  cases begun : start used direction parameters sink with
  | error failure => exact (eq_abort_of_start begun).trans aborted
  | ok session =>
    obtain ⟨filter, rfl, kept⟩ := abort_start begun
    dsimp -zeta only
    intro own fed
    obtain ⟨answered, counted, unfailed⟩ := answers_eq filter direction sink 0 blocks
    have settled : fed.IsSettled := IsSettled.feedEach (.inl rfl) blocks
    have left : fed.filter.abort = setup.filter :=
      ((abort_feedEach _ blocks).trans kept).trans aborted
    refine ⟨answered, counted.trans (Nat.zero_add _), unfailed, fun failed more => ?_,
      settled.state_finish.trans left, settled.drop_eq.trans left⟩
    obtain ⟨filter, sink, direction, isOpen, count⟩ := fed
    cases failed
    exact ⟨(refused filter sink direction count more).1, answersToEnd_refused ..⟩

end Session

end PdfFilters

import PdfFilters.Sink

/-!
# What a call writes, whatever its sink

No filter looks at its sink: it hands bytes over, and stops when they are refused. So a call is
known once the bytes are known that it hands over, and the value or fault it ends in if none of them
is refused. An `Emission` is both, without a sink, and `Sink.absorb` says what becomes of any sink.

A call `Emits` an emission if it does this to every sink. Calls in a row emit what their emissions
are in a row (`Emission.andThen`), because several writes are one write of all their bytes. The
emission of a call is unique: it is the one that a sink shows that never fails
(`Emits.emissionOf_eq`).
-/

namespace PdfFilters

variable {α β σ : Type}

/-! ## Results -/

theorem exists_of_bind_ok {α β ε : Type} {first : Except ε α} {next : α → Except ε β}
    {result : β} (fine : first >>= next = .ok result) :
    ∃ value, first = .ok value ∧ next value = .ok result := by
  cases first with
  | error fault => cases fine
  | ok value => exact ⟨value, rfl, fine⟩

theorem exists_of_map_ok {α β ε : Type} {result : Except ε α} {change : α → β} {value : β}
    (fine : result.map change = .ok value) : ∃ other, result = .ok other ∧ change other = value := by
  cases result with
  | ok other => exact ⟨other, rfl, Except.ok.inj fine⟩
  | error fault => cases fine

theorem map_eq_error_iff {α β ε : Type} {result : Except ε α} {change : α → β} {fault : ε} :
    result.map change = .error fault ↔ result = .error fault := by
  cases result with
  | error other =>
    show Except.error other = Except.error fault ↔ _
    rw [Except.error.injEq, Except.error.injEq]
  | ok value =>
    constructor
    · intro failed
      cases failed
    · intro failed
      cases failed

/-! ## Emissions -/

/-- The bytes a call hands to its sink, and how it ends if the sink refuses none of them. -/
structure Emission (α : Type) where
  bytes : List UInt8
  result : Except Fault α

namespace Emission

/-- A call that writes nothing. -/
def quiet (result : Except Fault α) : Emission α := ⟨[], result⟩

/-- One call after another, which is made only if the first one does not fail. -/
def andThen (first : Emission α) (next : α → Emission β) : Emission β :=
  match first with
  | ⟨bytes, .ok value⟩ => ⟨bytes ++ (next value).bytes, (next value).result⟩
  | ⟨bytes, .error fault⟩ => ⟨bytes, .error fault⟩

/-- The same call with another value. -/
def map (change : α → β) (emission : Emission α) : Emission β :=
  ⟨emission.bytes, emission.result.map change⟩

/-- What a caller has of a call in the end: all its bytes, or its fault. -/
def output (emission : Emission α) : Except Fault (List UInt8) :=
  emission.result.map fun _ => emission.bytes

@[simp] theorem map_quiet (change : α → β) (result : Except Fault α) :
    (quiet result).map change = quiet (result.map change) := rfl

@[simp] theorem andThen_ok (bytes : List UInt8) (value : α) (next : α → Emission β) :
    andThen ⟨bytes, .ok value⟩ next = ⟨bytes ++ (next value).bytes, (next value).result⟩ := rfl

theorem andThen_assoc {γ : Type} (first : Emission α) (next : α → Emission β)
    (last : β → Emission γ) :
    (first.andThen next).andThen last = first.andThen fun value => (next value).andThen last := by
  obtain ⟨bytes, result⟩ := first
  cases result with
  | error fault => rfl
  | ok value =>
    rw [andThen_ok, andThen_ok]
    obtain ⟨bytes', result'⟩ := next value
    cases result' with
    | error fault => rfl
    | ok value' => rw [andThen_ok, andThen_ok, List.append_assoc]

/-- What comes of two calls does not depend on the form of the second one's value. -/
theorem output_andThen_map {γ : Type} (first : Emission α) (next : α → Emission β) (form : β → γ) :
    (first.andThen fun value => (next value).map form).output = (first.andThen next).output := by
  obtain ⟨bytes, result⟩ := first
  cases result with
  | error fault => rfl
  | ok value =>
    rw [andThen_ok, andThen_ok]
    unfold map output
    cases (next value).result <;> rfl

/-- Nothing comes of a second call that is quiet. -/
theorem output_andThen_quiet (first : Emission α) (value : β) :
    (first.andThen fun _ => quiet (.ok value)).output = first.output := by
  obtain ⟨bytes, result⟩ := first
  cases result with
  | error fault => rfl
  | ok _ =>
    rw [andThen_ok, quiet, List.append_nil]
    rfl

end Emission

namespace Sink

/-- What becomes of a sink, and of the call, when the call emits this. -/
def absorb (sink : Sink) (emission : Emission α) : Sink × Except Fault α :=
  match sink.write emission.bytes with
  | (sink, .ok ()) => (sink, emission.result)
  | (sink, .error fault) => (sink, .error fault)

theorem absorb_of_write_ok {sink next : Sink} {emission : Emission α}
    (taken : sink.write emission.bytes = (next, .ok ())) :
    sink.absorb emission = (next, emission.result) := by
  rw [absorb, taken]

theorem absorb_of_write_error {sink next : Sink} {emission : Emission α} {fault : Fault}
    (refused : sink.write emission.bytes = (next, .error fault)) :
    sink.absorb emission = (next, .error fault) := by
  rw [absorb, refused]

@[simp] theorem absorb_quiet (sink : Sink) (result : Except Fault α) :
    sink.absorb (.quiet result) = (sink, result) := by
  simp [absorb, Emission.quiet]

theorem absorb_map (sink : Sink) (emission : Emission α) (change : α → β) :
    sink.absorb (emission.map change)
      = ((sink.absorb emission).1, (sink.absorb emission).2.map change) := by
  rw [absorb, absorb, Emission.map]
  dsimp only
  split <;> rfl

/-- Go on from the answer of a call, unless it failed. -/
def proceed (answer : Sink × Except Fault α) (next : α → Sink → Sink × Except Fault β) :
    Sink × Except Fault β :=
  match answer with
  | (sink, .ok value) => next value sink
  | (sink, .error fault) => (sink, .error fault)

@[simp] theorem proceed_ok (sink : Sink) (value : α) (next : α → Sink → Sink × Except Fault β) :
    proceed (sink, .ok value) next = next value sink := rfl

/-- Calls in a row do to a sink what the second does to what the first leaves. -/
theorem absorb_andThen (sink : Sink) (first : Emission α) (next : α → Emission β) :
    sink.absorb (first.andThen next)
      = proceed (sink.absorb first) fun value sink => sink.absorb (next value) := by
  obtain ⟨bytes, result⟩ := first
  cases written : sink.write bytes with
  | mk left answer =>
    cases answer with
    | error fault =>
      -- The first call is cut short, so what would come after it makes no difference.
      have refused : sink.absorb ⟨bytes, result⟩ = (left, .error fault) :=
        absorb_of_write_error written
      rw [refused]
      cases result with
      | error other => exact absorb_of_write_error written
      | ok value => exact absorb_of_write_error (write_append_of_error written _)
    | ok _ =>
      have taken : sink.absorb ⟨bytes, result⟩ = (left, result) := absorb_of_write_ok written
      rw [taken]
      cases result with
      | error other => exact absorb_of_write_ok written
      | ok value =>
        simp only [Emission.andThen_ok, absorb, write_append_of_ok written, proceed_ok]

/-- A call that succeeds has written all it emits. -/
theorem write_of_absorb_ok {sink left : Sink} {emission : Emission α} {value : α}
    (fine : sink.absorb emission = (left, .ok value)) :
    sink.write emission.bytes = (left, .ok ()) ∧ emission.result = .ok value := by
  rw [absorb] at fine
  split at fine
  next taken =>
    obtain ⟨rfl, result⟩ := Prod.mk.inj fine
    exact ⟨taken, result⟩
  · cases (Prod.mk.inj fine).2

/-- A sink that never fails, with what it has accepted so far. -/
def endless (accepted : Array UInt8) (failure : WriteFailure) : Sink := ⟨accepted, none, failure⟩

theorem unlimited_eq_endless : unlimited = endless #[] .stalled := rfl

@[simp] theorem absorb_endless (accepted : Array UInt8) (failure : WriteFailure)
    (emission : Emission α) :
    (endless accepted failure).absorb emission
      = (endless (accepted ++ emission.bytes) failure, emission.result) := rfl

end Sink

/-- A call that does the same to all sinks: it emits this. -/
def Emits (call : Sink → Sink × Except Fault α) (emission : Emission α) : Prop :=
  ∀ sink, call sink = sink.absorb emission

namespace Emits

/-- Calls in a row emit what their emissions are in a row. The value of the first call may be a
form of what its emission says. -/
theorem andThen_map {γ : Type} {call : Sink → Sink × Except Fault γ} {first : Emission α}
    {form : α → γ} {next : γ → Sink → Sink × Except Fault β} {second : α → Emission β}
    (h : Emits call (first.map form))
    (onward : ∀ value, first.result = .ok value → Emits (next (form value)) (second value)) :
    Emits (fun sink => Sink.proceed (call sink) next) (first.andThen second) := by
  intro sink
  show Sink.proceed (call sink) next = _
  rw [Sink.absorb_andThen, h sink, Sink.absorb, Sink.absorb]
  obtain ⟨bytes, result⟩ := first
  dsimp only [Emission.map]
  cases sink.write bytes with
  | mk left answer =>
    cases answer with
    | error fault => rfl
    | ok _ =>
      cases result with
      | error fault => rfl
      | ok value => exact onward value rfl left

theorem andThen {call : Sink → Sink × Except Fault α} {first : Emission α}
    {next : α → Sink → Sink × Except Fault β} {second : α → Emission β} (h : Emits call first)
    (onward : ∀ value, first.result = .ok value → Emits (next value) (second value)) :
    Emits (fun sink => Sink.proceed (call sink) next) (first.andThen second) := by
  have same : first.map id = first := by
    obtain ⟨bytes, result⟩ := first
    cases result <;> rfl
  exact andThen_map (same.symm ▸ h) onward

theorem write (bytes : List UInt8) : Emits (·.write bytes) ⟨bytes, .ok ()⟩ := by
  intro sink
  rw [Sink.absorb]
  split
  next h => exact h
  next h => exact h

theorem quiet (result : Except Fault α) : Emits (fun sink => (sink, result)) (.quiet result) := by
  intro sink
  exact (sink.absorb_quiet result).symm

theorem map {call : Sink → Sink × Except Fault α} {emission : Emission α} (h : Emits call emission)
    (change : α → β) :
    Emits (fun sink => ((call sink).1, (call sink).2.map change)) (emission.map change) := by
  intro sink
  show ((call sink).1, (call sink).2.map change) = sink.absorb (emission.map change)
  rw [h sink, Sink.absorb_map]

end Emits

/-- The emission of a call, as a sink that never fails shows it. -/
def emissionOf (call : Sink → Sink × Except Fault α) : Emission α :=
  ⟨(call .unlimited).1.accepted.toList, (call .unlimited).2⟩

theorem Emits.emissionOf_eq {call : Sink → Sink × Except Fault α} {emission : Emission α}
    (h : Emits call emission) : emissionOf call = emission := by
  rw [emissionOf, h .unlimited, Sink.unlimited_eq_endless, Sink.absorb_endless]
  simp [Sink.endless]

theorem Emits.emissionOf {call : Sink → Sink × Except Fault α} {emission : Emission α}
    (h : Emits call emission) : Emits call (emissionOf call) := by
  rw [h.emissionOf_eq]
  exact h

/-- A reply without the state that a failed call leaves. -/
def Reply.outcome (reply : Reply σ) : Sink × Except Fault σ :=
  (reply.sink, reply.result.map fun () => reply.state)

namespace Reply

@[simp] theorem outcome_ok (state : σ) (sink : Sink) :
    outcome ⟨state, sink, .ok ()⟩ = (sink, .ok state) := rfl

/-- A reply whose call succeeded is known by its outcome. -/
theorem eq_of_outcome_ok {reply : Reply σ} {sink : Sink} {state : σ}
    (fine : reply.outcome = (sink, .ok state)) : reply = ⟨state, sink, .ok ()⟩ := by
  obtain ⟨after, left, result⟩ := reply
  cases result with
  | ok _ =>
    cases fine
    rfl
  | error fault => cases (Prod.mk.inj fine).2

/-- The state that a failed call leaves is not in its outcome. -/
theorem exists_of_outcome_error {reply : Reply σ} {sink : Sink} {fault : Fault}
    (failed : reply.outcome = (sink, .error fault)) :
    ∃ state, reply = ⟨state, sink, .error fault⟩ := by
  obtain ⟨after, left, result⟩ := reply
  cases result with
  | ok _ => cases (Prod.mk.inj failed).2
  | error other =>
    cases failed
    exact ⟨after, rfl⟩

/-- What a caller sees of a reply is in its outcome. -/
theorem result_eq (reply : Reply σ) : reply.result = reply.outcome.2.map fun _ => () := by
  obtain ⟨state, sink, result⟩ := reply
  cases result <;> rfl

/-- The reply of a call that ends in a write. -/
theorem outcome_write (state : σ) (sink : Sink) (bytes : List UInt8) :
    outcome ⟨state, (sink.write bytes).1, (sink.write bytes).2⟩
      = sink.absorb ⟨bytes, .ok state⟩ := by
  rw [Sink.absorb]
  split
  next left written => rw [written]; rfl
  next left fault refused => rw [refused]; rfl

end Reply

/-- What a call does to a sink that never fails. -/
theorem Emits.reply_endless {call : Sink → Reply σ} {emission : Emission σ}
    (h : Emits (fun sink => (call sink).outcome) emission) (accepted : Array UInt8)
    (failure : WriteFailure) :
    (call (.endless accepted failure)).sink = .endless (accepted ++ emission.bytes) failure
      ∧ (call (.endless accepted failure)).result = emission.result.map fun _ => () := by
  have same : (call (.endless accepted failure)).outcome
      = (.endless (accepted ++ emission.bytes) failure, emission.result) :=
    h (.endless accepted failure)
  refine ⟨congrArg Prod.fst same, ?_⟩
  rw [Reply.result_eq, same]

/-- The state that a call leaves is the one its emission says. -/
theorem Emits.state_eq {call : Sink → Reply σ} {emission : Emission σ}
    (h : Emits (fun sink => (call sink).outcome) emission) {sink : Sink}
    (fine : (call sink).result = .ok ()) : emission.result = .ok (call sink).state := by
  have same : (call sink).outcome = sink.absorb emission := h sink
  generalize call sink = reply at same fine
  obtain ⟨state, left, result⟩ := reply
  subst fine
  rw [Reply.outcome_ok, Sink.absorb] at same
  split at same
  · exact (Prod.mk.inj same).2.symm
  · cases (Prod.mk.inj same).2

end PdfFilters

import PdfFilters.Proofs.Emission

/-!
# Cutting a stream into blocks

A codec takes a stream block by block, and what it carries from one block to the next should make
up for the cut. `Cuttable` says what that takes: a block of nothing changes nothing, and a block
after another is both of them as one. Then a stream ends alike however it is cut
(`Cuttable.emitAll_flatten`).

Ending alike (`Emission.Alike`) means the same fault, or the same bytes and states that cannot be
told apart later. The bytes before a fault need not agree: a codec may well write the blocks before
the one it refuses. Where they do agree, the codec is called exact.
-/

namespace PdfFilters

variable {ρ σ τ : Type}

/-- Two calls that end alike: with one fault, or with the same bytes and similar states. If the
calls are exact, they have written the same bytes before a fault as well. -/
inductive Emission.Alike (similar : σ → τ → Prop) (exact : Prop) : Emission σ → Emission τ → Prop
  | ok {bytes : List UInt8} {first : σ} {second : τ} (states : similar first second) :
    Alike similar exact ⟨bytes, .ok first⟩ ⟨bytes, .ok second⟩
  | error {fault : Fault} {first second : List UInt8} (bytes : exact → first = second) :
    Alike similar exact ⟨first, .error fault⟩ ⟨second, .error fault⟩

namespace Emission.Alike

variable {exact : Prop}

theorem refl {similar : σ → σ → Prop} (ofState : ∀ state, similar state state)
    (emission : Emission σ) : Alike similar exact emission emission := by
  obtain ⟨bytes, result⟩ := emission
  cases result with
  | ok state => exact .ok (ofState state)
  | error fault => exact .error fun _ => rfl

theorem symm {similar : σ → τ → Prop} {first : Emission σ} {second : Emission τ}
    (h : Alike similar exact first second) :
    Alike (fun b a => similar a b) exact second first := by
  cases h with
  | ok states => exact .ok states
  | error bytes => exact .error fun e => (bytes e).symm

theorem trans {similar : ρ → σ → Prop} {similar' : σ → τ → Prop} {similar'' : ρ → τ → Prop}
    {first : Emission ρ} {second : Emission σ} {third : Emission τ}
    (ofStates : ∀ a b c, similar a b → similar' b c → similar'' a c)
    (h : Alike similar exact first second) (h' : Alike similar' exact second third) :
    Alike similar'' exact first third := by
  cases h with
  | ok states => cases h' with | ok states' => exact .ok (ofStates _ _ _ states states')
  | error bytes => cases h' with | error bytes' => exact .error fun e => (bytes e).trans (bytes' e)

/-- What was written before makes no difference. -/
theorem prepend {similar : σ → τ → Prop} {first : Emission σ} {second : Emission τ}
    (h : Alike similar exact first second) (bytes : List UInt8) :
    Alike similar exact ⟨bytes ++ first.bytes, first.result⟩
      ⟨bytes ++ second.bytes, second.result⟩ := by
  cases h with
  | ok states => exact .ok states
  | error same => exact .error fun e => by rw [same e]

/-- Calls that end alike go on alike, if similar states do. -/
theorem andThen {ρ' σ' : Type} {similar : ρ → σ → Prop} {similar' : ρ' → σ' → Prop}
    {first : Emission ρ} {second : Emission σ} {next : ρ → Emission ρ'} {next' : σ → Emission σ'}
    (h : Alike similar exact first second)
    (onward : ∀ {a b}, similar a b → Alike similar' exact (next a) (next' b)) :
    Alike similar' exact (first.andThen next) (second.andThen next') := by
  cases h with
  | ok states => exact (onward states).prepend _
  | error same => exact .error same

/-- A call goes on alike in two ways if these end alike from the state it leaves. -/
theorem andThen_self {ρ' σ' : Type} {similar : ρ' → σ' → Prop} {first : Emission σ}
    {next : σ → Emission ρ'} {next' : σ → Emission σ'}
    (onward : ∀ a, first.result = .ok a → Alike similar exact (next a) (next' a)) :
    Alike similar exact (first.andThen next) (first.andThen next') := by
  obtain ⟨bytes, result⟩ := first
  cases result with
  | ok a => exact (onward a rfl).prepend bytes
  | error fault => exact .error fun _ => rfl

variable {similar : σ → τ → Prop} {first : Emission σ} {second : Emission τ}

/-- Calls that end alike have the same result, up to the states. -/
theorem map_result (h : Alike similar exact first second) :
    first.result.map (fun _ => ()) = second.result.map (fun _ => ()) := by
  cases h <;> rfl

theorem output_eq (h : Alike similar exact first second) : first.output = second.output := by
  cases h <;> rfl

/-- A call that ends like a successful one is successful. -/
theorem exists_of_ok (h : Alike similar exact first second) {state : σ}
    (fine : first.result = .ok state) : ∃ other, second.result = .ok other ∧ similar state other := by
  cases h with
  | ok states =>
    cases fine
    exact ⟨_, rfl, states⟩
  | error => cases fine

/-- Successful calls that end alike have written the same bytes, and exact ones have anyway. -/
theorem bytes_eq (h : Alike similar exact first second)
    (written : exact ∨ first.result.map (fun _ => ()) = .ok ()) : first.bytes = second.bytes := by
  cases h with
  | ok states => rfl
  | error bytes =>
    rcases written with e | e
    · exact bytes e
    · simp [Except.map] at e

theorem weaken {exact' : Prop} (h : Alike similar exact first second) (fewer : exact' → exact) :
    Alike similar exact' first second := by
  cases h with
  | ok states => exact .ok states
  | error bytes => exact .error fun e => bytes (fewer e)

/-- Where nothing fails there is nothing that could differ before a fault. -/
theorem exactly (h : Alike similar False first second)
    (fine : ∃ state, second.result = .ok state) : Alike similar exact first second := by
  obtain ⟨state, fine⟩ := fine
  cases h with
  | ok states => exact .ok states
  | error => contradiction

end Emission.Alike

/-- Take blocks one after another, up to the first fault. -/
def emitAll (take : σ → List UInt8 → Emission σ) (state : σ) : List (List UInt8) → Emission σ
  | [] => .quiet (.ok state)
  | block :: rest => (take state block).andThen fun next => emitAll take next rest

theorem emitAll_single (take : σ → List UInt8 → Emission σ) (state : σ) (block : List UInt8) :
    emitAll take state [block] = take state block := by
  simp only [emitAll]
  obtain ⟨bytes, result⟩ := take state block
  cases result with
  | ok next => simp [Emission.quiet]
  | error fault => rfl

/-- What a codec has to satisfy for cuts to make no difference, in the states that occur. -/
structure Cuttable (take : σ → List UInt8 → Emission σ) (occurs : σ → Prop)
    (similar : σ → σ → Prop) (exact : Prop) : Prop where
  occurs_of_ok {state next : σ} {block : List UInt8} :
    occurs state → (take state block).result = .ok next → occurs next
  trans (a b c : σ) : similar a b → similar b c → similar a c
  nil {state : σ} : occurs state → Emission.Alike similar exact (.quiet (.ok state)) (take state [])
  append {state : σ} (first second : List UInt8) : occurs state →
    Emission.Alike similar exact ((take state first).andThen fun next => take next second)
      (take state (first ++ second))

namespace Cuttable

variable {take : σ → List UInt8 → Emission σ} {occurs : σ → Prop} {similar : σ → σ → Prop}
  {exact : Prop}

/-- A stream taken block by block ends like the stream taken whole. -/
theorem emitAll_flatten (cuttable : Cuttable take occurs similar exact) {state : σ}
    (start : occurs state) (blocks : List (List UInt8)) :
    Emission.Alike similar exact (emitAll take state blocks) (take state blocks.flatten) := by
  induction blocks generalizing state with
  | nil => exact cuttable.nil start
  | cons block rest ih =>
    -- The rest is one block by induction, from the state that the first block leaves, and then the
    -- two blocks are joined.
    have onward : Emission.Alike similar exact (emitAll take state (block :: rest))
        ((take state block).andThen fun next => take next rest.flatten) :=
      .andThen_self fun next taken => ih (cuttable.occurs_of_ok start taken)
    exact onward.trans cuttable.trans (cuttable.append block rest.flatten start)

/-- Where the codec takes a block, it takes any part that the block begins with, and has written some
of the same bytes by then. -/
theorem exists_take_of_append (cuttable : Cuttable take occurs similar exact) {state next : σ}
    (start : occurs state) {first second bytes : List UInt8}
    (taken : take state (first ++ second) = ⟨bytes, .ok next⟩) :
    ∃ early middle, take state first = ⟨early, .ok middle⟩ ∧ early <+: bytes := by
  have alike := cuttable.append first second start
  rw [taken] at alike
  rcases part : take state first with ⟨early, fault | middle⟩
  · rw [part] at alike
    cases alike
  · rw [part, Emission.andThen_ok] at alike
    have same : bytes = early ++ (take middle second).bytes := alike.symm.bytes_eq (.inr rfl)
    exact ⟨early, middle, rfl, same ▸ List.prefix_append _ _⟩

theorem weaken {fewer : Prop} (cuttable : Cuttable take occurs similar exact)
    (fewer_imp : fewer → exact) : Cuttable take occurs similar fewer where
  occurs_of_ok := cuttable.occurs_of_ok
  trans := cuttable.trans
  nil h := (cuttable.nil h).weaken fewer_imp
  append first second h := (cuttable.append first second h).weaken fewer_imp

/-- A codec that accepts everything is exact. -/
theorem exact_of_total (cuttable : Cuttable take occurs similar False)
    (total : ∀ state block, ∃ next, (take state block).result = .ok next) :
    Cuttable take occurs similar True where
  occurs_of_ok := cuttable.occurs_of_ok
  trans := cuttable.trans
  nil h := (cuttable.nil h).exactly (total _ _)
  append first second h := (cuttable.append first second h).exactly (total _ _)

end Cuttable

end PdfFilters

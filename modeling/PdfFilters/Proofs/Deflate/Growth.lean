import PdfFilters.Deflate.Inflate

/-!
# The output of the machine only grows

Whatever bit comes, the machine either leaves its output alone, or adds a byte or a copy at the end
(`Inflate.grows_push`). So the output of a stream is the output of its beginning and something more
(`Inflate.grows_feed`).
-/

namespace PdfFilters

/-- A copy stands at the end of the data. -/
theorem exists_copyBack (distance length : Nat) (data : Array UInt8) :
    ∃ copied, copyBack distance length data = data ++ copied := by
  induction length generalizing data with
  | zero => exact ⟨#[], by simp [copyBack]⟩
  | succ length ih =>
    obtain ⟨copied, eq⟩ := ih (data.push (data.getD (data.size - distance) 0))
    refine ⟨#[data.getD (data.size - distance) 0] ++ copied, ?_⟩
    rw [copyBack, eq, ← Array.append_assoc, Array.push_eq_append]

namespace Inflate

variable (state : Inflate)

@[simp] theorem output_goTo (task : Task) : (state.goTo task).output = state.output := rfl

@[simp] theorem output_reject : state.reject.output = state.output := rfl

@[simp] theorem output_readNumber (meaning : Meaning) (width : Nat) :
    (state.readNumber meaning width).output = state.output := rfl

@[simp] theorem output_readChecksum : state.readChecksum.output = state.output := by
  rw [readChecksum]
  split <;> rfl

@[simp] theorem output_endBlock : state.endBlock.output = state.output := by
  rw [endBlock]
  split
  · exact state.output_readChecksum
  · rfl

@[simp] theorem output_readStored (left : Nat) :
    (state.readStored left).output = state.output := by
  rw [readStored]
  split
  · exact state.output_endBlock
  · rfl

@[simp] theorem output_readStoredLength : state.readStoredLength.output = state.output := by
  rw [readStoredLength]
  split <;> rfl

@[simp] theorem output_readLiteral (codes : BlockCodes) :
    (state.readLiteral codes).output = state.output := rfl

@[simp] theorem output_readLengthExtra (codes : BlockCodes) (base width : Nat) :
    (state.readLengthExtra codes base width).output = state.output := by
  rw [readLengthExtra]
  split <;> rfl

@[simp] theorem output_emit (byte : UInt8) :
    (state.emit byte).output = state.output.push byte := rfl

@[simp] theorem output_openBlock (sizes : BlockSizes) (lengths : Array Nat) :
    (state.openBlock sizes lengths).output = state.output := by
  rw [openBlock]
  split
  · rfl
  · split <;> rfl

@[simp] theorem output_readWordLength (reader : LengthReader) :
    (state.readWordLength reader).output = state.output := by
  rw [readWordLength]
  split
  · rfl
  · split
    · exact state.output_openBlock _ _
    · rfl

@[simp] theorem output_readLengthLength (sizes : BlockSizes) (known : List Nat) :
    (state.readLengthLength sizes known).output = state.output := by
  rw [readLengthLength]
  split
  · rfl
  · dsimp only
    split
    · exact state.output_readWordLength _
    · rfl

/-- The later output is the earlier one and something more. -/
def Grows (earlier later : Inflate) : Prop := ∃ fresh, later.output = earlier.output ++ fresh

namespace Grows

variable {state} {next later : Inflate}

theorem of_eq (same : next.output = state.output) : Grows state next :=
  ⟨#[], by rw [same, Array.append_empty]⟩

theorem trans (h : Grows state next) (h' : Grows next later) : Grows state later := by
  obtain ⟨fresh, eq⟩ := h
  obtain ⟨fresh', eq'⟩ := h'
  exact ⟨fresh ++ fresh', by rw [eq', eq, Array.append_assoc]⟩

end Grows

theorem grows_emit {next : Inflate} (byte : UInt8)
    (same : next.output = (state.emit byte).output) : Grows state next :=
  ⟨#[byte], by rw [same, output_emit, Array.push_eq_append]⟩

theorem grows_copy (codes : BlockCodes) (length distance : Nat) :
    Grows state (state.copy codes length distance) := by
  obtain ⟨task, lastBlock, taken, output⟩ := state
  simp only [copy]
  split
  · exact exists_copyBack distance length output
  · exact .of_eq rfl

theorem grows_readDistanceExtra (codes : BlockCodes) (length base width : Nat) :
    Grows state (state.readDistanceExtra codes length base width) := by
  rw [readDistanceExtra]
  split
  · exact state.grows_copy codes length base
  · exact .of_eq rfl

theorem grows_takeNumber (meaning : Meaning) (value : Nat) :
    Grows state (state.takeNumber meaning value) := by
  cases meaning with
  | storedByte left => exact state.grows_emit (UInt8.ofNat value) (output_readStored _ _)
  | distanceExtra codes length base => exact state.grows_copy codes length _
  -- All other numbers only say what to read next.
  | blockStart =>
    simp only [takeNumber]
    split <;> exact .of_eq (by simp)
  | repetition | lengthLength => exact .of_eq (by simp [takeNumber])
  | _ =>
    simp only [takeNumber]
    first
      | exact .of_eq rfl
      | split <;> exact .of_eq (by simp)

theorem grows_takeSymbol (alphabet : Alphabet) (symbol : Nat) :
    Grows state (state.takeSymbol alphabet symbol) := by
  cases alphabet with
  | wordLength reader =>
    simp only [takeSymbol]
    split
    · exact .of_eq (by simp)
    · split
      · split <;> exact .of_eq rfl
      · split <;> exact .of_eq rfl
  | literal codes =>
    simp only [takeSymbol]
    split
    · exact state.grows_emit (UInt8.ofNat symbol) rfl
    · split
      · exact .of_eq (by simp)
      · split <;> exact .of_eq (by simp)
  | distance codes length =>
    simp only [takeSymbol]
    split
    · exact state.grows_readDistanceExtra codes length _ _
    · exact .of_eq rfl

theorem grows_push (bit : Bool) : Grows state (state.push bit) := by
  obtain ⟨task, lastBlock, taken, output⟩ := state
  cases task with
  | number meaning width got value =>
    simp only [push]
    split
    · exact grows_takeNumber _ meaning _
    · exact .of_eq rfl
  | symbol alphabet tree =>
    simp only [push]
    split
    · exact grows_takeSymbol _ alphabet _
    · exact .of_eq rfl
    · exact .of_eq rfl
  | done => exact .of_eq rfl
  | bad => exact .of_eq rfl

theorem grows_pushBits (bits : List Bool) : Grows state (state.pushBits bits) := by
  induction bits generalizing state with
  | nil => exact .of_eq rfl
  | cons bit rest ih => exact (state.grows_push bit).trans (ih (state.push bit))

theorem grows_feed (block : List UInt8) : Grows state (state.feed block) := by
  induction block generalizing state with
  | nil => exact .of_eq rfl
  | cons byte rest ih => exact (state.grows_pushBits (bitsOfByte byte)).trans (ih _)

end Inflate

end PdfFilters

import PdfFilters.Deflate.Alphabet
import PdfFilters.Deflate.Token

/-!
# Inflating, bit by bit

`Inflate` is a machine that takes a compressed stream one bit at a time (`Inflate.push`) and whose
output only ever grows. Between two bits it is always in one of four situations (`Task`): in the
middle of a number of known width, somewhere in a code tree, after the end of the stream, or
after an error. What the number or the symbol is for is part of the situation.

So the machine never waits for more input than it needs: a byte is put out with the last bit of
its code word, a copy with the last bit of its distance, and an error shows with the bit that makes
it certain. What was read in one block or in several cannot make a difference.

The stream is a header of two bytes, blocks that are stored or coded, and a checksum that starts
at the border of a byte.
-/

namespace PdfFilters

/-- How many code words a block with codes of its own describes. -/
structure BlockSizes where
  /-- Words for bytes, block ends and lengths. -/
  literals : Nat
  /-- Words for distances. -/
  distances : Nat
  /-- Words of the code in which the word lengths are written. -/
  lengths : Nat

/-- A description of codes in the middle of its word lengths. -/
structure LengthReader where
  sizes : BlockSizes
  tree : CodeTree
  /-- The word lengths so far, for both codes in one sequence. -/
  lengths : Array Nat

/-- What a number in the stream is for. -/
inductive Meaning where
  /-- The two bytes at the start. -/
  | header
  /-- The three bits before a block. -/
  | blockStart
  /-- The rest of a byte before a stored block. -/
  | storedGap
  /-- The length of a stored block, and its complement. -/
  | storedLength
  /-- A stored byte, with so many to go, itself included. -/
  | storedByte (left : Nat)
  /-- How many code words are described. -/
  | sizes
  /-- A word length of the code for word lengths, after those that are known. -/
  | lengthLength (sizes : BlockSizes) (known : List Nat)
  /-- How many more than `base` word lengths are equal to `length`. -/
  | repetition (reader : LengthReader) (length base : Nat)
  /-- How much longer than `base` a copy is. -/
  | lengthExtra (codes : BlockCodes) (base : Nat)
  /-- How much further back than `base` a copy starts. -/
  | distanceExtra (codes : BlockCodes) (length base : Nat)
  /-- The rest of a byte before the checksum. -/
  | checksumGap
  /-- The checksum. -/
  | checksum

/-- What a symbol in the stream is for. -/
inductive Alphabet where
  /-- A word length. -/
  | wordLength (reader : LengthReader)
  /-- A byte, a block end, or the length of a copy. -/
  | literal (codes : BlockCodes)
  /-- The distance of a copy of this length. -/
  | distance (codes : BlockCodes) (length : Nat)

/-- The situation between two bits. -/
inductive Task where
  /-- In a number of `width` bits, of which `got` are known and make up `value`. -/
  | number (meaning : Meaning) (width got value : Nat)
  /-- At a branch of a code tree. -/
  | symbol (alphabet : Alphabet) (branch : CodeTree)
  /-- The stream has ended. -/
  | done
  /-- The stream is in error. -/
  | bad

/-- The machine between two bits. -/
structure Inflate where
  task : Task
  /-- The current block is the last one. -/
  lastBlock : Bool
  /-- Bits taken so far. -/
  taken : Nat
  /-- All output so far. -/
  output : Array UInt8

namespace Inflate

/-- Before the first bit. -/
def start : Inflate := ⟨.number .header 16 0 0, false, 0, #[]⟩

/-- The machine with another situation. -/
def goTo (state : Inflate) (task : Task) : Inflate := { state with task }

/-- Give up. -/
def reject (state : Inflate) : Inflate := state.goTo .bad

/-- Read a number of at least one bit. -/
def readNumber (state : Inflate) (meaning : Meaning) (width : Nat) : Inflate :=
  state.goTo (.number meaning width 0 0)

/-- How many bits are left of the current byte. -/
def gap (state : Inflate) : Nat := (8 - state.taken % 8) % 8

/-- Read the checksum, from the border of a byte on. -/
def readChecksum (state : Inflate) : Inflate :=
  if state.gap = 0 then state.readNumber .checksum 32
  else state.readNumber .checksumGap state.gap

/-- A block has ended: go on with the next one, or with the checksum. -/
def endBlock (state : Inflate) : Inflate :=
  if state.lastBlock then state.readChecksum else state.readNumber .blockStart 3

/-- Read so many stored bytes. -/
def readStored (state : Inflate) (left : Nat) : Inflate :=
  if left = 0 then state.endBlock else state.readNumber (.storedByte left) 8

/-- Read the length of a stored block, from the border of a byte on. -/
def readStoredLength (state : Inflate) : Inflate :=
  if state.gap = 0 then state.readNumber .storedLength 32
  else state.readNumber .storedGap state.gap

/-- Read the next symbol of a block. -/
def readLiteral (state : Inflate) (codes : BlockCodes) : Inflate :=
  state.goTo (.symbol (.literal codes) codes.literals)

/-- Copy from earlier output, if it goes back far enough. -/
def copy (state : Inflate) (codes : BlockCodes) (length distance : Nat) : Inflate :=
  match state with
  | ⟨task, lastBlock, taken, output⟩ =>
    if distance ≤ output.size then
      readLiteral ⟨task, lastBlock, taken, copyBack distance length output⟩ codes
    else reject ⟨task, lastBlock, taken, output⟩

/-- Put out a byte. -/
def emit (state : Inflate) (byte : UInt8) : Inflate :=
  match state with
  | ⟨task, lastBlock, taken, output⟩ => ⟨task, lastBlock, taken, output.push byte⟩

/-- A copy of a known length starts at least `base` back; read how much further. -/
def readDistanceExtra (state : Inflate) (codes : BlockCodes) (length base width : Nat) : Inflate :=
  if width = 0 then state.copy codes length base
  else state.readNumber (.distanceExtra codes length base) width

/-- Read the distance of a copy. -/
def readDistance (state : Inflate) (codes : BlockCodes) (length : Nat) : Inflate :=
  state.goTo (.symbol (.distance codes length) codes.distances)

/-- A copy is at least `base` long; read how much longer. -/
def readLengthExtra (state : Inflate) (codes : BlockCodes) (base width : Nat) : Inflate :=
  if width = 0 then state.readDistance codes base
  else state.readNumber (.lengthExtra codes base) width

/-- All word lengths are known: make the codes of the block, which must be able to end it. -/
def openBlock (state : Inflate) (sizes : BlockSizes) (lengths : Array Nat) : Inflate :=
  let literals := lengths.toList.take sizes.literals
  if literals.getD endOfBlock 0 = 0 then state.reject
  else
    match CodeTree.ofLengths? literals true,
        CodeTree.ofLengths? (lengths.toList.drop sizes.literals) true with
    | some literals, some distances => state.readLiteral ⟨literals, distances⟩
    | _, _ => state.reject

/-- Read the next word length, unless all are known. -/
def readWordLength (state : Inflate) (reader : LengthReader) : Inflate :=
  let wanted := reader.sizes.literals + reader.sizes.distances
  if reader.lengths.size < wanted then state.goTo (.symbol (.wordLength reader) reader.tree)
  else if reader.lengths.size = wanted then state.openBlock reader.sizes reader.lengths
  else state.reject

/-- Read the next word length of the code for word lengths, unless all are known. -/
def readLengthLength (state : Inflate) (sizes : BlockSizes) (known : List Nat) : Inflate :=
  if known.length < sizes.lengths then state.readNumber (.lengthLength sizes known) 3
  else
    let lengths := (List.range 19).map fun symbol =>
      known.getD (lengthOrder.idxOf symbol) 0
    match CodeTree.ofLengths? lengths false with
    | some tree => state.readWordLength { sizes, tree, lengths := #[] }
    | none => state.reject

/-- Whether the first two bytes announce a stream that this machine reads: the method and window
that exist, no dictionary set up beforehand, and a number in all that 31 divides. -/
def headerIsGood (value : Nat) : Bool :=
  let method := value % 256
  let flags := value / 256
  (method * 256 + flags) % 31 = 0 ∧ method % 16 = 8 ∧ method / 16 ≤ 7 ∧ flags / 32 % 2 = 0

/-- A number is complete. -/
def takeNumber (state : Inflate) (meaning : Meaning) (value : Nat) : Inflate :=
  match meaning with
  | .header => if headerIsGood value then state.readNumber .blockStart 3 else state.reject
  | .blockStart =>
    let state := { state with lastBlock := value % 2 = 1 }
    match value / 2 with
    | 0 => state.readStoredLength
    | 1 => state.readLiteral fixedCodes
    | 2 => state.readNumber .sizes 14
    -- There is no fourth kind of block.
    | _ => state.reject
  | .storedGap => state.readNumber .storedLength 32
  | .storedLength =>
    -- The upper half is the complement of the length.
    if value % 65536 + value / 65536 = 65535 then state.readStored (value % 65536)
    else state.reject
  | .storedByte left => (state.emit (UInt8.ofNat value)).readStored (left - 1)
  | .sizes =>
    let sizes : BlockSizes := ⟨value % 32 + 257, value / 32 % 32 + 1, value / 1024 + 4⟩
    -- The fields could ask for more words than there are symbols.
    if sizes.literals ≤ 286 ∧ sizes.distances ≤ 30 then state.readLengthLength sizes []
    else state.reject
  | .lengthLength sizes known => state.readLengthLength sizes (known ++ [value])
  | .repetition reader length base =>
    state.readWordLength
      { reader with lengths := reader.lengths ++ List.replicate (base + value) length }
  | .lengthExtra codes base => state.readDistance codes (base + value)
  | .distanceExtra codes length base => state.copy codes length (base + value)
  | .checksumGap => state.readNumber .checksum 32
  | .checksum =>
    if value = numberOf (bitsOf (Adler.ofArray state.output).encoded) then state.goTo .done
    else state.reject

/-- A symbol is complete. -/
def takeSymbol (state : Inflate) (alphabet : Alphabet) (symbol : Nat) : Inflate :=
  match alphabet with
  | .wordLength reader =>
    if symbol < 16 then
      state.readWordLength { reader with lengths := reader.lengths.push symbol }
    else if symbol = 16 then
      match reader.lengths.back? with
      | some length => state.readNumber (.repetition reader length 3) 2
      | none => state.reject
    else if symbol = 17 then state.readNumber (.repetition reader 0 3) 3
    else state.readNumber (.repetition reader 0 11) 7
  | .literal codes =>
    if symbol < endOfBlock then (state.emit (UInt8.ofNat symbol)).readLiteral codes
    else if symbol = endOfBlock then state.endBlock
    else
      -- The fixed code has words for two more symbols, which stand for nothing.
      match lengthSlots[symbol - 257]? with
      | some (base, width) => state.readLengthExtra codes base width
      | none => state.reject
  | .distance codes length =>
    match distanceSlots[symbol]? with
    | some (base, width) => state.readDistanceExtra codes length base width
    | none => state.reject

/-- Take one bit. -/
def push (state : Inflate) (bit : Bool) : Inflate :=
  match state with
  | ⟨task, lastBlock, taken, output⟩ =>
    match task with
    | .number meaning width got value =>
      let value := value + bit.toNat <<< got
      if got + 1 = width then takeNumber ⟨.bad, lastBlock, taken + 1, output⟩ meaning value
      else ⟨.number meaning width (got + 1) value, lastBlock, taken + 1, output⟩
    | .symbol alphabet tree =>
      match tree.branch bit with
      | .leaf symbol => takeSymbol ⟨.bad, lastBlock, taken + 1, output⟩ alphabet symbol
      | .vacant => ⟨.bad, lastBlock, taken + 1, output⟩
      | .fork zero one => ⟨.symbol alphabet (.fork zero one), lastBlock, taken + 1, output⟩
    | .done => ⟨.done, lastBlock, taken, output⟩
    | .bad => ⟨.bad, lastBlock, taken, output⟩

/-- Take some bits. -/
def pushBits (state : Inflate) (bits : List Bool) : Inflate := bits.foldl push state

/-- Take a block of bytes. -/
def feed (state : Inflate) (block : List UInt8) : Inflate :=
  block.foldl (fun state byte => state.pushBits (bitsOfByte byte)) state

/-- How the stream is cut into blocks makes no difference. -/
theorem feed_append (state : Inflate) (first second : List UInt8) :
    state.feed (first ++ second) = (state.feed first).feed second := by
  simp [feed]

/-- Whether an error has been found. -/
def isBad (state : Inflate) : Bool :=
  match state.task with
  | .bad => true
  | _ => false

/-- Whether the stream has ended. -/
def isDone (state : Inflate) : Bool :=
  match state.task with
  | .done => true
  | _ => false

theorem push_of_isBad {state : Inflate} (corrupt : state.isBad) (bit : Bool) :
    state.push bit = state := by
  obtain ⟨task, lastBlock, taken, output⟩ := state
  cases task <;> simp_all [isBad, push]

theorem push_of_isDone {state : Inflate} (ended : state.isDone) (bit : Bool) :
    state.push bit = state := by
  obtain ⟨task, lastBlock, taken, output⟩ := state
  cases task <;> simp_all [isDone, push]

/-- A machine that no bit changes is not changed by blocks. -/
theorem feed_of_push_eq {state : Inflate} (still : ∀ bit, state.push bit = state)
    (block : List UInt8) : state.feed block = state := by
  have bits (bits : List Bool) : state.pushBits bits = state := by
    induction bits with
    | nil => rfl
    | cons bit rest ih => rw [pushBits, List.foldl_cons, still bit]; exact ih
  induction block with
  | nil => rfl
  | cons byte rest ih => rw [feed, List.foldl_cons, bits]; exact ih

/-- After an error nothing changes any more. -/
theorem feed_of_isBad {state : Inflate} (corrupt : state.isBad) (block : List UInt8) :
    state.feed block = state :=
  feed_of_push_eq (push_of_isBad corrupt) block

/-- What comes after the end of the stream is not looked at. -/
theorem feed_of_isDone {state : Inflate} (ended : state.isDone) (block : List UInt8) :
    state.feed block = state :=
  feed_of_push_eq (push_of_isDone ended) block

/-- Take bytes up to the end of the stream, and tell which ones are left. -/
def advance (state : Inflate) : List UInt8 → Inflate × List UInt8
  | [] => (state, [])
  | byte :: rest =>
    if state.isDone then (state, byte :: rest) else (state.pushBits (bitsOfByte byte)).advance rest

/-- What is left is not looked at. -/
theorem fst_advance (state : Inflate) (block : List UInt8) : (state.advance block).1 = state.feed block := by
  induction block generalizing state with
  | nil => rfl
  | cons byte rest ih =>
    rw [advance]
    split
    next ended => exact (feed_of_isDone ended _).symm
    next => exact ih _

/-- Bytes are only left behind the end of the stream, and some are taken before it. -/
theorem exists_of_advance (state : Inflate) (block : List UInt8) :
    ∃ taken, block = taken ++ (state.advance block).2
      ∧ ((state.advance block).2 = [] ∨ (state.feed block).isDone)
      ∧ (taken = [] → block = [] ∨ state.isDone) := by
  induction block generalizing state with
  | nil => exact ⟨[], rfl, .inl rfl, fun _ => .inl rfl⟩
  | cons byte rest ih =>
    rw [advance]
    split
    next ended =>
      rw [feed_of_isDone ended]
      exact ⟨[], rfl, .inr ended, fun _ => .inr ended⟩
    next =>
      obtain ⟨taken, all, left, -⟩ := ih (state.pushBits (bitsOfByte byte))
      refine ⟨byte :: taken, congrArg (List.cons byte) all, left, ?_⟩
      intro none
      cases none

end Inflate

end PdfFilters

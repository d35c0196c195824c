import PdfFilters.Deflate.Cutting
import PdfFilters.Deflate.Description

/-!
# Blocks

A stretch of data is a block: stored byte by byte (`storedBlock`), or written as tokens
(`codedBlock`). A coded block uses the fixed codes, or codes of its own that suit how often its
symbols occur, which it describes first. Blocks follow one another without a gap, and only the bytes
of a stored one start at the border of a byte.

Words are looked up in the tree that a reader follows (`CodeTree.wordOf?`), so a word leads to its
symbol whatever the lengths are. A symbol without a word would make a block impossible; then the
fixed codes take over, which have a word for every symbol.
-/

namespace PdfFilters

/-- The greatest length of a stored block. -/
def maxStored : Nat := 65535

/-- A stored block of at most `maxStored` bytes, behind `offset` bits of blocks before it. -/
def storedBlock (offset : Nat) (last : Bool) (bytes : List UInt8) : List Bool :=
  let length := bytes.length
  (last :: field 2 0) ++ (List.replicate (padding (offset + 3)) false
    ++ (field 16 length ++ field 16 (maxStored - length))) ++ bitsOf bytes

/-- The words of the two codes of a block, symbol by symbol. -/
structure BlockWords where
  literals : Array (Option (List Bool))
  distances : Array (Option (List Bool))

namespace BlockWords

/-- The words that lead to the symbols of two codes. -/
def ofCodes (codes : BlockCodes) : BlockWords where
  literals := (Array.range literalCount).map codes.literals.wordOf?
  distances := (Array.range distanceCount).map codes.distances.wordOf?

/-- The word of a byte, a block end or a length symbol. -/
def literal? (words : BlockWords) (symbol : Nat) : Option (List Bool) :=
  words.literals.getD symbol none

/-- The word of a distance symbol. -/
def distance? (words : BlockWords) (symbol : Nat) : Option (List Bool) :=
  words.distances.getD symbol none

end BlockWords

/-- The extra bits that pick a number from the range of its symbol. -/
def slotBits (slots : List (Nat × Nat)) (value : Nat) : List Bool :=
  let (first, width) := slots.getD (slotOf slots value) (0, 0)
  field width (value - first)

/-- The bits of a token, if its symbols have words. -/
def Token.bits? (words : BlockWords) (token : Token) : Option (List Bool) :=
  match token with
  | .byte _ => words.literal? token.literalSymbol
  | .copy length distance => do
    let lengthWord ← words.literal? token.literalSymbol
    let distanceWord ← words.distance? (slotOf distanceSlots distance)
    return lengthWord ++ slotBits lengthSlots length
      ++ (distanceWord ++ slotBits distanceSlots distance)

/-- The bits of tokens and of the end of their block, if all symbols have words. -/
def tokenBits? (words : BlockWords) (tokens : List Token) : Option (List Bool) := do
  let bits ← tokens.mapM (Token.bits? words)
  return bits.flatten ++ (← words.literal? endOfBlock)

/-- A block of tokens in codes of its own. -/
def ownBlock? (last : Bool) (tokens : List Token) : Option (List Bool) := do
  let symbols := endOfBlock :: tokens.map Token.literalSymbol
  let literals := wordLengths CodeTree.maxLength (countSymbols literalCount symbols)
  let distances :=
    wordLengths CodeTree.maxLength
      (countSymbols distanceCount (tokens.filterMap Token.distanceSymbol?))
  let literals := trimZeros 257 literals
  let distances := trimZeros 1 distances
  let codes : BlockCodes :=
    ⟨← CodeTree.ofLengths? literals true, ← CodeTree.ofLengths? distances true⟩
  return (last :: field 2 2) ++ (← descriptionBits? literals distances)
    ++ (← tokenBits? (.ofCodes codes) tokens)

/-- The words of the fixed codes. -/
def fixedWords : BlockWords := .ofCodes fixedCodes

/-- A block of tokens in the fixed codes. -/
def fixedBlock (last : Bool) (tokens : List Token) : List Bool :=
  (last :: field 2 1) ++ (tokenBits? fixedWords tokens).getD []

/-- The size from which a block has codes of its own. Below it the description does not pay. -/
def leastOwn : Nat := 48

/-- Tokens for so many bytes as a block. -/
def codedBlock (last : Bool) (size : Nat) (tokens : List Token) : List Bool :=
  if size < leastOwn then fixedBlock last tokens
  else (ownBlock? last tokens).getD (fixedBlock last tokens)

/-- The size up to which data are coded in any case: words of the fixed codes have at most nine
bits, and what they lose against a byte is less than a stored block needs for its length. -/
def mostCoded : Nat := 32

/-- Data as a block behind `offset` bits: coded with the effort of the level, or stored at level 0
and where coding saves nothing. -/
def block (level offset : Nat) (last : Bool) (data : Array UInt8) : List Bool :=
  if level = 0 then storedBlock offset last data.toList
  else
    let coded := codedBlock last data.size (tokens level data).toList
    if mostCoded < data.size ∧ data.size ≤ coded.length / 8 + 1 then
      storedBlock offset last data.toList
    else coded

end PdfFilters

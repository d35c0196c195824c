import PdfFilters.Deflate.Match

/-!
# Cutting data into tokens

`tokens` cuts data into bytes and copies, with an `Effort` that grows with the level. The lowest
level is hasty: it looks at one earlier place only, and remembers only the places where its tokens
start. The levels above search along the links. The lower ones of them are greedy and take every
match; the others look at the next place first, and put a byte in front if that leads to a longer
match.

A copy is only ever made of bytes that agree, so the expansion of the tokens is the data again,
however good the search.
-/

namespace PdfFilters

/-- How hard to look for matches. -/
structure Effort where
  /-- The rounds of a search. -/
  rounds : Nat
  /-- The rounds of a search for something better than a match that is long already. -/
  roundsWhenLong : Nat
  /-- Whether a match has to be as long as the one at the next place. -/
  isPatient : Bool

namespace Effort

/-- How many places a search looks at, level by level. -/
def visits : List Nat := [0, 1, 6, 32, 16, 32, 128, 256, 512, 768]

/-- The effort of a level. -/
def ofLevel (level : Nat) : Effort :=
  let visits := visits.getD level 0
  ⟨(visits + 2) / 3, (visits / 4 + 2) / 3, 4 ≤ level⟩

/-- The length from which a match counts as long. -/
def longLength : Nat := 32

/-- The length from which a match is taken without a look at the next place. -/
def fineLength : Nat := 128

/-- Look for a match at a place that is longer than `floor`. -/
def find? (effort : Effort) (searched : Searched) (place floor : Nat) : Option Match :=
  searched.find? (if floor < longLength then effort.rounds else effort.roundsWhenLong) place floor

/-- A longer match at the next place, if one is wanted. -/
def findBetter? (effort : Effort) (searched : Searched) (place : Nat) (found : Match) :
    Option Match :=
  if effort.isPatient ∧ found.length < fineLength then
    effort.find? searched (place + 1) found.length
  else none

/-- Cut the data from a place on, behind the tokens found already. A match at the place may be
known from before. -/
def cutFrom (effort : Effort) (searched : Searched) (place : Nat) (known : Option Match)
    (found : Array Token) : Array Token :=
  if h : place < searched.data.size then
    let byte := Token.byte searched.data[place]
    match known.or (effort.find? searched place (Token.minLength - 1)) with
    | none => cutFrom effort searched (place + 1) none (found.push byte)
    | some best =>
      match effort.findBetter? searched place best with
      | some better => cutFrom effort searched (place + 1) (some better) (found.push byte)
      | none => cutFrom effort searched (place + best.length) none (found.push best.token)
  else found
  termination_by searched.data.size - place
  decreasing_by
    · omega
    · omega
    · have := best.length_pos
      omega

end Effort

namespace Hasty

/-- Data are cut in pieces of this size, and no copy crosses the end of a piece. -/
def pieceSize : Nat := 4096

/-- How many bytes a piece holds from a place on. -/
def leftOfPiece (data : Array UInt8) (place : Nat) : Nat :=
  min data.size ((place / pieceSize + 1) * pieceSize) - place

/-- The number of buckets. -/
def bucketCount : Nat := 4096

/-- The bucket of the three bytes that start at a place. -/
def bucketOf (data : Array UInt8) (place : Nat) : Nat :=
  let bytes := (data.getD place 0).toNat + (data.getD (place + 1) 0).toNat * 256
    + (data.getD (place + 2) 0).toNat * 65536
  (bytes ^^^ bytes / 131072) % bucketCount

/-- The match of a place with an earlier one, if it is near and long enough. -/
def match? (data : Array UInt8) (place source : Nat) : Option Match :=
  let left := leftOfPiece data place
  let length := agreement data source place (min Token.maxLength left)
  if long : Token.minLength ≤ length ∧ source < place
      ∧ place - source ≤ min place (Token.maxDistance - left) then
    some ⟨length, place - source, Nat.lt_of_lt_of_le (by decide) long.1⟩
  else none

/-- Cut the data from a place on, behind the tokens found already, given the last place of each
bucket. The last bytes of a piece are not searched for. -/
def cutFrom (data : Array UInt8) (place : Nat) (latest : Array Nat) (found : Array Token) :
    Array Token :=
  if h : place < data.size then
    if leftOfPiece data place ≤ Token.minLength then
      cutFrom data (place + 1) latest (found.push (.byte data[place]))
    else
      let bucket := bucketOf data place
      let source := latest.getD bucket 0
      let latest := latest.setIfInBounds bucket place
      match (match? data place source).filter Match.isWorthwhile with
      | some best => cutFrom data (place + best.length) latest (found.push best.token)
      | none => cutFrom data (place + 1) latest (found.push (.byte data[place]))
  else found
  termination_by data.size - place
  decreasing_by
    · omega
    · have := best.length_pos
      omega
    · omega

end Hasty

/-- Tokens that expand to the data. -/
def tokens (level : Nat) (data : Array UInt8) : Array Token :=
  if level = 1 then Hasty.cutFrom data 0 (Array.replicate Hasty.bucketCount 0) #[]
  else (Effort.ofLevel level).cutFrom (Searched.ofData data) 0 none #[]

end PdfFilters

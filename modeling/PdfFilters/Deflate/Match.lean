import PdfFilters.Deflate.Token

/-!
# Looking for earlier bytes

A `Match` at a place of some data is a stretch of bytes that stands earlier as well. To find one,
places are sorted into buckets by the three bytes that start there (`bucketOf`), and every place is
linked to the last one before it in its bucket (`linksOf`). `follow` walks back along the links,
compares, and keeps the longest match. Places of different bytes may share a bucket, which costs
time only: a match is never longer than the bytes that were compared one by one (`agreement`).

Place zero is linked to by none, since zero is the link of a place that is the first in its bucket.
So the bytes there are never copied by this search.
-/

namespace PdfFilters

/-- How many bytes, at most `limit`, agree from two places on. -/
def agreement (data : Array UInt8) (first second : Nat) : (limit : Nat) → Nat
  | 0 => 0
  | limit + 1 =>
    if data.getD first 0 = data.getD second 0 then
      agreement data (first + 1) (second + 1) limit + 1
    else 0

/-- Bytes that stand `distance` back as well. -/
structure Match where
  length : Nat
  distance : Nat
  length_pos : 0 < length

namespace Match

/-- The copy that a match allows. -/
def token (found : Match) : Token := .copy found.length found.distance

/-- Whether the copy is taken rather than the bytes: the shortest one is not if it comes from too
far, because its distance takes more bits than the bytes do. -/
def isWorthwhile (found : Match) : Bool :=
  Token.minLength < found.length ∨ found.length = Token.minLength ∧ found.distance < 8192

end Match

/-- The number of buckets. -/
def bucketCount : Nat := 32768

/-- The bucket of the three bytes that start at a place. -/
def bucketOf (data : Array UInt8) (place : Nat) : Nat :=
  let first := (data.getD place 0).toNat * 1024
  let second := (data.getD (place + 1) 0).toNat * 32
  (first ^^^ second ^^^ (data.getD (place + 2) 0).toNat) % bucketCount

/-- Link the places from this one on, given the last place of each bucket. -/
def linksFrom (data : Array UInt8) (place : Nat) (latest links : Array Nat) : Array Nat :=
  if place + 2 < data.size then
    let bucket := bucketOf data place
    let link := latest.getD bucket 0
    linksFrom data (place + 1) (latest.setIfInBounds bucket place) (links.push link)
  else links
  termination_by data.size - place

/-- For every place at which three bytes start, the last place before it in the same bucket. -/
def linksOf (data : Array UInt8) : Array Nat :=
  linksFrom data 0 (Array.replicate bucketCount 0) #[]

/-- Data that are searched, with the links of their places. -/
structure Searched where
  data : Array UInt8
  links : Array Nat

namespace Searched

/-- Data made ready to be searched. -/
def ofData (data : Array UInt8) : Searched := ⟨data, linksOf data⟩

/-- The longest match at a place that there can be. -/
def longest (searched : Searched) (place : Nat) : Nat :=
  min Token.maxLength (searched.data.size - place)

/-- Whether a match at `place` with the bytes at `source` may be longer than `floor`, judging by
the last two bytes that it would need. -/
def mayBeat (searched : Searched) (place source floor : Nat) : Bool :=
  searched.data.getD (source + floor - 1) 0 = searched.data.getD (place + floor - 1) 0
    ∧ searched.data.getD (source + floor) 0 = searched.data.getD (place + floor) 0

/-- Walk back from `source` for matches at `place` that are longer than `floor`, at most `reach`
back. Every round allows three steps, and a comparison ends the round. -/
def follow (searched : Searched) (place reach : Nat) :
    (rounds steps source floor : Nat) → (best : Option Match) → Option Match
  | 0, 0, _, _, best => best
  | rounds + 1, 0, source, floor, best => follow searched place reach rounds 3 source floor best
  | rounds, steps + 1, source, floor, best =>
    let source := searched.links.getD source 0
    if source = 0 ∨ reach < place - source then best
    else if searched.mayBeat place source floor then
      let length := agreement searched.data source place (searched.longest place)
      if longer : floor < length then
        let best := some ⟨length, place - source, by omega⟩
        if length = searched.longest place then best
        else follow searched place reach rounds 0 source length best
      else follow searched place reach rounds 0 source floor best
    else follow searched place reach rounds steps source floor best
  termination_by rounds steps => (rounds, steps)

/-- A match at a place that is longer than `floor`, if one is found in so many rounds. The bytes
in which the match may lie count towards the greatest distance. -/
def find? (searched : Searched) (rounds place floor : Nat) : Option Match :=
  let longest := searched.longest place
  if longest ≤ floor then none
  else
    (searched.follow place (min place (Token.maxDistance - longest)) rounds 0 place floor none).filter
      Match.isWorthwhile

end Searched

end PdfFilters

/-!
# Word lengths that suit the counts of symbols

A code is best when rare symbols have long words. `mergeAll` joins the two lightest groups of
symbols under a common branch until one group is left, and tells how many symbols then lie at each
depth. `shorten` keeps the depths within a limit, and `wordLengths` deals them out, the longest
words to the rarest symbols.

Every word takes a share of the whole code, half as much with each bit (`shareOf`). The shares of a
group add up to the whole; those of words cut to the limit exceed it, and each step of `shorten`
takes the smallest share off again.
-/

namespace PdfFilters

/-- Symbols under a common branch: how often they occur, and how many of them lie so many levels
below the branch. -/
structure Group where
  weight : Nat
  depths : List Nat

/-- Add up two lists number by number; what is left of the longer one stays. -/
def addDepths : List Nat → List Nat → List Nat
  | [], second => second
  | first, [] => first
  | a :: first, b :: second => (a + b) :: addDepths first second

namespace Group

/-- A symbol by itself. -/
def single (count : Nat) : Group := ⟨count, [1]⟩

/-- Two groups under a common branch. -/
def join (first second : Group) : Group :=
  ⟨first.weight + second.weight, 0 :: addDepths first.depths second.depths⟩

/-- Put a group into a queue that is ordered by weight, behind those of its own weight. -/
def insert (group : Group) : List Group → List Group
  | [] => [group]
  | next :: rest =>
    if group.weight < next.weight then group :: next :: rest else next :: group.insert rest

/-- A queue grows by the group that is put into it. -/
theorem length_insert (group : Group) (queue : List Group) :
    (group.insert queue).length = queue.length + 1 := by
  induction queue with
  | nil => rfl
  | cons next rest ih => by_cases lighter : group.weight < next.weight <;> simp [insert, lighter, ih]

/-- Join the two lightest groups until one is left, and tell its depths. -/
def mergeAll : List Group → List Nat
  | [] => []
  | [group] => group.depths
  | first :: second :: rest => mergeAll ((first.join second).insert rest)
  termination_by queue => queue.length
  decreasing_by simp [length_insert]

end Group

/-- The share of the whole code that words take, in units of the smallest. The words are counted by
length, those of one bit first. -/
def shareOf (counts : List Nat) : Nat := counts.foldl (fun share count => 2 * share + count) 0

/-- Lengthen a word: of the longest of these words one becomes two, a bit longer, which join the
`longer` ones. The words are counted by length, the longest first. -/
def lengthen (longer : Nat) : List Nat → List Nat
  | [] => [longer]
  | count :: rest =>
    if count = 0 then longer :: lengthen 0 rest else (longer + 2) :: (count - 1) :: rest

/-- Take so many of the smallest shares off: each time, a word of the greatest length goes, and
comes back beside a shorter word that is lengthened. -/
def takeOff : (excess : Nat) → List Nat → List Nat
  | 0, counts => counts
  | _ + 1, [] => []
  | excess + 1, longest :: rest => takeOff excess (lengthen (longest - 1) rest)

/-- Bring words to at most `limit` bits, and their share to that of a whole code. The words are
counted by length, those of one bit first. -/
def shorten (limit : Nat) (counts : List Nat) : List Nat :=
  let beyond := (counts.drop limit).foldl (· + ·) 0
  let capped := (counts ++ List.replicate limit 0).take limit
  match capped.reverse with
  | [] => []
  | longest :: rest =>
    let counts := (longest + beyond) :: rest
    (takeOff (shareOf counts.reverse - 1 <<< limit) counts).reverse

/-- The lengths of words that are counted by length, in ascending order. -/
def spread (counts : List Nat) : List Nat :=
  (counts.zipIdx 1).flatMap fun (count, length) => List.replicate count length

/-- How many words of each length, from one bit on, suit the counts of symbols, the rarest first. A
lone symbol has a word of one bit. -/
def lengthCounts (limit : Nat) : List Nat → List Nat
  | [] => []
  | [_] => [1]
  | counts => shorten limit ((Group.mergeAll (counts.map Group.single)).drop 1)

/-- The word lengths of a code that suits the counts of its symbols, zero for symbols that do not
occur. Of two symbols with one count the first is taken to be the rarer. -/
def wordLengths (limit : Nat) (counts : List Nat) : List Nat :=
  let present := (counts.zipIdx.filter (·.1 ≠ 0)).mergeSort (·.1 ≤ ·.1)
  let lengths := spread (lengthCounts limit (present.map Prod.fst))
  let dealt := (present.reverse.map Prod.snd).zip lengths
  (dealt.foldl (fun known (symbol, length) => known.setIfInBounds symbol length)
    (Array.replicate counts.length 0)).toList

end PdfFilters

import PdfFilters.Deflate.Alphabet
import PdfFilters.Deflate.WordLengths

/-!
# How a block describes its codes

A block with codes of its own begins with the lengths of their words. The lengths of both codes are
one list, shortened by writing runs of equal lengths as repetitions (`LengthItem`), and the items
have a code of their own, whose word lengths come first, as plain numbers.

`describe` finds items whose expansion is the list again (`expand_describe`), and
`descriptionBits?` writes down the whole.
-/

namespace PdfFilters

/-- A piece of a list of word lengths. -/
inductive LengthItem where
  /-- One length. -/
  | once (length : Nat)
  /-- The length before, so many times again: three to six. -/
  | again (count : Nat)
  /-- So many zeros: three to 138. -/
  | zeros (count : Nat)

namespace LengthItem

/-- The word lengths with what the item stands for at the end. -/
def expand (known : List Nat) : LengthItem → List Nat
  | .once length => known ++ [length]
  | .again count => known ++ List.replicate count (known.getLast?.getD 0)
  | .zeros count => known ++ List.replicate count 0

/-- How many zeros the smaller of the two symbols for zeros can stand for. -/
def fewZeros : Nat := 10

/-- The symbol of the item. -/
def symbol : LengthItem → Nat
  | .once length => length
  | .again _ => 16
  | .zeros count => if count ≤ fewZeros then 17 else 18

/-- The extra bits behind the symbol. -/
def extraBits : LengthItem → List Bool
  | .once _ => []
  | .again count => field 2 (count - 3)
  | .zeros count => if count ≤ fewZeros then field 3 (count - 3) else field 7 (count - 11)

end LengthItem

/-- The fewest lengths that one item repeats. -/
def leastRepeated : Nat := 3

/-- The most zeros in one item. -/
def mostZeros : Nat := 138

/-- The most repetitions of another length in one item. -/
def mostAgain : Nat := 6

/-- Items for so many zeros. -/
def describeZeros (count : Nat) : List LengthItem :=
  if mostZeros ≤ count then .zeros mostZeros :: describeZeros (count - mostZeros)
  else if leastRepeated ≤ count then [.zeros count]
  else List.replicate count (.once 0)
  termination_by count
  decreasing_by simp only [mostZeros] at *; omega

/-- Items for so many repetitions of the length before. -/
def describeAgain (length count : Nat) : List LengthItem :=
  if mostAgain ≤ count then .again mostAgain :: describeAgain length (count - mostAgain)
  else if leastRepeated ≤ count then [.again count]
  else List.replicate count (.once length)
  termination_by count
  decreasing_by simp only [mostAgain] at *; omega

/-- Items that expand to the word lengths. -/
def describe : (lengths : List Nat) → List LengthItem
  | [] => []
  | length :: rest =>
    let count := (rest.takeWhile (· = length)).length
    (if length = 0 then describeZeros (count + 1) else .once length :: describeAgain length count)
      ++ describe (rest.dropWhile (· = length))
  termination_by lengths => lengths.length
  decreasing_by
    have := (rest.dropWhile_sublist (· = length)).length_le
    simp only [List.length_cons]
    omega

theorem expand_replicate_once (known : List Nat) (count length : Nat) :
    (List.replicate count (LengthItem.once length)).foldl LengthItem.expand known =
      known ++ List.replicate count length := by
  induction count generalizing known with
  | zero => simp
  | succ count ih => simp [List.replicate_succ, LengthItem.expand, ih]

theorem expand_describeZeros (known : List Nat) (count : Nat) :
    (describeZeros count).foldl LengthItem.expand known = known ++ List.replicate count 0 := by
  fun_induction describeZeros count generalizing known with
  | case1 count many ih =>
    have split : count = mostZeros + (count - mostZeros) := by omega
    rw [List.foldl_cons, ih, LengthItem.expand, List.append_assoc, List.replicate_append_replicate,
      ← split]
  | case2 => simp [LengthItem.expand]
  | case3 count => exact expand_replicate_once known count 0

/-- Repetitions repeat the length that the items so far end in. -/
theorem expand_describeAgain (known : List Nat) (length count : Nat) :
    (describeAgain length count).foldl LengthItem.expand (known ++ [length]) =
      known ++ [length] ++ List.replicate count length := by
  fun_induction describeAgain length count generalizing known with
  | case1 count many ih =>
    have split : count = mostAgain + (count - mostAgain) := by omega
    have last : known ++ [length] ++ List.replicate mostAgain length =
        known ++ List.replicate mostAgain length ++ [length] := by
      simp [← List.replicate_succ, ← List.replicate_succ']
    rw [List.foldl_cons, LengthItem.expand, List.getLast?_append, List.getLast?_singleton,
      Option.some_or, Option.getD_some, last, ih, ← last, List.append_assoc,
      List.replicate_append_replicate, ← split]
  | case2 => simp [LengthItem.expand]
  | case3 count => exact expand_replicate_once _ count length

/-- The items of word lengths expand to them. -/
theorem expand_describe (known lengths : List Nat) :
    (describe lengths).foldl LengthItem.expand known = known ++ lengths := by
  fun_induction describe lengths generalizing known with
  | case1 => simp
  | case2 length rest count ih =>
    have run : rest.takeWhile (· = length) = List.replicate count length :=
      List.eq_replicate_iff.2 ⟨rfl, fun other found => by
        simpa using List.all_eq_true.1 List.all_takeWhile other found⟩
    have split : length :: rest = List.replicate (count + 1) length
        ++ rest.dropWhile (· = length) := by
      rw [List.replicate_succ, List.cons_append, ← run, List.takeWhile_append_dropWhile]
    rw [List.foldl_append, ih, split, ← List.append_assoc]
    congr 1
    split
    next zero => rw [expand_describeZeros, zero]
    next =>
      rw [List.foldl_cons, LengthItem.expand, expand_describeAgain, List.append_assoc,
        List.replicate_succ, List.singleton_append]

/-- Leave out zeros at the end, but keep at least so many numbers. -/
def trimZeros (least : Nat) (numbers : List Nat) : List Nat :=
  numbers.take (max least (numbers.reverse.dropWhile (· = 0)).length)

/-- How often each symbol below a bound occurs. -/
def countSymbols (bound : Nat) (symbols : List Nat) : List Nat :=
  (symbols.foldl (fun counts symbol => counts.modify symbol (· + 1)) (Array.replicate bound 0)).toList

/-- The greatest length of a word in the code for items. -/
def maxItemWord : Nat := 7

/-- The description of two codes by their word lengths. There is none if the items have no code,
which is never so for the lengths that occur. -/
def descriptionBits? (literals distances : List Nat) : Option (List Bool) := do
  let items := describe (literals ++ distances)
  let lengths := wordLengths maxItemWord (countSymbols 19 (items.map LengthItem.symbol))
  let tree ← CodeTree.ofLengths? lengths false
  let listed := trimZeros 4 (lengthOrder.map (lengths.getD · 0))
  let words ← items.mapM fun item => (· ++ item.extraBits) <$> tree.wordOf? item.symbol
  return field 5 (literals.length - 257) ++ field 5 (distances.length - 1)
    ++ field 4 (listed.length - 4) ++ listed.flatMap (field 3) ++ words.flatten

end PdfFilters

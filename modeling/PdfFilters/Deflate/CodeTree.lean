/-!
# Prefix codes as trees

A code given by the lengths of its words is the tree whose leaves, from left to right, are the
symbols ordered by length and then by number. `CodeTree.ofLengths?` grows that tree and turns
lengths down for which there is no such tree, because they ask for more words than fit or leave
words without a meaning. A single word of one bit may leave the other bit without a meaning, where
the caller allows it; and a code without words is a tree without leaves, in which every bit leads
nowhere.
-/

namespace PdfFilters

/-- A binary tree of symbols. A path to `vacant` is no word of the code, nor the start of one. -/
inductive CodeTree where
  | vacant
  | leaf (symbol : Nat)
  | fork (zero one : CodeTree)
  deriving DecidableEq

namespace CodeTree

/-- The branch that a bit leads to. -/
def branch : CodeTree → Bool → CodeTree
  | .fork zero _, false => zero
  | .fork _ one, true => one
  | .vacant, _ => .vacant
  | .leaf _, _ => .vacant

/-- Whether every path ends at a symbol. -/
def isComplete : CodeTree → Bool
  | .vacant => false
  | .leaf _ => true
  | .fork zero one => zero.isComplete && one.isComplete

/-- The greatest length of a code word. -/
def maxLength : Nat := 15

/-- The symbols that have a word, each behind the length of its word, shortest first and in order
among words of one length. -/
def ordered (lengths : List Nat) : List (Nat × Nat) :=
  (List.range maxLength).flatMap fun shorter =>
    (lengths.zipIdx.filter fun (length, _) => length = shorter + 1)

/-- Grow the branch at a depth, with so many levels still allowed below it, from the leftmost of
the ordered symbols. What remains belongs further to the right. -/
def grow : (levels depth : Nat) → List (Nat × Nat) → CodeTree × List (Nat × Nat)
  | _, _, [] => (.vacant, [])
  | 0, _, (_, symbol) :: rest => (.leaf symbol, rest)
  | levels + 1, depth, (length, symbol) :: rest =>
    if length ≤ depth then (.leaf symbol, rest)
    else
      let (zero, rest) := grow levels (depth + 1) ((length, symbol) :: rest)
      let (one, rest) := grow levels (depth + 1) rest
      (.fork zero one, rest)

/-- The code with these word lengths, zero for symbols without a word. `allowSingle` permits a lone
word of one bit. -/
def ofLengths? (lengths : List Nat) (allowSingle : Bool) : Option CodeTree :=
  match ordered lengths with
  | [] => some .vacant
  | words =>
    let (tree, rest) := grow maxLength 0 words
    if rest = [] ∧ (tree.isComplete ∨ (allowSingle ∧ words.map Prod.fst = [1])) then some tree
    else none

/-- The word of a symbol: the bits on the way to a leaf that bears it. -/
def wordOf? (tree : CodeTree) (symbol : Nat) : Option (List Bool) :=
  match tree with
  | .vacant => none
  | .leaf other => if other = symbol then some [] else none
  | .fork zero one =>
    ((zero.wordOf? symbol).map (false :: ·)).or ((one.wordOf? symbol).map (true :: ·))

/-- The branch that some bits lead to. -/
def walk (tree : CodeTree) (bits : List Bool) : CodeTree := bits.foldl branch tree

/-- The word of a symbol leads to it. -/
theorem walk_wordOf? {tree : CodeTree} {symbol : Nat} {word : List Bool}
    (found : tree.wordOf? symbol = some word) : tree.walk word = .leaf symbol := by
  induction tree generalizing word with
  | vacant => simp [wordOf?] at found
  | leaf other =>
    simp only [wordOf?] at found
    split at found
    next same => simp_all [walk]
    next => simp at found
  | fork zero one ihZero ihOne =>
    simp only [wordOf?, Option.or_eq_some_iff, Option.map_eq_some_iff] at found
    rcases found with ⟨rest, left, rfl⟩ | ⟨-, rest, right, rfl⟩
    · exact ihZero left
    · exact ihOne right

end CodeTree

end PdfFilters

import PdfFilters.Deflate.Bits
import PdfFilters.Deflate.CodeTree

/-!
# The symbols of compressed data

Compressed data use two alphabets. In the first, symbols below 256 are bytes, 256 ends a block,
and the others give the length of a copy; the second gives the distance of a copy. A symbol for a
length or a distance stands for a range of numbers, and a field of extra bits picks one of them:
`lengthSlots` and `distanceSlots` list the first number of each range with the width of its field.

Blocks without codes of their own use fixed ones (`fixedCodes`).
-/

namespace PdfFilters

/-- The symbol that ends a block. -/
def endOfBlock : Nat := 256

/-- For the length symbols from 257 on: the smallest length, and the width of the extra bits. -/
def lengthSlots : List (Nat × Nat) :=
  [(3, 0), (4, 0), (5, 0), (6, 0), (7, 0), (8, 0), (9, 0), (10, 0),
   (11, 1), (13, 1), (15, 1), (17, 1), (19, 2), (23, 2), (27, 2), (31, 2),
   (35, 3), (43, 3), (51, 3), (59, 3), (67, 4), (83, 4), (99, 4), (115, 4),
   (131, 5), (163, 5), (195, 5), (227, 5), (258, 0)]

/-- For the distance symbols: the smallest distance, and the width of the extra bits. -/
def distanceSlots : List (Nat × Nat) :=
  [(1, 0), (2, 0), (3, 0), (4, 0), (5, 1), (7, 1), (9, 2), (13, 2),
   (17, 3), (25, 3), (33, 4), (49, 4), (65, 5), (97, 5), (129, 6), (193, 6),
   (257, 7), (385, 7), (513, 8), (769, 8), (1025, 9), (1537, 9), (2049, 10), (3073, 10),
   (4097, 11), (6145, 11), (8193, 12), (12289, 12), (16385, 13), (24577, 13)]

/-- The index of the last slot that does not start above `value`. -/
def slotOf (slots : List (Nat × Nat)) (value : Nat) : Nat :=
  (slots.takeWhile fun (first, _) => first ≤ value).length - 1

/-- How many symbols there are for bytes, block ends and lengths. -/
def literalCount : Nat := 286

/-- How many symbols there are for distances. -/
def distanceCount : Nat := 30

/-- The two codes of a block. -/
structure BlockCodes where
  literals : CodeTree
  distances : CodeTree

/-- The word lengths of the fixed code for bytes, block ends and lengths. -/
def fixedLiteralLengths : List Nat :=
  List.replicate 144 8 ++ List.replicate 112 9 ++ List.replicate 24 7 ++ List.replicate 8 8

/-- The word lengths of the fixed code for distances. -/
def fixedDistanceLengths : List Nat := List.replicate 32 5

/-- The fixed codes, for reading. -/
def fixedCodes : BlockCodes where
  literals := (CodeTree.ofLengths? fixedLiteralLengths false).getD .vacant
  distances := (CodeTree.ofLengths? fixedDistanceLengths false).getD .vacant

/-- The order in which a block lists the word lengths of the code for its word lengths. -/
def lengthOrder : List Nat := [16, 17, 18, 0, 8, 7, 9, 6, 10, 5, 11, 4, 12, 3, 13, 2, 14, 1, 15]

end PdfFilters

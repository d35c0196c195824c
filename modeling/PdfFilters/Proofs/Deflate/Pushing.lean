import Mathlib.Algebra.Group.Nat.Defs
import PdfFilters.Deflate.Inflate
import PdfFilters.Proofs.Bits

/-!
# Pushing numbers and words

The machine takes bits one at a time. Here are its moves at the scale of the format: a number whose
bits have all come is taken (`pushBits_readNumber`), and so is a symbol whose word has come
(`pushBits_symbol`). A block of bytes is the sequence of their bits (`feed_eq_pushBits`).

Bits that are packed into bytes come out again, with zeros up to the border of a byte
(`bitsOf_packBits`).
-/

namespace PdfFilters

theorem bitsOf_append (first second : List UInt8) :
    bitsOf (first ++ second) = bitsOf first ++ bitsOf second :=
  List.flatMap_append

theorem bitsOf_cons (byte : UInt8) (rest : List UInt8) :
    bitsOf (byte :: rest) = bitsOfByte byte ++ bitsOf rest := rfl

@[simp] theorem length_bitsOf (bytes : List UInt8) : (bitsOf bytes).length = 8 * bytes.length := by
  induction bytes with
  | nil => rfl
  | cons byte rest ih =>
    rw [bitsOf_cons, List.length_append, ih, bitsOfByte, length_field, List.length_cons]
    omega

/-- A byte that is made of at most eight bits has these bits, and zeros above them. -/
theorem bitsOfByte_ofNat_numberOf {bits : List Bool} (few : bits.length ≤ 8) :
    bitsOfByte (UInt8.ofNat (numberOf bits)) = bits ++ List.replicate (8 - bits.length) false := by
  have zeros (count : Nat) : numberOf (List.replicate count false) = 0 := by
    induction count with
    | zero => rfl
    | succ count ih => rw [List.replicate_succ, numberOf, ih]; rfl
  have all := field_numberOf (bits ++ List.replicate (8 - bits.length) false)
  rw [numberOf_append, zeros, Nat.zero_shiftLeft, Nat.add_zero, List.length_append,
    List.length_replicate, Nat.add_sub_cancel' few] at all
  have small : numberOf bits < 256 := by
    refine Nat.lt_of_lt_of_le (numberOf_lt bits) ?_
    rw [Nat.one_shiftLeft]
    show 2 ^ bits.length ≤ 2 ^ 8
    exact Nat.pow_le_pow_right Nat.two_pos few
  rw [bitsOfByte, UInt8.toNat_ofNat', Nat.mod_eq_of_lt small, all]

/-- Packed bits come out again, with zeros up to the border of a byte. -/
theorem bitsOf_packBits (bits : List Bool) :
    bitsOf (packBits bits) = bits ++ List.replicate (padding bits.length) false := by
  fun_induction packBits bits with
  | case1 => rfl
  | case2 bit rest ih =>
    rw [bitsOf_cons, bitsOfByte_ofNat_numberOf (List.length_take_le 8 _), ih]
    have some : 0 < (bit :: rest).length := Nat.succ_pos _
    generalize bit :: rest = bits at some
    by_cases long : 8 ≤ bits.length
    · -- A whole byte is taken off, which leaves the distance to the border as it was.
      have same : padding (bits.drop 8).length = padding bits.length := by
        rw [padding, padding, List.length_drop]
        omega
      rw [same, List.length_take, Nat.min_eq_left long, Nat.sub_self, List.replicate_zero,
        List.append_nil, ← List.append_assoc, List.take_append_drop]
    · -- The last byte holds all that is left.
      have short : bits.length ≤ 8 := by omega
      have missing : padding bits.length = 8 - bits.length := by
        rw [padding]
        omega
      rw [List.take_of_length_le short, List.drop_eq_nil_of_le short, missing]
      exact List.append_nil _

/-- Nothing leads out of a place without a meaning. -/
theorem CodeTree.walk_vacant (bits : List Bool) : walk .vacant bits = .vacant := by
  induction bits with
  | nil => rfl
  | cons bit rest ih => exact ih

namespace Inflate

/-- A block of bytes is the sequence of their bits. -/
theorem feed_eq_pushBits (state : Inflate) (block : List UInt8) :
    state.feed block = state.pushBits (bitsOf block) := by
  induction block generalizing state with
  | nil => rfl
  | cons byte rest ih =>
    rw [bitsOf_cons, pushBits, List.foldl_append]
    exact ih _

theorem pushBits_append (state : Inflate) (first second : List Bool) :
    state.pushBits (first ++ second) = (state.pushBits first).pushBits second :=
  List.foldl_append

variable (lastBlock : Bool) (taken : Nat) (output : Array UInt8)

/-- The rest of a number. -/
theorem pushBits_number (meaning : Meaning) {width got : Nat} (value : Nat) {bits : List Bool}
    (some : bits ≠ []) (all : got + bits.length = width) :
    pushBits ⟨.number meaning width got value, lastBlock, taken, output⟩ bits
      = takeNumber ⟨.bad, lastBlock, taken + bits.length, output⟩ meaning
        (value + numberOf bits <<< got) := by
  induction bits generalizing got value taken with
  | nil => exact absurd rfl some
  | cons bit rest ih =>
    rw [List.length_cons] at all
    rw [pushBits, List.foldl_cons, push]
    cases rest with
    | nil =>
      rw [List.length_nil] at all
      simp only [if_pos (show got + 1 = width by omega)]
      rfl
    | cons next rest =>
      rw [List.length_cons] at all
      simp only [if_neg (show ¬ got + 1 = width by omega)]
      have onward := ih (taken + 1) (value + bit.toNat <<< got) (List.cons_ne_nil next rest)
        (show got + 1 + (next :: rest).length = width by rw [List.length_cons]; omega)
      -- The bits that have come are below the ones to come, so the two sums are the same.
      have sum : value + bit.toNat <<< got + numberOf (next :: rest) <<< (got + 1)
          = value + numberOf (bit :: next :: rest) <<< got := by
        rw [show numberOf (bit :: next :: rest) = bit.toNat + 2 * numberOf (next :: rest) from rfl]
        generalize numberOf (next :: rest) = others
        have twice : others * (2 ^ got * 2) = 2 * (others * 2 ^ got) := by
          rw [Nat.mul_comm (2 ^ got), Nat.mul_left_comm]
        rw [Nat.shiftLeft_eq, Nat.shiftLeft_eq, Nat.shiftLeft_eq, Nat.pow_succ, twice, Nat.add_mul,
          Nat.mul_assoc, Nat.add_assoc]
      rw [sum, Nat.add_right_comm, Nat.add_assoc] at onward
      exact onward

/-- A number is taken when all its bits have come. -/
theorem pushBits_readNumber (state : Inflate) (meaning : Meaning) {width : Nat} {bits : List Bool}
    (some : 0 < width) (size : bits.length = width) :
    (state.readNumber meaning width).pushBits bits
      = takeNumber ⟨.bad, state.lastBlock, state.taken + width, state.output⟩ meaning
        (numberOf bits) := by
  subst size
  have pushed := pushBits_number state.lastBlock state.taken state.output meaning 0
    (List.ne_nil_of_length_pos some) (Nat.zero_add bits.length)
  rw [Nat.zero_add, Nat.shiftLeft_zero] at pushed
  exact pushed

theorem pushBits_field (state : Inflate) (meaning : Meaning) {width value : Nat} (some : 0 < width)
    (fits : value < 2 ^ width) :
    (state.readNumber meaning width).pushBits (field width value)
      = takeNumber ⟨.bad, state.lastBlock, state.taken + width, state.output⟩ meaning value := by
  have pushed := state.pushBits_readNumber meaning some (length_field width value)
  rwa [numberOf_field_of_lt (Nat.one_shiftLeft width ▸ fits)] at pushed

/-- A symbol is taken when its word has come. -/
theorem pushBits_symbol (state : Inflate) (alphabet : Alphabet) {tree : CodeTree}
    {word : List Bool} {symbol : Nat} (some : word ≠ [])
    (leads : tree.walk word = .leaf symbol) :
    (state.goTo (.symbol alphabet tree)).pushBits word
      = takeSymbol ⟨.bad, state.lastBlock, state.taken + word.length, state.output⟩ alphabet
        symbol := by
  obtain ⟨task, lastBlock, taken, output⟩ := state
  show pushBits ⟨.symbol alphabet tree, lastBlock, taken, output⟩ word = _
  dsimp only
  clear task
  induction word generalizing tree taken with
  | nil => exact absurd rfl some
  | cons bit rest ih =>
    rw [pushBits, List.foldl_cons, push]
    rw [CodeTree.walk, List.foldl_cons] at leads
    cases rest with
    | nil =>
      rw [List.foldl_nil] at leads
      rw [leads, List.foldl_nil, List.length_singleton]
    | cons next rest =>
      -- Nothing leads on from a leaf, so this is a branch.
      cases branch : tree.branch bit with
      | vacant =>
        rw [branch] at leads
        cases leads.symm.trans (CodeTree.walk_vacant (next :: rest))
      | leaf other =>
        rw [branch] at leads
        cases leads.symm.trans (CodeTree.walk_vacant rest)
      | fork zero one =>
        rw [branch] at leads
        have onward := ih (List.cons_ne_nil next rest) leads (taken + 1)
        have count : taken + (bit :: next :: rest).length = taken + 1 + (next :: rest).length := by
          simp only [List.length_cons]
          omega
        rw [count]
        exact onward

end Inflate

end PdfFilters

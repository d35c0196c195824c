import Mathlib.Algebra.Group.Nat.Defs
import PdfFilters.Rows.Layout

/-!
# What a machine can do with words and slices

A machine has an answer only where its numbers fit into words, its differences do not go below zero,
it divides by something, it shifts a byte by fewer than eight bits, and its slices and places lie inside.
The operations here have no answer elsewhere. A program that is made of them and has an answer ran into
none of this. A lemma beside each operation says when it has an answer, and then the program goes on with
that (`bind_of_eq_some`).

A loop of such steps has an answer if every step has one. The steps may rely on what the ones before
them leave as it is (`foldlM_eq_foldl`).
-/

namespace PdfFilters

/-! ## Numbers -/

/-- A number, if a machine word holds it. -/
def word? (value : Nat) : Option Nat := if value ≤ maxWord then some value else none

/-- A difference of unsigned numbers, if it is not below zero. -/
def minus? (value taken : Nat) : Option Nat := if taken ≤ value then some (value - taken) else none

/-- A quotient, if there is something to divide by. -/
def quotient? (value divisor : Nat) : Option Nat := if divisor = 0 then none else some (value / divisor)

/-- An unsigned number, if sixteen bits hold it. -/
def word16? (value : Nat) : Option Nat := if value ≤ 65535 then some value else none

/-- A signed number, if sixteen bits hold it. -/
def int16? (value : Int) : Option Int := if -32768 ≤ value ∧ value ≤ 32767 then some value else none

theorem word?_eq {value : Nat} (fits : value ≤ maxWord) : word? value = some value := if_pos fits

theorem minus?_eq {value taken : Nat} (less : taken ≤ value) :
    minus? value taken = some (value - taken) := if_pos less

theorem quotient?_eq {divisor : Nat} (positive : 0 < divisor) (value : Nat) :
    quotient? value divisor = some (value / divisor) := if_neg (Nat.ne_of_gt positive)

theorem word16?_eq {value : Nat} (fits : value ≤ 65535) : word16? value = some value := if_pos fits

theorem int16?_eq {value : Int} (low : -32768 ≤ value) (high : value ≤ 32767) :
    int16? value = some value := if_pos ⟨low, high⟩

/-! ## Bytes -/

/-- A byte moved up by fewer than eight bits. -/
def shiftLeft? (byte : UInt8) (count : Nat) : Option UInt8 :=
  if count < 8 then some (byte <<< UInt8.ofNat count) else none

/-- A byte moved down by fewer than eight bits. -/
def shiftRight? (byte : UInt8) (count : Nat) : Option UInt8 :=
  if count < 8 then some (byte >>> UInt8.ofNat count) else none

theorem shiftLeft?_eq {count : Nat} (few : count < 8) (byte : UInt8) :
    shiftLeft? byte count = some (byte <<< UInt8.ofNat count) := if_pos few

theorem shiftRight?_eq {count : Nat} (few : count < 8) (byte : UInt8) :
    shiftRight? byte count = some (byte >>> UInt8.ofNat count) := if_pos few

theorem toNat_shiftLeft {count : Nat} (few : count < 8) (byte : UInt8) :
    (byte <<< UInt8.ofNat count).toNat = byte.toNat <<< count % 2 ^ 8 := by
  rw [UInt8.toNat_shiftLeft, UInt8.toNat_ofNat', Nat.mod_eq_of_lt (by omega : count < 2 ^ 8),
    Nat.mod_eq_of_lt few]

theorem toNat_shiftRight {count : Nat} (few : count < 8) (byte : UInt8) :
    (byte >>> UInt8.ofNat count).toNat = byte.toNat >>> count := by
  rw [UInt8.toNat_shiftRight, UInt8.toNat_ofNat', Nat.mod_eq_of_lt (by omega : count < 2 ^ 8),
    Nat.mod_eq_of_lt few]

/-! ## Slices -/

section Slices

variable {α : Type}

/-- The first so many elements, if there are as many. -/
def front? (list : List α) (count : Nat) : Option (List α) :=
  if count ≤ list.length then some (list.take count) else none

/-- All elements from so many on, if there are as many. -/
def back? (list : List α) (count : Nat) : Option (List α) :=
  if count ≤ list.length then some (list.drop count) else none

/-- Elements that begin with these, which replace as many, if there are as many. -/
def overlay? (list first : List α) : Option (List α) :=
  if first.length ≤ list.length then some (first ++ list.drop first.length) else none

/-- An array with the element at a place replaced, if there is one. -/
def put? (row : Array α) (place : Nat) (item : α) : Option (Array α) :=
  if place < row.size then some (row.setIfInBounds place item) else none

theorem front?_eq {list : List α} {count : Nat} (inside : count ≤ list.length) :
    front? list count = some (list.take count) := if_pos inside

theorem back?_eq {list : List α} {count : Nat} (inside : count ≤ list.length) :
    back? list count = some (list.drop count) := if_pos inside

theorem overlay?_eq {list first : List α} (inside : first.length ≤ list.length) :
    overlay? list first = some (first ++ list.drop first.length) := if_pos inside

theorem put?_eq {row : Array α} {place : Nat} (inside : place < row.size) (item : α) :
    put? row place item = some (row.setIfInBounds place item) := if_pos inside

theorem getElem?_eq_getD {row : Array α} {place : Nat} (inside : place < row.size) (fallback : α) :
    row[place]? = some (row.getD place fallback) := by
  rw [Array.getD_eq_getD_getElem?, Array.getElem?_eq_getElem inside, Option.getD_some]

end Slices

/-! ## Programs -/

/-- Where a step has an answer, the program goes on with it. -/
theorem bind_of_eq_some {α β : Type} {checked : Option α} {value : α} (found : checked = some value)
    (next : α → Option β) : (checked >>= next) = next value := by
  rw [found]
  rfl

/-- A loop has an answer if every step has one, as long as something holds that the steps keep. -/
theorem foldlM_eq_foldl {α β : Type} {checked : α → β → Option α} {step : α → β → α} {keeps : α → Prop}
    {items : List β}
    (step_eq : ∀ state, keeps state → ∀ item ∈ items,
      checked state item = some (step state item) ∧ keeps (step state item))
    {state : α} (holds : keeps state) :
    items.foldlM checked state = some (items.foldl step state) := by
  induction items generalizing state with
  | nil => rfl
  | cons item rest ih =>
    obtain ⟨taken, kept⟩ := step_eq state holds item List.mem_cons_self
    rw [List.foldlM_cons, bind_of_eq_some taken, List.foldl_cons]
    refine ih ?_ kept
    intro state holds item listed
    exact step_eq state holds item (List.mem_cons_of_mem _ listed)

end PdfFilters

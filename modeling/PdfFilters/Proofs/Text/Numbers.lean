import Mathlib.Algebra.Group.Nat.Defs
import PdfFilters.Text.Base85

/-!
# Numbers of base-85 groups

The number of some bytes is theirs with the first one highest. Four bytes are those of a number
exactly if it has no more than 32 bits (`Base85.areBytes_iff`).

A last group holds fewer bytes, at the place that they have in a whole one (`Base85.groupOf`). They
are found in any number that differs from it only below them (`Base85.take_bytes`), and no such number
is too large for a group (`Base85.le_maxGroup`).
-/

namespace PdfFilters

namespace Base85

/-- The number of some bytes, the first one highest. -/
def number (bytes : List UInt8) : Nat := bytes.foldl (fun value byte => value * 256 + byte.toNat) 0

/-- The number of a group that begins with these bytes. -/
def groupOf (bytes : List UInt8) : Nat := number bytes <<< (32 - 8 * bytes.length)

theorem number_concat (bytes : List UInt8) (byte : UInt8) :
    number (bytes ++ [byte]) = number bytes * 256 + byte.toNat := by
  rw [number, List.foldl_append]
  rfl

theorem number_lt (bytes : List UInt8) : number bytes < 256 ^ bytes.length := by
  have above (value : Nat) (bytes : List UInt8) :
      bytes.foldl (fun value byte => value * 256 + byte.toNat) value
        < (value + 1) * 256 ^ bytes.length := by
    induction bytes generalizing value with
    | nil => exact Nat.lt_of_lt_of_eq (Nat.lt_succ_self value) (Nat.mul_one _).symm
    | cons byte rest ih =>
      have small := byte.toNat_lt
      have next : value * 256 + byte.toNat + 1 ≤ (value + 1) * 256 := by omega
      rw [List.foldl_cons, List.length_cons, Nat.pow_succ', ← Nat.mul_assoc]
      exact Nat.lt_of_lt_of_le (ih _) (Nat.mul_le_mul_right _ next)
  have small := above 0 bytes
  rwa [Nat.zero_add, Nat.one_mul] at small

/-- A number that begins with the bytes of a group is not too large for a group. -/
theorem le_maxGroup {bytes : List UInt8} (few : bytes.length ≤ 4) {value : Nat}
    (above : value / 2 ^ (32 - 8 * bytes.length) = number bytes) : value ≤ maxGroup := by
  have whole : 2 ^ (32 - 8 * bytes.length) * 256 ^ bytes.length = 2 ^ 32 := by
    rw [show 256 = 2 ^ 8 from rfl, ← Nat.pow_mul, ← Nat.pow_add, Nat.sub_add_cancel (by omega)]
  have small := above ▸ number_lt bytes
  rw [Nat.div_lt_iff_lt_mul (Nat.two_pow_pos _), Nat.mul_comm, whole] at small
  exact Nat.le_of_lt_succ small

theorem groupOf_div (bytes : List UInt8) :
    groupOf bytes / 2 ^ (32 - 8 * bytes.length) = number bytes := by
  rw [groupOf, Nat.shiftLeft_eq, Nat.mul_div_cancel _ (Nat.two_pow_pos _)]

/-- The next byte of a group goes below those that it has. -/
theorem groupOf_concat {bytes : List UInt8} (few : bytes.length < 4) (byte : UInt8) :
    groupOf bytes ||| byte.toNat <<< (24 - 8 * bytes.length) = groupOf (bytes ++ [byte]) := by
  have places : 32 - 8 * bytes.length = 8 + (24 - 8 * bytes.length) := by omega
  have places' : 32 - 8 * (bytes ++ [byte]).length = 24 - 8 * bytes.length := by
    rw [List.length_append, List.length_singleton]
    omega
  rw [groupOf, groupOf, places, places', number_concat, Nat.shiftLeft_add, ← Nat.shiftLeft_or_distrib,
    ← Nat.shiftLeft_add_eq_or_of_lt byte.toNat_lt, Nat.shiftLeft_eq (number bytes)]

theorem take_succ_bytes (value : Nat) {count : Nat} (few : count < 4) :
    (bytes value).take (count + 1)
      = (bytes value).take count ++ [UInt8.ofNat (value / 2 ^ (24 - 8 * count))] := by
  rw [← Nat.shiftRight_eq_div_pow]
  match count with
  | 0 | 1 | 2 | 3 => rfl

/-- The first bytes of a number are those that make up what is above their place. -/
theorem take_bytes {kept : List UInt8} (few : kept.length ≤ 4) {value : Nat}
    (above : value / 2 ^ (32 - 8 * kept.length) = number kept) :
    (bytes value).take kept.length = kept := by
  generalize count_eq : kept.length = count at few above ⊢
  induction count generalizing kept with
  | zero => rw [List.take_zero, List.length_eq_zero_iff.mp count_eq]
  | succ count ih =>
    rcases List.eq_nil_or_concat kept with rfl | ⟨first, last, rfl⟩
    · cases count_eq
    · rw [List.concat_eq_append] at count_eq above ⊢
      rw [List.length_append, List.length_singleton, Nat.add_right_cancel_iff] at count_eq
      rw [number_concat, show 32 - 8 * (count + 1) = 24 - 8 * count by omega] at above
      have := last.toNat_lt
      -- Above the last byte stand the ones before it, so the induction applies to those.
      have places : 2 ^ (32 - 8 * count) = 2 ^ (24 - 8 * count) * 256 := by
        rw [show 32 - 8 * count = 24 - 8 * count + 8 by omega, Nat.pow_add]
      have earlier : value / 2 ^ (32 - 8 * count) = number first := by
        rw [places, ← Nat.div_div_eq_div_mul, above]
        omega
      have byte : UInt8.ofNat (number first * 256 + last.toNat) = last := by
        apply UInt8.toNat_inj.mp
        rw [UInt8.toNat_ofNat']
        omega
      rw [take_succ_bytes value few, ih count_eq (Nat.le_of_lt few) earlier, above, byte]

/-- Four bytes that are those of a number, the highest first. -/
structure AreBytes (value : Nat) (four : List UInt8) : Prop where
  length_eq : four.length = 4
  number_eq : number four = value

theorem maxGroup_lt_iff {value : Nat} : ¬ value ≤ maxGroup ↔ 2 ^ 32 ≤ value := Nat.not_le

theorem number_bytes {value : Nat} (small : value ≤ maxGroup) : number (bytes value) = value := by
  have small : value ≤ 0xFFFFFFFF := small
  simp only [number, bytes, List.map_cons, List.map_nil, List.foldl_cons, List.foldl_nil,
    UInt8.toNat_ofNat', Nat.shiftRight_eq_div_pow]
  omega

theorem areBytes_iff {value : Nat} {four : List UInt8} :
    AreBytes value four ↔ value ≤ maxGroup ∧ four = bytes value := by
  constructor
  · intro ⟨length_eq, number_eq⟩
    have above : value / 2 ^ (32 - 8 * four.length) = number four := by
      rw [length_eq, number_eq]
      exact Nat.div_one value
    have taken := take_bytes (Nat.le_of_eq length_eq) above
    rw [length_eq] at taken
    exact ⟨le_maxGroup (Nat.le_of_eq length_eq) above, taken.symm⟩
  · rintro ⟨small, rfl⟩
    exact ⟨rfl, number_bytes small⟩

end Base85

end PdfFilters

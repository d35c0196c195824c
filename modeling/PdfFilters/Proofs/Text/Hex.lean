import PdfFilters.Proofs.Scan
import PdfFilters.Text.Hex

/-!
# Reading hexadecimal text undoes writing it

Every digit that is written is read as its value (`Hex.digit_spec`), and the two digits of a byte
as the byte, so that reading what was written for some bytes puts out these bytes and leaves no
digit over (`Hex.scanned_encode`).
-/

namespace PdfFilters

namespace Hex

/-- A digit that is written is none of the bytes that reading treats in another way. -/
theorem digit_spec {value : UInt8} (below : value < 16) :
    digit value ≠ endMark ∧ isBlank (digit value) = false ∧ digit? (digit value) = some value := by
  have each : ∀ value : Fin 16, digit (UInt8.ofNat value) ≠ endMark
      ∧ isBlank (digit (UInt8.ofNat value)) = false
      ∧ digit? (digit (UInt8.ofNat value)) = some (UInt8.ofNat value) := by
    decide
  have small : value.toNat < 16 := below
  have known := each ⟨value.toNat, small⟩
  rwa [UInt8.ofNat_toNat] at known

/-- A byte is sixteen times its high half and its low half. -/
theorem halves (byte : UInt8) : byte / 16 * 16 + byte % 16 = byte := by
  apply UInt8.toNat_inj.mp
  rw [UInt8.toNat_add, UInt8.toNat_mul, UInt8.toNat_div, UInt8.toNat_mod]
  have := byte.toNat_lt
  show (byte.toNat / 16 * 16 % 256 + byte.toNat % 16) % 256 = byte.toNat
  omega

theorem step_high {value : UInt8} (below : value < 16) (offset : Nat) :
    step ⟨none, false, offset⟩ (digit value) = (⟨some value, false, offset + 1⟩, .ok []) := by
  obtain ⟨apart, solid, known⟩ := digit_spec below
  simp only [step, if_neg apart, solid, known]
  rfl

theorem step_low {high value : UInt8} (below : value < 16) (offset : Nat) :
    step ⟨some high, false, offset⟩ (digit value)
      = (⟨none, false, offset + 1⟩, .ok [high * 16 + value]) := by
  obtain ⟨apart, solid, known⟩ := digit_spec below
  simp only [step, if_neg apart, solid, known]
  rfl

theorem scan_encode (data : List UInt8) (offset : Nat) (output : Array UInt8) :
    scan step ⟨none, false, offset⟩ output (data.flatMap encodeByte)
      = (⟨none, false, offset + 2 * data.length⟩, output ++ data, .ok ()) := by
  induction data generalizing offset output with
  | nil =>
    rw [Array.appendList_nil]
    rfl
  | cons byte rest ih =>
    have high : byte / 16 < 16 := by
      show byte.toNat / 16 < 16
      have := byte.toNat_lt
      omega
    have low : byte % 16 < 16 := by
      show byte.toNat % 16 < 16
      omega
    rw [List.flatMap_cons, encodeByte, List.cons_append, scan, step_high high]
    dsimp only
    rw [List.cons_append, scan, step_low low, halves]
    dsimp only
    rw [List.nil_append, ih, Array.appendList_nil, Array.appendList_cons, Array.appendList_nil,
      Array.appendList_cons, List.length_cons, Nat.mul_succ, Nat.add_assoc offset, Nat.add_right_comm,
      Nat.add_assoc]

/-- What is read of the text of some bytes are these bytes. -/
theorem scanned_encode (data : List UInt8) :
    scanned step idle (data.flatMap encodeByte) = ⟨data, .ok ⟨none, false, 2 * data.length⟩⟩ := by
  have all : ((#[] : Array UInt8) ++ data).toList = data := by simp
  rw [scanned, idle, scan_encode, Nat.zero_add]
  dsimp only
  rw [all]

end Hex

end PdfFilters

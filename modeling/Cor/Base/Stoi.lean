import Mathlib.Data.List.TakeDrop
import Mathlib.Data.List.TakeWhile
import Cor.Base.Error
import Cor.Base.Strto

/-!
# `std::stoi(s)`

`std::stoi` is `strtol` with its two failures as exceptions: a string without a
numeral in front, and a numeral outside the range of `int`. What follows the
numeral is not looked at. An `int` has 32 bits.
-/

namespace Cor

open Strto

/-- `std::stoi(s)`. -/
def stoi (s : Bytes) : Except Exn Int32 :=
  let (value, n) := strtol (cStr s)
  if n = 0 then .error ⟨.other (ascii "std::invalid_argument"), ascii "stoi"⟩
  else if value.toInt < Int32.minValue.toInt ∨ Int32.maxValue.toInt < value.toInt then
    .error ⟨.other (ascii "std::out_of_range"), ascii "stoi"⟩
  else .ok value.toInt32

/-- The string begins, after white space and a sign, with digits that name an `int`. -/
def StartsWithInt (s : Bytes) : Prop :=
  let (neg, t) := sign (skipSpace s)
  let ds := t.takeWhile isDigit
  let n : Int := if neg then -numeral 10 ds else numeral 10 ds
  ds ≠ [] ∧ Int32.minValue.toInt ≤ n ∧ n ≤ Int32.maxValue.toInt

instance (s : Bytes) : Decidable (StartsWithInt s) :=
  inferInstanceAs (Decidable (_ ∧ _ ∧ _))

/-- Clamping to the range of `long` does not change which numbers are in that of `int`. -/
theorem clamp_int_range (z : Int) :
    (Int32.minValue.toInt ≤ (Int64.ofIntClamp z).toInt ∧
      (Int64.ofIntClamp z).toInt ≤ Int32.maxValue.toInt) ↔
    (Int32.minValue.toInt ≤ z ∧ z ≤ Int32.maxValue.toInt) := by
  have h32 : Int32.minValue.toInt = -2147483648 ∧ Int32.maxValue.toInt = 2147483647 := by decide
  have h64 : Int64.minValue.toInt = -9223372036854775808 ∧
      Int64.maxValue.toInt = 9223372036854775807 := by decide
  unfold Int64.ofIntClamp
  by_cases hlow : Int64.minValue.toInt ≤ z
  · rw [dif_pos hlow]
    by_cases hhigh : z ≤ Int64.maxValue.toInt
    · rw [dif_pos hhigh, Int64.toInt_ofIntLE]
    · rw [dif_neg hhigh]
      omega
  · rw [dif_neg hlow]
    omega

theorem sign_length (s : Bytes) : (sign s).2.length ≤ s.length := by
  unfold sign
  split
  next => simp
  next => simp
  next => exact Nat.le_refl _

theorem cStr_bytes (c : CStr) : cStr c.bytes = c := by
  have hall : ∀ b ∈ c.bytes, (b != 0) = true := by
    intro b hb
    rw [bne_iff_ne]
    intro h
    exact c.noNul (h ▸ hb)
  have hbytes : (cStr c.bytes).bytes = c.bytes := List.takeWhile_eq_self_iff.mpr hall
  exact (CStr.mk.injEq _ _ _ _).mpr hbytes

/-- `std::stoi` returns on the strings that begin with an `int`. -/
theorem stoi_ok_iff (c : CStr) : (∃ n, stoi c.bytes = .ok n) ↔ StartsWithInt c.bytes := by
  have hskip : (skipSpace c.bytes).length ≤ c.bytes.length := List.length_dropWhile_le _ _
  have hlen := sign_length (skipSpace c.bytes)
  unfold stoi StartsWithInt strtol
  rw [cStr_bytes]
  cases hsign : sign (skipSpace c.bytes) with
  | mk neg t =>
    rw [hsign] at hlen
    dsimp only at hlen ⊢
    rw [List.span_eq_takeWhile_dropWhile]
    dsimp only
    by_cases hds : t.takeWhile isDigit = []
    · rw [if_pos hds]
      simp [hds]
    · rw [if_neg hds]
      -- some characters were read
      have hread : c.len - (t.dropWhile isDigit).length ≠ 0 := by
        have hsplit :=
          congrArg List.length (List.takeWhile_append_dropWhile (p := isDigit) (l := t))
        rw [List.length_append] at hsplit
        have hpos := List.length_pos_iff.mpr hds
        unfold CStr.len
        omega
      dsimp only
      rw [if_neg hread]
      generalize (if neg then -(numeral 10 (t.takeWhile isDigit) : Int)
        else numeral 10 (t.takeWhile isDigit)) = z
      have hrange := clamp_int_range z
      by_cases hin : (Int64.ofIntClamp z).toInt < Int32.minValue.toInt ∨
          Int32.maxValue.toInt < (Int64.ofIntClamp z).toInt
      · rw [if_pos hin]
        constructor
        · intro h
          obtain ⟨n, hn⟩ := h
          exact absurd hn (by simp)
        · intro h
          have hclamp := hrange.mpr h.2
          omega
      · rw [if_neg hin]
        constructor
        · intro _
          exact ⟨hds, hrange.mp (by omega)⟩
        · intro _
          exact ⟨_, rfl⟩

end Cor

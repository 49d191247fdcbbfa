import Mathlib.Data.List.TakeDrop
import Mathlib.Data.List.TakeWhile
import Cor.Base.Error
import Cor.Base.Strto

/-!
# `std::stoul(s, 0, 16)`

`strtoul` accepts more than hexadecimal numerals: white space in front, a sign, and
the prefix `0x`. A string that is a numeral and nothing else is read as its value
(`stoul16_word`); a string it finds no digits in makes `std::stoul` throw, the empty
string among them (`stoul16_nil`). An `unsigned long` has 64 bits.
-/

namespace Cor

namespace Strto

/-- The optional prefix `0x`, which counts only before a digit. -/
def hexPrefix : Bytes → Bytes
  | 48 :: x :: c :: t => if lower x = 120 ∧ isHexDigit c then c :: t else 48 :: x :: c :: t
  | s => s

/-- `strtoul(s, &endptr, 16)`, and whether it sets `errno` to `ERANGE`. -/
def strtoul16 (s : CStr) : UInt64 × Nat × Bool :=
  let (neg, t) := sign (skipSpace s.bytes)
  let (ds, rest) := (hexPrefix t).span isHexDigit
  if ds = [] then (0, 0, false)
  else
    let n := numeral 16 ds
    -- out of range the result is ULONG_MAX; a minus negates what was read
    if UInt64.size ≤ n then (-1, s.len - rest.length, true)
    else (if neg then -UInt64.ofNat n else UInt64.ofNat n, s.len - rest.length, false)

end Strto

/-- `std::stoul(s, 0, 16)`. -/
def stoul16 (s : Bytes) : Except Exn UInt64 :=
  let (value, n, range) := Strto.strtoul16 (cStr s)
  if n = 0 then .error ⟨.other (ascii "std::invalid_argument"), ascii "stoul"⟩
  else if range then .error ⟨.other (ascii "std::out_of_range"), ascii "stoul"⟩
  else .ok value

open Strto

/-- The digits come after the white space and the signs. -/
theorem isHexDigit_ge {c : UInt8} (h : isHexDigit c = true) : 48 ≤ c := by
  unfold isHexDigit at h
  rcases of_decide_eq_true h with hdigit | ⟨hletter, -⟩
  · exact (of_decide_eq_true hdigit).1
  · unfold lower at hletter
    split at hletter
    next hupper => exact UInt8.le_trans (by decide) hupper.1
    next => exact UInt8.le_trans (by decide) hletter

theorem isSpace_lt {c : UInt8} (h : isSpace c = true) : c < 48 := by
  unfold isSpace at h
  rcases of_decide_eq_true h with rfl | ⟨-, hle⟩
  · decide
  · exact UInt8.lt_of_le_of_lt hle (by decide)

theorem not_space_of_hexDigit {c : UInt8} (h : isHexDigit c = true) : isSpace c = false := by
  apply eq_false_of_ne_true
  intro hspace
  exact UInt8.not_lt.mpr (isHexDigit_ge h) (isSpace_lt hspace)

/-- The letter of a prefix is no digit. -/
theorem not_hexDigit_of_x {x : UInt8} (h : lower x = 120) : isHexDigit x = false := by
  apply eq_false_of_ne_true
  intro hx
  unfold isHexDigit at hx
  rw [h] at hx
  rcases of_decide_eq_true hx with hdigit | ⟨-, hle⟩
  · have hle := (of_decide_eq_true hdigit).2
    unfold lower at h
    split at h
    next hupper => exact absurd (UInt8.le_trans hupper.1 hle) (by decide)
    next => exact absurd (h ▸ hle) (by decide)
  · exact absurd hle (by decide)

section Word

variable {ds : Bytes}

/-- A text that consists of digits has no NUL in it. -/
theorem cStr_hexDigits (h : ∀ c ∈ ds, isHexDigit c = true) : (cStr ds).bytes = ds := by
  refine List.takeWhile_eq_self_iff.mpr fun c hc => ?_
  have hge := isHexDigit_ge (h c hc)
  rw [bne_iff_ne]
  rintro rfl
  exact absurd hge (by decide)

theorem sign_hexDigits (h : ∀ c ∈ ds, isHexDigit c = true) : sign ds = (false, ds) := by
  unfold sign
  split
  · exact absurd (h 43 List.mem_cons_self) (by decide)
  · exact absurd (h 45 List.mem_cons_self) (by decide)
  · rfl

theorem hexPrefix_hexDigits (h : ∀ c ∈ ds, isHexDigit c = true) : hexPrefix ds = ds := by
  unfold hexPrefix
  split
  next x c t =>
    -- the `x` of a prefix is no digit
    have hx : isHexDigit x = true := h x (List.mem_cons_of_mem _ List.mem_cons_self)
    rw [if_neg]
    rintro ⟨hlower, -⟩
    exact absurd hx (by simp [not_hexDigit_of_x hlower])
  next => rfl

/-- A 64-bit hexadecimal word. -/
structure IsWord (ds : Bytes) : Prop where
  ne_nil : ds ≠ []
  digits : ∀ c ∈ ds, isHexDigit c = true
  range : numeral 16 ds < UInt64.size

/-- A word is read as its value. -/
theorem stoul16_word (h : IsWord ds) : stoul16 ds = .ok (UInt64.ofNat (numeral 16 ds)) := by
  obtain ⟨c, t, rfl⟩ := List.exists_cons_of_ne_nil h.ne_nil
  have hskip : skipSpace (c :: t) = c :: t :=
    List.dropWhile_cons_of_neg (by simp [not_space_of_hexDigit (h.digits c List.mem_cons_self)])
  have htake : (c :: t).takeWhile isHexDigit = c :: t := List.takeWhile_eq_self_iff.mpr h.digits
  have hdrop : (c :: t).dropWhile isHexDigit = [] := List.dropWhile_eq_nil_iff.mpr h.digits
  -- nothing in front of the digits is skipped, and they are the whole string
  unfold stoul16 strtoul16
  rw [cStr_hexDigits h.digits, hskip, sign_hexDigits h.digits]
  simp only [hexPrefix_hexDigits h.digits, List.span_eq_takeWhile_dropWhile, htake, hdrop,
    if_neg h.ne_nil, if_neg (Nat.not_le.mpr h.range)]
  have hlen : (cStr (c :: t)).len ≠ 0 := by
    unfold CStr.len
    rw [cStr_hexDigits h.digits]
    exact Nat.succ_ne_zero _
  rw [if_neg (by simpa using hlen)]
  rfl

end Word

/-- Without a digit to read `std::stoul` throws. -/
theorem stoul16_nil :
    stoul16 [] = .error ⟨.other (ascii "std::invalid_argument"), ascii "stoul"⟩ := rfl

end Cor

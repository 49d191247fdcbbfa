import Mathlib.Data.List.Basic
import Std.Data.ExtTreeMap
import Std.Data.ExtTreeSet

/-!
# Bytes and C strings

A `std::string` is a list of bytes, NUL bytes included. A `char const *` that
the code passes to `strlen` or `strchr` is a `CStr`: the bytes before the
terminator, none of which is NUL, so reading one position past the last byte
gives the terminator.
-/

namespace Cor

abbrev Bytes := List UInt8

/-- The bytes of an ASCII literal. -/
def ascii (s : String) : Bytes := s.toList.map fun c => UInt8.ofNat c.toNat

/-- A NUL-terminated string. -/
structure CStr where
  bytes : Bytes
  noNul : 0 ∉ bytes
deriving DecidableEq

/-- `s.c_str()`: a reader of the C string stops at the first NUL. -/
def cStr (s : Bytes) : CStr :=
  ⟨s.takeWhile (· != 0), fun h => absurd (List.all_eq_true.mp List.all_takeWhile 0 h) (by decide)⟩

namespace CStr

/-- `strlen`. -/
def len (s : CStr) : Nat := s.bytes.length

/-- `s[i]`, the terminator included. -/
def get (s : CStr) (i : Nat) : UInt8 := s.bytes.getD i 0

/-- The pointer `&s[n]`. -/
def drop (s : CStr) (n : Nat) : CStr :=
  ⟨s.bytes.drop n, fun h => s.noNul (List.mem_of_mem_drop h)⟩

/-- `strchr(s, c)` for a `c` that is not NUL: the string from the first `c` on. -/
def strchr (s : CStr) (c : UInt8) : Option CStr :=
  match h : s.bytes.dropWhile (· != c) with
  | [] => none
  | b :: bs => some ⟨b :: bs, fun hmem => s.noNul ((List.dropWhile_sublist _).subset (h ▸ hmem))⟩

@[simp] theorem drop_bytes (s : CStr) (n : Nat) : (s.drop n).bytes = s.bytes.drop n := rfl

/-- Without the character in the string `strchr` returns null. -/
theorem strchr_eq_none {s : CStr} {c : UInt8} (h : s.strchr c = none) :
    s.bytes.dropWhile (· != c) = [] := by
  unfold strchr at h
  split at h
  · assumption
  · exact absurd h (by simp)

/-- `strchr` splits the string before the first `c`. -/
theorem strchr_eq_some {s p : CStr} {c : UInt8} (h : s.strchr c = some p) :
    p.bytes = s.bytes.dropWhile (· != c) ∧
      s.bytes.take (s.len - p.len) = s.bytes.takeWhile (· != c) ∧ p.bytes ≠ [] := by
  unfold strchr at h
  split at h
  · exact absurd h (by simp)
  next b bs hd =>
    obtain rfl := Option.some.inj h
    have hsplit : s.bytes.takeWhile (· != c) ++ b :: bs = s.bytes := by
      rw [← hd]
      exact List.takeWhile_append_dropWhile
    have hlen : s.len - (b :: bs).length = (s.bytes.takeWhile (· != c)).length := by
      rw [len, ← hsplit, List.length_append, hsplit]
      omega
    refine ⟨hd.symm, ?_, by simp⟩
    show s.bytes.take (s.len - (b :: bs).length) = _
    rw [hlen]
    calc s.bytes.take (s.bytes.takeWhile (· != c)).length
        = (s.bytes.takeWhile (· != c) ++ b :: bs).take (s.bytes.takeWhile (· != c)).length := by
          rw [hsplit]
      _ = s.bytes.takeWhile (· != c) := List.take_left

end CStr

end Cor

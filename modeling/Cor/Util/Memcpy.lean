import Mathlib.Data.List.Basic
import Cor.Base.Bytes

/-!
# `memcpy_offset`

Three sizes of type `size_t` decide how much `memcpy_offset` copies, and the amount
is returned as an `int`. The limit it takes is `len + off`, as if `dst` had room for
`off` bytes more than its length, so with an offset it may write behind the end of
`dst`; and from 2 GiB on the amount is no longer an `int`. `in_bounds_iff` says when
the call keeps to `dst` and returns what it copied.
-/

namespace Cor.Memcpy

/-- The memory from `dst[0]` on, what lies behind the bytes of `dst` included. -/
abbrev Memory := Nat → UInt8

/-- What a call returns, and the bytes it writes to `dst[0]`, `dst[1]`, …. -/
structure Outcome where
  ret : Int32
  written : Bytes
deriving DecidableEq, Repr

/-- The memory after the call. -/
def Outcome.after (o : Outcome) (mem : Memory) : Memory := fun i => o.written.getD i (mem i)

def einval : Int32 := 22

/-- The `MIN` of `<sys/param.h>`. -/
def minSize (a b : UInt64) : UInt64 := if a < b then a else b

/-- `memcpy_offset(dst, len, off, src, src_len)`, with `none` for a null pointer. -/
def memcpyOffset (dst : Option Memory) (len off : UInt64) (src : Option Bytes)
    (src_len : UInt64) : Outcome :=
  match dst, src with
  | some _, some bytes =>
    if src_len ≤ off then ⟨-einval, []⟩
    else
      let actual_len := minSize (src_len - off) (len + off)
      -- the `size_t` is returned as an `int`
      ⟨Int32.ofNat actual_len.toNat,
        if actual_len ≠ 0 then (bytes.drop off.toNat).take actual_len.toNat else []⟩
  | _, _ => ⟨-einval, []⟩

/-- The call fails and writes nothing, or it returns a number of bytes that `dst` has room
for and `src` has from `off` on, and writes those. -/
def InBounds (len off : UInt64) (src : Option Bytes) (src_len : UInt64) (o : Outcome) : Prop :=
  (o.ret < 0 ∧ o.written = []) ∨
  ∃ (n : Nat) (bytes : Bytes), o.ret.toInt = n ∧ n ≤ len.toNat ∧
    off.toNat + n ≤ src_len.toNat ∧ src = some bytes ∧
    o.written = (bytes.drop off.toNat).take n ∧ o.written.length = n

/-- Nothing behind `dst` changes. -/
theorem InBounds.frame {len off src_len : UInt64} {src : Option Bytes} {o : Outcome}
    (h : InBounds len off src src_len o) (mem : Memory) {i : Nat} (hi : len.toNat ≤ i) :
    o.after mem i = mem i := by
  have hlen : o.written.length ≤ len.toNat := by
    rcases h with ⟨-, hnone⟩ | ⟨n, bytes, -, hn, -, -, -, hwritten⟩
    · rw [hnone]
      exact Nat.zero_le _
    · omega
  unfold Outcome.after
  rw [List.getD_eq_getElem?_getD, List.getElem?_eq_none (by omega)]
  rfl

theorem minSize_toNat (a b : UInt64) : (minSize a b).toNat = min a.toNat b.toNat := by
  unfold minSize
  split
  · next h =>
    rw [UInt64.lt_iff_toNat_lt] at h
    omega
  · next h =>
    rw [UInt64.lt_iff_toNat_lt] at h
    omega

/-- An amount survives the conversion to `int` if it is below 2 GiB, and then only. -/
theorem ofNat_toInt_eq {a : Nat} (ha : a < 18446744073709551616) {n : Nat}
    (h : (Int32.ofNat a).toInt = n) : n = a ↔ a < 2147483648 := by
  rw [Int32.toInt_ofNat', Int.bmod_def] at h
  have hsize : ((Int32.size : Nat) : Int) = 4294967296 := rfl
  rw [hsize] at h
  split at h <;> omega

/-- The amount that is copied, and the room that there is. -/
theorem amount {len off src_len : UInt64} (hoff : ¬ src_len ≤ off) :
    (minSize (src_len - off) (len + off)).toNat =
      min (src_len.toNat - off.toNat) ((len.toNat + off.toNat) % 18446744073709551616) := by
  rw [UInt64.le_iff_toNat_le] at hoff
  rw [minSize_toNat, UInt64.toNat_add, UInt64.toNat_sub_of_le]
  · rw [UInt64.le_iff_toNat_le]
    omega

/-- When the call stays in bounds: it is refused, or the limit `len + off` cuts off no less
than `len` would (there is no offset, the rest of `src` is short enough anyway, or the sum
wraps around), and one of the two amounts it chooses from is below 2 GiB. -/
def Fits (dst : Option Memory) (len off : UInt64) (src : Option Bytes) (src_len : UInt64) : Prop :=
  dst = none ∨ src = none ∨ src_len ≤ off ∨
  ((off = 0 ∨ src_len.toNat - off.toNat ≤ len.toNat ∨
      18446744073709551616 ≤ len.toNat + off.toNat) ∧
    (src_len.toNat - off.toNat < 2147483648 ∨
      (len.toNat + off.toNat) % 18446744073709551616 < 2147483648))

/-- A refused call stays in bounds. -/
theorem refused_inBounds (len off : UInt64) (src : Option Bytes) (src_len : UInt64) :
    InBounds len off src src_len ⟨-einval, []⟩ := .inl ⟨by decide, rfl⟩

/-- A call that copies `a` bytes stays in bounds if `dst` has room for them and `a` is an
`int`, and then only. -/
theorem copied_inBounds_iff {len off src_len : UInt64} {bytes : Bytes} {a : Nat}
    (hbytes : bytes.length = src_len.toNat) (ha : off.toNat + a ≤ src_len.toNat) :
    InBounds len off (some bytes) src_len ⟨Int32.ofNat a, (bytes.drop off.toNat).take a⟩ ↔
      a ≤ len.toNat ∧ a < 2147483648 := by
  have hlen : ((bytes.drop off.toNat).take a).length = a := by
    rw [List.length_take, List.length_drop]
    omega
  have hfit := src_len.toNat_lt
  constructor
  · rintro (⟨hneg, hnone⟩ | ⟨n, bytes', hret, hroom, -, hsrc, -, hn⟩)
    · -- nothing was written, so the amount is zero and no error
      obtain rfl : a = 0 := by
        rw [← hlen]
        exact congrArg List.length hnone
      exact absurd hneg (show ¬ Int32.ofNat 0 < 0 by decide)
    · have hna : n = a := hn.symm.trans hlen
      exact ⟨hna ▸ hroom, (ofNat_toInt_eq (by omega) hret).mp hna⟩
  · rintro ⟨hroom, hint⟩
    exact .inr ⟨a, bytes, Int32.toInt_ofNat_of_lt hint, hroom, ha, rfl, rfl, hlen⟩

/-- **`memcpy_offset` stays inside the destination** and says what it copied, for the sizes
that fit and no others. -/
theorem in_bounds_iff (dst : Option Memory) (len off : UInt64) (src : Option Bytes)
    (src_len : UInt64) (hsrc : ∀ bytes, src = some bytes → bytes.length = src_len.toNat) :
    InBounds len off src src_len (memcpyOffset dst len off src src_len) ↔
      Fits dst len off src src_len := by
  unfold memcpyOffset
  split
  · next mem bytes =>
    by_cases hoff : src_len ≤ off
    · rw [if_pos hoff]
      exact ⟨fun _ => .inr (.inr (.inl hoff)), fun _ => refused_inBounds _ _ _ _⟩
    · have hamount := @amount len off src_len hoff
      rw [if_neg hoff]
      rw [UInt64.le_iff_toNat_le] at hoff
      dsimp only
      generalize minSize (src_len - off) (len + off) = a at hamount
      have hwritten : (if a ≠ 0 then (bytes.drop off.toNat).take a.toNat else []) =
          (bytes.drop off.toNat).take a.toNat := by
        split
        · rfl
        · next hzero =>
          rw [Decidable.not_not.mp hzero]
          rfl
      rw [hwritten, copied_inBounds_iff (hsrc bytes rfl) (by omega), hamount]
      have hlen := len.toNat_lt
      have hsize := src_len.toNat_lt
      have hzero : off = 0 ↔ off.toNat = 0 := UInt64.toNat_inj.symm
      unfold Fits
      rw [hzero, UInt64.le_iff_toNat_le]
      simp only [reduceCtorEq, false_or]
      omega
  · next hnull =>
    refine ⟨fun _ => ?_, fun _ => refused_inBounds _ _ _ _⟩
    cases dst with
    | none => exact .inl rfl
    | some mem =>
      cases src with
      | none => exact .inr (.inl rfl)
      | some bytes => exact absurd rfl (hnull mem bytes rfl)

def zeros : Memory := fun _ => 0

/-- One byte of room, three bytes of source, one of them skipped: two are written. -/
theorem writes_behind_dst :
    memcpyOffset (some zeros) 1 1 (some [1, 2, 3]) 3 = ⟨2, [2, 3]⟩ ∧
      ¬ InBounds 1 1 (some [1, 2, 3]) 3 (memcpyOffset (some zeros) 1 1 (some [1, 2, 3]) 3) := by
  have hcall : memcpyOffset (some zeros) 1 1 (some [1, 2, 3]) 3 = ⟨2, [2, 3]⟩ := by decide
  refine ⟨hcall, fun hbounds => ?_⟩
  have hframe := hbounds.frame zeros (show (1 : UInt64).toNat ≤ 1 by decide)
  rw [hcall] at hframe
  exact absurd hframe (by decide)

theorem in_bounds_demo :
    InBounds 2 1 (some [1, 2, 3]) 3 (memcpyOffset (some zeros) 2 1 (some [1, 2, 3]) 3) := by
  refine (in_bounds_iff _ 2 1 _ 3 ?_).mpr ?_
  swap
  · exact .inr (.inr (.inr ⟨.inr (.inl (by decide)), .inl (by decide)⟩))
  rintro bytes ⟨⟩
  rfl

end Cor.Memcpy

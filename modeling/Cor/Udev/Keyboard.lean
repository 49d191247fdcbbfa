import Mathlib.Data.List.Basic
import Cor.Base.Stoul
import Cor.Util.Split

/-!
# `is_keyboard`

The key capabilities of an input device are words in hexadecimal, the most
significant one first, and `is_keyboard` asks for the bits `KEY_Q` to `KEY_P` of
them. `std::remove` shifts the elements to keep to the front of the list and leaves
the list as long as it was; what it returns, the new end, is not looked at.

A string that was moved from is empty, as the implementations leave it. An index
outside of the vector is an error of its own.
-/

namespace Cor.Udev

open Cor.Split

/-- `KEY_Q` and `KEY_P` of `linux/input.h`. -/
def keyQ : Nat := 16
def keyP : Nat := 25

/-- The bits of an `unsigned long`. -/
def bits : UInt64 := 64

inductive Fault where
  | exn (e : Exn)
  /-- An access outside of the vector. -/
  | index (pos : UInt64)
deriving DecidableEq

/-- Exceptions as they leave `is_keyboard`. -/
def raised {α : Type} : Except Exn α → Except Fault α
  | .ok a => .ok a
  | .error e => .error (.exn e)

/-! ## `std::remove` -/

/-- The elements from `first` on that are kept are moved to `result`. -/
def removeLoop (value : Bytes) (l : List Bytes) (result first : Nat) : List Bytes × Nat :=
  if h : first < l.length then
    if l[first] = value then removeLoop value l result (first + 1)
    else removeLoop value ((l.set result l[first]).set first []) (result + 1) (first + 1)
  else (l, result)
termination_by l.length - first
decreasing_by
  · omega
  · rw [List.length_set, List.length_set]
    omega

/-- `std::remove(l.begin(), l.end(), value)`: the list and the position of the new end. -/
def remove (value : Bytes) (l : List Bytes) : List Bytes × Nat :=
  match l.findIdx? (· == value) with
  | none => (l, l.length)
  | some result => removeLoop value l result (result + 1)

/-! ## `is_keyboard` -/

section Caps

variable (caps : List UInt64) (capsLast : UInt64)

/-- Whether the bit of the key `i` is set. -/
def keyBit (i : Nat) : Except Fault Bool :=
  let pos := capsLast - UInt64.ofNat i / bits
  let bit := UInt64.ofNat i % bits
  match caps[pos.toNat]? with
  | none => .error (.index pos)
  | some word => .ok ((word >>> bit) &&& 1 != 0)

/-- The loop over the keys: the number of those whose bit is set. -/
def countKeys : List Nat → Except Fault Nat
  | [] => return 0
  | i :: is => do
    let set ← keyBit caps capsLast i
    let count ← countKeys is
    return if set then count + 1 else count

end Caps

/-- From `KEY_Q` to `KEY_P`. -/
def keys : List Nat := List.range' keyQ (keyP - keyQ + 1)

/-- What follows the words were read. -/
def hasKeys (caps : List UInt64) : Except Fault Bool :=
  let capsLast := UInt64.ofNat caps.length - 1
  if capsLast < (UInt64.ofNat keyP + bits) / bits then return false
  else do
    let count ← countKeys caps capsLast keys
    return count == keyP - keyQ + 1

/-- `is_keyboard(dev)`, by what `dev.attr("capabilities/key")` returns: null when there is no
such attribute. -/
def isKeyboard (attr : Option StdString) : Except Fault Bool :=
  match attr with
  | none => return false
  | some key => do
    let capsStrs ← raised (split key (ascii " ") backInserter [])
    let capsStrs := (remove [] capsStrs).1
    if capsStrs.isEmpty then return false
    let caps ← capsStrs.mapM fun s => raised (stoul16 s)
    hasKeys caps

end Cor.Udev

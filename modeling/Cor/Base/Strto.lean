import Cor.Base.Bytes

/-!
# `strtol` and `strtod`

The two numeric conversions of the C library the code uses, in the C locale. Each
answers the value and the number of characters up to `endptr`; no conversion is
the value zero and no character. A `long` has 64 bits. A `double` is `Float`, and
a decimal numeral is rounded once, to nearest.
-/

namespace Cor

namespace Strto

def isSpace (c : UInt8) : Bool := c = 32 ∨ 9 ≤ c ∧ c ≤ 13

def isDigit (c : UInt8) : Bool := 48 ≤ c ∧ c ≤ 57

/-- The letters `A` to `Z` in lower case. -/
def lower (c : UInt8) : UInt8 := if 65 ≤ c ∧ c ≤ 90 then c + 32 else c

def isHexDigit (c : UInt8) : Bool := isDigit c ∨ 97 ≤ lower c ∧ lower c ≤ 102

def digitVal (c : UInt8) : Nat :=
  if isDigit c then c.toNat - 48 else (lower c).toNat - 87

/-- The value of a string of digits. -/
def numeral (base : Nat) (ds : Bytes) : Nat := ds.foldl (fun n c => base * n + digitVal c) 0

def skipSpace (s : Bytes) : Bytes := s.dropWhile isSpace

/-- The optional sign: whether it is a minus, and the rest. -/
def sign : Bytes → Bool × Bytes
  | 43 :: s => (false, s)
  | 45 :: s => (true, s)
  | s => (false, s)

/-- `strtol(s, &endptr, 10)`. -/
def strtol (s : CStr) : Int64 × Nat :=
  let (neg, t) := sign (skipSpace s.bytes)
  let (ds, rest) := t.span isDigit
  if ds = [] then (0, 0)
  else
    let n : Int := numeral 10 ds
    -- out of range the result is LONG_MAX or LONG_MIN
    (Int64.ofIntClamp (if neg then -n else n), s.len - rest.length)

/-- The digits around the radix character, the number of them after it, and the
rest; none without a digit. -/
def mantissa (digit : UInt8 → Bool) (s : Bytes) : Option (Bytes × Nat × Bytes) :=
  let (ip, t) := s.span digit
  let (fp, rest) := match t with
    | 46 :: u => u.span digit
    | _ => ([], t)
  if ip ++ fp = [] then none else some (ip ++ fp, fp.length, rest)

/-- The exponent after the letter `mark`; zero, and nothing read, when there are no
digits. -/
def exponent (mark : UInt8) (s : Bytes) : Int × Bytes :=
  match s with
  | c :: t =>
    let (neg, u) := sign t
    let (ds, rest) := u.span isDigit
    if lower c = mark ∧ ds ≠ [] then
      let n : Int := numeral 10 ds
      (if neg then -n else n, rest)
    else (0, s)
  | [] => (0, s)

/-- `m * 10 ^ e`. -/
def scaled10 (m : Nat) (e : Int) : Float := Float.ofScientific m (e < 0) e.natAbs

/-- `m * 2 ^ e`. -/
def scaled2 (m : Nat) (e : Int) : Float :=
  if m = 0 then 0
  -- no power of two is computed for a value out of range
  else if 1024 < e then 1 / 0
  else if e + m.log2 < -1100 then 0
  else if 0 ≤ e then Float.ofScientific (m <<< e.natAbs) false 0
  else Float.ofScientific (m * Nat.pow 5 e.natAbs) true e.natAbs

def decimal (s : Bytes) : Option (Float × Bytes) := do
  let (ds, n, t) ← mantissa isDigit s
  let (e, rest) := exponent 101 t  -- e
  return (scaled10 (numeral 10 ds) (e - n), rest)

def hexadecimal (s : Bytes) : Option (Float × Bytes) :=
  match s with
  | 48 :: x :: t => do
    if lower x ≠ 120 then none  -- x
    let (ds, n, u) ← mantissa isHexDigit t
    let (e, rest) := exponent 112 u  -- p
    return (scaled2 (numeral 16 ds) (e - 4 * n), rest)
  | _ => none

/-- The optional characters in parentheses after `nan`. -/
def nanChars (s : Bytes) : Bytes :=
  match s with
  | 40 :: t =>
    match t.dropWhile fun c => isDigit c ∨ 97 ≤ lower c ∧ lower c ≤ 122 ∨ c = 95 with
    | 41 :: rest => rest
    | _ => s
  | _ => s

/-- Whether `s` starts with the word `w`, in either case. -/
def hasWord (w : String) (s : Bytes) : Bool := (s.take w.length).map lower = ascii w

/-- The number after the sign, and the rest. -/
def magnitude (s : Bytes) : Option (Float × Bytes) :=
  if hasWord "infinity" s then some (1 / 0, s.drop 8)
  else if hasWord "inf" s then some (1 / 0, s.drop 3)
  else if hasWord "nan" s then some (0 / 0, nanChars (s.drop 3))
  else
    match hexadecimal s with
    | some r => some r
    | none => decimal s

/-- `strtod(s, &endptr)`. -/
def strtod (s : CStr) : Float × Nat :=
  let (neg, t) := sign (skipSpace s.bytes)
  match magnitude t with
  | none => (0, 0)
  | some (f, rest) => (if neg then -f else f, s.len - rest.length)

end Strto

end Cor

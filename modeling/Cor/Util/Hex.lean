import Mathlib.Data.List.TakeDrop
import Mathlib.Data.List.TakeWhile
import Cor.Base.Stoul
import Cor.Base.Stoi

/-!
# `binary_hex` and `hex2char`

`binary_hex` prints the bytes one after the other into one buffer, where the
terminator of each print is overwritten by the next; `binaryHex_eq` says that the
digits of all bytes are left. `hex2char` reads a byte back with `sscanf`, which
finds the two digits when they are there (`hex2char_digits`), but is content with
less: white space in front, a sign, one digit. `accepts_only_hex_iff` says on which
strings `hex2char` takes hexadecimal digits and nothing else.
-/

namespace Cor.Hex

open Strto

/-! ## `binary_hex` -/

/-- The template parameter `Fmt`, which a static assertion limits to two values. -/
inductive Fmt where
  | X
  | x
deriving DecidableEq, Repr

/-- The first of the digits that are letters. -/
def Fmt.letter : Fmt → Nat
  | .X => 65
  | .x => 97

def hexDigit (fmt : Fmt) (d : Nat) : UInt8 :=
  UInt8.ofNat (if d < 10 then 48 + d else fmt.letter + (d - 10))

/-- What `%02X` and `%02x` print for an `unsigned char`. -/
def byteHex (fmt : Fmt) (b : UInt8) : Bytes :=
  [hexDigit fmt (b.toNat / 16), hexDigit fmt (b.toNat % 16)]

/-- The buffer after `sprintf(&str[i], ...)` has printed `text` and the terminator. -/
def sprintf (str : Bytes) (i : Nat) (text : Bytes) : Bytes :=
  str.take i ++ (text ++ [0]) ++ str.drop (i + (text.length + 1))

/-- The loop of `binary_hex` from index `i` on, with `src` the bytes that are left. -/
def printBytes (fmt : Fmt) : Nat → Bytes → Bytes → Bytes
  | _, [], str => str
  | i, b :: src, str => printBytes fmt (i + 1) src (sprintf str (i * 2) (byteHex fmt b))

/-- `binary_hex<Fmt>(src, len)`. -/
def binaryHex (fmt : Fmt) (src : Bytes) : Bytes :=
  let str := printBytes fmt 0 src (List.replicate (src.length * 2 + 1) 0)
  str.take (str.length - 1)

/-- One print puts two digits in the place of zeros, and the buffer stays as long as it
was. -/
theorem sprintf_byte (fmt : Fmt) (b : UInt8) {done : Bytes} {i : Nat} (n : Nat)
    (hi : done.length = i * 2) :
    sprintf (done ++ List.replicate ((n + 1) * 2 + 1) 0) (i * 2) (byteHex fmt b) =
      done ++ byteHex fmt b ++ List.replicate (n * 2 + 1) 0 := by
  have hsplit : List.replicate ((n + 1) * 2 + 1) (0 : UInt8) =
      List.replicate 3 0 ++ List.replicate (n * 2) 0 := by
    rw [List.replicate_append_replicate]
    congr 1
    omega
  have hdrop : (done ++ List.replicate ((n + 1) * 2 + 1) (0 : UInt8)).drop
      (i * 2 + ((byteHex fmt b).length + 1)) = List.replicate (n * 2) 0 := by
    rw [← hi, List.drop_append, List.drop_eq_nil_of_le (Nat.le_add_right _ _), hsplit]
    show List.drop (done.length + 3 - done.length) _ = _
    rw [Nat.add_sub_cancel_left]
    rfl
  unfold sprintf
  rw [hdrop, ← hi, List.take_left]
  -- the terminator is the first of the zeros that are left
  simp only [List.append_assoc]
  rfl

/-- What has been printed stays, and a terminator follows it. -/
theorem printBytes_eq (fmt : Fmt) : ∀ (src : Bytes) (i : Nat) (done : Bytes),
    done.length = i * 2 →
    printBytes fmt i src (done ++ List.replicate (src.length * 2 + 1) 0) =
      done ++ src.flatMap (byteHex fmt) ++ [0] := by
  intro src
  induction src with
  | nil =>
    intro i done _
    show done ++ [0] = done ++ [] ++ [0]
    rw [List.append_nil]
  | cons b src ih =>
    intro i done hi
    show printBytes fmt (i + 1) src (sprintf _ (i * 2) (byteHex fmt b)) = _
    have hlen : (done ++ byteHex fmt b).length = (i + 1) * 2 := by
      rw [List.length_append, hi, Nat.succ_mul]
      rfl
    rw [List.length_cons, sprintf_byte fmt b src.length hi, ih (i + 1) _ hlen,
      List.flatMap_cons, List.append_assoc done]

/-- The result is the digits of the bytes, in their order. -/
theorem binaryHex_eq (fmt : Fmt) (src : Bytes) :
    binaryHex fmt src = src.flatMap (byteHex fmt) := by
  have hloop := printBytes_eq fmt src 0 [] rfl
  rw [List.nil_append, List.nil_append] at hloop
  unfold binaryHex
  rw [hloop]
  show List.take ((src.flatMap (byteHex fmt) ++ [0]).length - 1) _ = _
  rw [List.length_append]
  exact List.take_left

/-! ## `hex2char` -/

/-- `cor::CError`. -/
structure CError where
  rc : Int64
  what : Bytes
deriving DecidableEq, Repr

/-- The digits of a number after its sign, in the characters the field width leaves. The
prefix `0x` belongs to the number, so without a digit behind it nothing matches. -/
def scanDigits (u : Bytes) : Bytes :=
  match u with
  | 48 :: x :: v => if lower x = 120 then v.takeWhile isHexDigit else u.takeWhile isHexDigit
  | _ => u.takeWhile isHexDigit

/-- `sscanf(s, "%<width>x", &c)`, and the same with `X`: the result and `c`. -/
def sscanfHex (width : Nat) (s : CStr) (c : UInt32) : Int32 × UInt32 :=
  let t := skipSpace s.bytes
  -- at the end of the string the result is EOF
  if t = [] then (-1, c)
  else
    let (neg, u) := sign (t.take width)
    let ds := scanDigits u
    if ds = [] then (0, c)
    else
      let n := UInt32.ofNat (numeral 16 ds)
      (1, if neg then -n else n)

/-- `hex2char(src)`. -/
def hex2char (src : CStr) : Except CError UInt8 :=
  let (rc, c) := sscanfHex 2 src 0
  let (rc, c) := if rc = 0 then sscanfHex 2 src c else (rc, c)
  if rc ≠ 1 then .error ⟨rc.toInt64, ascii "Can't match input hex string"⟩
  else .ok c.toUInt8

/-- The byte that the first two characters denote, if they are hexadecimal digits. -/
def leadingByte : Bytes → Option UInt8
  | a :: b :: _ =>
    if isHexDigit a ∧ isHexDigit b then some (UInt8.ofNat (numeral 16 [a, b])) else none
  | _ => none

/-- A number begins here for `%2x`: a digit after a sign, a zero that is not that of a
prefix, or another digit. -/
def startsNumber : Bytes → Bool
  | 43 :: c :: _ => isHexDigit c
  | 45 :: c :: _ => isHexDigit c
  | 48 :: x :: _ => lower x ≠ 120
  | c :: _ => isHexDigit c
  | [] => false

/-! ## What is read -/

theorem takeWhile_hexDigit_ne_nil (c : UInt8) (u : Bytes) :
    (c :: u).takeWhile isHexDigit ≠ [] ↔ isHexDigit c = true := by
  rw [List.takeWhile_cons]
  cases isHexDigit c with
  | true => simp
  | false => simp

theorem scanDigits_singleton (c : UInt8) : scanDigits [c] ≠ [] ↔ isHexDigit c = true := by
  rw [← takeWhile_hexDigit_ne_nil c []]
  unfold scanDigits
  split
  next heq => exact absurd (List.cons.inj heq).2 (List.cons_ne_nil _ _).symm
  next => exact Iff.rfl

theorem scanDigits_cons {c : UInt8} (h : c ≠ 48) (u : Bytes) :
    scanDigits (c :: u) = (c :: u).takeWhile isHexDigit := by
  unfold scanDigits
  split
  next heq => exact absurd (List.cons.inj heq).1 h
  next => rfl

/-- After a zero the letter of a prefix leaves no room for a digit. -/
theorem scanDigits_zero (x : UInt8) : scanDigits [48, x] ≠ [] ↔ lower x ≠ 120 := by
  show (if lower x = 120 then [] else [48, x].takeWhile isHexDigit) ≠ [] ↔ _
  by_cases hx : lower x = 120
  · rw [if_pos hx]
    exact ⟨fun h => absurd rfl h, fun h => absurd hx h⟩
  · rw [if_neg hx, takeWhile_hexDigit_ne_nil]
    exact ⟨fun _ => hx, fun _ => rfl⟩

/-- Two characters have digits to read when a number begins with them. -/
theorem scanDigits_take_two (t : Bytes) :
    scanDigits (sign (t.take 2)).2 ≠ [] ↔ startsNumber t = true := by
  unfold startsNumber
  split
  next c u => exact scanDigits_singleton c
  next c u => exact scanDigits_singleton c
  next x u =>
    rw [decide_eq_true_iff]
    exact scanDigits_zero x
  next c u hplus hminus hzero =>
    cases u with
    | nil =>
      show scanDigits (sign [c]).2 ≠ [] ↔ _
      unfold sign
      split
      -- a sign alone is no number
      next heq =>
        obtain ⟨rfl, rfl⟩ := List.cons.inj heq
        exact ⟨fun h => absurd rfl h, fun h => absurd h (by decide)⟩
      next heq =>
        obtain ⟨rfl, rfl⟩ := List.cons.inj heq
        exact ⟨fun h => absurd rfl h, fun h => absurd h (by decide)⟩
      next => exact scanDigits_singleton c
    | cons b u =>
      have hsign : sign [c, b] = (false, [c, b]) := by
        unfold sign
        split
        next heq => exact absurd rfl (hplus b u (by rw [(List.cons.inj heq).1]))
        next heq => exact absurd rfl (hminus b u (by rw [(List.cons.inj heq).1]))
        next => rfl
      show scanDigits (sign [c, b]).2 ≠ [] ↔ _
      rw [hsign, scanDigits_cons, takeWhile_hexDigit_ne_nil]
      intro hc
      exact hzero b u (by rw [hc]) rfl
  next => exact ⟨fun h => absurd rfl h, fun h => absurd h (by decide)⟩

/-- Without a match `c` is left alone. -/
theorem sscanfHex_eq_of_zero {width : Nat} {s : CStr} {c : UInt32}
    (h : (sscanfHex width s c).1 = 0) : sscanfHex width s c = (0, c) := by
  unfold sscanfHex at h ⊢
  dsimp only at h ⊢
  split
  next heof =>
    rw [if_pos heof] at h
    exact absurd h (show (-1 : Int32) ≠ 0 by decide)
  next heof =>
    rw [if_neg heof] at h
    split
    next => rfl
    next hds =>
      rw [if_neg hds] at h
      exact absurd h (show (1 : Int32) ≠ 0 by decide)

/-- The second attempt reads what the first one read, so one is enough. -/
theorem hex2char_eq (s : CStr) :
    hex2char s = if (sscanfHex 2 s 0).1 = 1 then .ok (sscanfHex 2 s 0).2.toUInt8
      else .error ⟨(sscanfHex 2 s 0).1.toInt64, ascii "Can't match input hex string"⟩ := by
  unfold hex2char
  cases hscan : sscanfHex 2 s 0 with
  | mk rc c =>
    dsimp only
    by_cases hzero : rc = 0
    · have hsame := sscanfHex_eq_of_zero (show (sscanfHex 2 s 0).1 = 0 by rw [hscan]; exact hzero)
      obtain ⟨rfl, rfl⟩ := Prod.mk.inj (hscan.symm.trans hsame)
      rw [if_pos rfl, hscan]
      rfl
    · rw [if_neg hzero]
      dsimp only
      by_cases hone : rc = 1
      · rw [if_pos hone, if_neg (Decidable.not_not.mpr hone)]
      · rw [if_neg hone, if_pos hone]

theorem sscanfHex_matches_iff (s : CStr) (c : UInt32) :
    (sscanfHex 2 s c).1 = 1 ↔ startsNumber (skipSpace s.bytes) = true := by
  rw [← scanDigits_take_two]
  unfold sscanfHex
  dsimp only
  split
  next heof =>
    rw [heof]
    exact ⟨fun h => absurd h (show (-1 : Int32) ≠ 1 by decide), fun h => absurd rfl h⟩
  next =>
    split
    next hds =>
      exact ⟨fun h => absurd h (show (0 : Int32) ≠ 1 by decide), fun h => absurd hds h⟩
    next hds => exact ⟨fun _ => hds, fun _ => rfl⟩

/-- `hex2char` returns where white space is followed by a number for `%2x`. -/
theorem hex2char_returns_iff (s : CStr) :
    (∃ c, hex2char s = .ok c) ↔ startsNumber (skipSpace s.bytes) = true := by
  rw [hex2char_eq, ← sscanfHex_matches_iff s 0]
  split
  next hone => exact ⟨fun _ => hone, fun _ => ⟨_, rfl⟩⟩
  next hone =>
    constructor
    · intro h
      obtain ⟨c, hc⟩ := h
      exact absurd hc (by simp)
    · intro h
      exact absurd h hone

/-- Two digits in front are read as the byte they denote. -/
theorem hex2char_digits {s : CStr} {a b : UInt8} {u : Bytes} (hs : s.bytes = a :: b :: u)
    (ha : isHexDigit a = true) (hb : isHexDigit b = true) :
    hex2char s = .ok (UInt8.ofNat (numeral 16 [a, b])) := by
  have hall : ∀ c ∈ [a, b], isHexDigit c = true := by
    intro c hc
    rcases List.mem_cons.mp hc with rfl | hc
    · exact ha
    · rw [List.mem_singleton.mp hc]
      exact hb
  have hskip : skipSpace s.bytes = a :: b :: u := by
    rw [hs]
    exact List.dropWhile_cons_of_neg (by simp [not_space_of_hexDigit ha])
  have htwo : (a :: b :: u).take 2 = [a, b] := rfl
  have htake : [a, b].takeWhile isHexDigit = [a, b] := List.takeWhile_eq_self_iff.mpr hall
  have hdigits : scanDigits [a, b] = [a, b] := by
    unfold scanDigits
    split
    next heq =>
      obtain ⟨-, heq⟩ := List.cons.inj heq
      obtain ⟨rfl, -⟩ := List.cons.inj heq
      rw [if_neg, htake]
      intro hx
      exact absurd hb (by simp [not_hexDigit_of_x hx])
    next => exact htake
  have hscan : sscanfHex 2 s 0 = (1, UInt32.ofNat (numeral 16 [a, b])) := by
    unfold sscanfHex
    simp only [hskip, htwo, sign_hexDigits hall, hdigits, if_neg (List.cons_ne_nil _ _)]
    rfl
  rw [hex2char_eq, hscan, if_pos rfl]
  simp

/-! ## The round trip -/

/-- Both alphabets are read back. -/
theorem hexDigit_spec (fmt : Fmt) {d : Nat} (h : d < 16) :
    isHexDigit (hexDigit fmt d) = true ∧ digitVal (hexDigit fmt d) = d := by
  cases fmt with
  | X =>
    revert d
    decide
  | x =>
    revert d
    decide

/-- What was printed for a byte is read as that byte, whatever stands behind it. -/
theorem hex2char_byteHex (fmt : Fmt) (b : UInt8) (rest : Bytes) :
    hex2char (cStr (byteHex fmt b ++ rest)) = .ok b := by
  have hb := b.toNat_lt
  have hhigh := hexDigit_spec fmt (d := b.toNat / 16) (by omega)
  have hlow := hexDigit_spec fmt (d := b.toNat % 16) (by omega)
  have hne : ∀ {c : UInt8}, isHexDigit c = true → (c != 0) = true := by
    intro c hc
    rw [bne_iff_ne]
    intro hzero
    exact absurd (isHexDigit_ge hc) (by rw [hzero]; decide)
  have hbytes : (cStr (byteHex fmt b ++ rest)).bytes =
      hexDigit fmt (b.toNat / 16) :: hexDigit fmt (b.toNat % 16) :: (cStr rest).bytes := by
    show List.takeWhile (· != 0) (_ :: _ :: rest) = _
    rw [List.takeWhile_cons_of_pos (p := (· != 0)) (hne hhigh.1),
      List.takeWhile_cons_of_pos (p := (· != 0)) (hne hlow.1)]
    rfl
  have hvalue : numeral 16 [hexDigit fmt (b.toNat / 16), hexDigit fmt (b.toNat % 16)] =
      b.toNat := by
    show 16 * (16 * 0 + digitVal _) + digitVal _ = _
    rw [hhigh.2, hlow.2]
    omega
  rw [hex2char_digits hbytes hhigh.1 hlow.1, hvalue, UInt8.ofNat_toNat]

/-- The characters in groups of two. -/
def groups : Bytes → List Bytes
  | a :: b :: s => [a, b] :: groups s
  | [a] => [[a]]
  | [] => []

theorem groups_binaryHex (fmt : Fmt) (src : Bytes) :
    groups (binaryHex fmt src) = src.map (byteHex fmt) := by
  rw [binaryHex_eq]
  induction src with
  | nil => rfl
  | cons b src ih =>
    show byteHex fmt b :: groups (src.flatMap (byteHex fmt)) = _
    rw [ih]
    rfl

/-- Decoding the groups of what `binary_hex` prints gives the bytes back. -/
theorem decode_binaryHex (fmt : Fmt) (src : Bytes) :
    (groups (binaryHex fmt src)).map (fun g => hex2char (cStr g)) = src.map Except.ok := by
  rw [groups_binaryHex, List.map_map]
  refine List.map_congr_left fun b _ => ?_
  have hread := hex2char_byteHex fmt b []
  rw [List.append_nil] at hread
  exact hread

/-! ## What is accepted -/

/-- `hex2char` returns the byte that two hexadecimal digits in front denote, and throws
where there are none. -/
def AcceptsOnlyHex (s : CStr) : Prop := ∀ c, hex2char s = .ok c ↔ leadingByte s.bytes = some c

/-- There are two digits in front, or `%2x` finds no number, also behind white space. -/
def HexOrNoNumber (s : Bytes) : Prop :=
  leadingByte s ≠ none ∨ startsNumber (skipSpace s) = false

theorem hex2char_leadingByte {s : CStr} {c : UInt8} (h : leadingByte s.bytes = some c) :
    hex2char s = .ok c := by
  unfold leadingByte at h
  split at h
  next a b u hs =>
    split at h
    next hdigits => rw [hex2char_digits hs hdigits.1 hdigits.2, Option.some.inj h]
    next => exact absurd h (by simp)
  next => exact absurd h (by simp)

theorem acceptsOnlyHex_iff (s : CStr) : AcceptsOnlyHex s ↔ HexOrNoNumber s.bytes := by
  unfold AcceptsOnlyHex HexOrNoNumber
  constructor
  · intro h
    by_cases hstarts : startsNumber (skipSpace s.bytes) = true
    · -- the number that is read must be the two digits in front
      obtain ⟨c, hc⟩ := (hex2char_returns_iff s).mpr hstarts
      left
      rw [(h c).mp hc]
      exact Option.some_ne_none c
    · right
      exact eq_false_of_ne_true hstarts
  · intro h c
    refine ⟨fun hret => ?_, hex2char_leadingByte⟩
    rcases h with hlead | hstarts
    · obtain ⟨d, hd⟩ := Option.ne_none_iff_exists'.mp hlead
      have hsame := (hex2char_leadingByte hd).symm.trans hret
      rw [hd, Except.ok.inj hsame]
    · have hnumber := (hex2char_returns_iff s).mp ⟨c, hret⟩
      exact absurd hnumber (by simp [hstarts])

/-- **Hex decoding accepts only hex** on the strings where nothing else is a number for
`sscanf`, and on no others; what `binary_hex` prints is always read back. -/
theorem accepts_only_hex_iff (s : CStr) :
    (AcceptsOnlyHex s ↔ HexOrNoNumber s.bytes) ∧
    ∀ (fmt : Fmt) (src : Bytes),
      (groups (binaryHex fmt src)).map (fun g => hex2char (cStr g)) = src.map Except.ok :=
  ⟨acceptsOnlyHex_iff s, decode_binaryHex⟩

/-- One digit is enough for a byte. -/
theorem one_digit_accepted :
    hex2char (cStr (ascii "1g")) = .ok 1 ∧ ¬ AcceptsOnlyHex (cStr (ascii "1g")) := by
  have hread : hex2char (cStr (ascii "1g")) = .ok 1 := rfl
  refine ⟨hread, fun h => ?_⟩
  exact absurd ((h 1).mp hread) (by decide)

end Cor.Hex

import Mathlib.Data.List.TakeDrop
import Mathlib.Data.List.TakeWhile
import Cor.Notlisp.Expr

/-!
# Integer atoms

`default_atom_convert` makes an integer of a text that `strtol` reads to its end.
`strtol` reads more than numerals to the end: it skips white space in front, which
an escaped atom can contain, and out of range it gives a bound of `long` and says so
in `errno` only, which nobody looks at. `integer_atom_iff` says that these two are
all that goes wrong.
-/

namespace Cor.Notlisp

open Strto

/-- The text is a sign, or none, and at least one digit, and denotes the number. -/
inductive Denotes : Bytes → Int → Prop
  | unsigned {ds : Bytes} (hne : ds ≠ []) (hds : ∀ b ∈ ds, isDigit b = true) :
    Denotes ds (numeral 10 ds)
  | plus {ds : Bytes} (hne : ds ≠ []) (hds : ∀ b ∈ ds, isDigit b = true) :
    Denotes (43 :: ds) (numeral 10 ds)
  | minus {ds : Bytes} (hne : ds ≠ []) (hds : ∀ b ∈ ds, isDigit b = true) :
    Denotes (45 :: ds) (-(numeral 10 ds))

/-! ## The signs -/

/-- A text has no sign, or one of the two in front. -/
theorem sign_cases (s : Bytes) : (sign s = (false, s) ∧ ∀ t, s ≠ 43 :: t ∧ s ≠ 45 :: t) ∨
    (∃ t, s = 43 :: t ∧ sign s = (false, t)) ∨ ∃ t, s = 45 :: t ∧ sign s = (true, t) := by
  unfold sign
  split
  · next t => exact .inr (.inl ⟨t, rfl, rfl⟩)
  · next t => exact .inr (.inr ⟨t, rfl, rfl⟩)
  · next hplus hminus => exact .inl ⟨rfl, fun t => ⟨hplus t, hminus t⟩⟩

/-- A digit is no sign and no white space. -/
theorem sign_digit {b : UInt8} (hb : isDigit b = true) (s : Bytes) :
    sign (b :: s) = (false, b :: s) := by
  rcases sign_cases (b :: s) with ⟨hsign, -⟩ | ⟨t, ht, -⟩ | ⟨t, ht, -⟩
  · exact hsign
  · rw [(List.cons.inj ht).1] at hb
    exact absurd hb (by decide)
  · rw [(List.cons.inj ht).1] at hb
    exact absurd hb (by decide)

theorem not_space_of_digit {b : UInt8} (hb : isDigit b = true) : isSpace b = false := by
  simp only [isDigit, Bool.decide_and, Bool.and_eq_true, decide_eq_true_eq] at hb
  rw [UInt8.le_iff_toNat_le, UInt8.le_iff_toNat_le] at hb
  simp only [isSpace, decide_eq_false_iff_not, UInt8.le_iff_toNat_le, ← UInt8.toNat_inj]
  have h48 : (48 : UInt8).toNat = 48 := rfl
  have h13 : (13 : UInt8).toNat = 13 := rfl
  have h32 : (32 : UInt8).toNat = 32 := rfl
  omega

namespace Denotes

variable {t : Bytes} {z z' : Int}

/-- What a numeral begins with. -/
theorem head (h : Denotes t z) : ∃ b s, t = b :: s ∧ (isDigit b = true ∨ b = 43 ∨ b = 45) := by
  cases h with
  | unsigned hne hds =>
    obtain ⟨b, s, rfl⟩ := List.exists_cons_of_ne_nil hne
    exact ⟨b, s, rfl, .inl (hds b List.mem_cons_self)⟩
  | plus => exact ⟨43, _, rfl, .inr (.inl rfl)⟩
  | minus => exact ⟨45, _, rfl, .inr (.inr rfl)⟩

theorem head_not_space (h : Denotes t z) : ∃ b s, t = b :: s ∧ isSpace b = false := by
  obtain ⟨b, s, rfl, hb⟩ := h.head
  refine ⟨b, s, rfl, ?_⟩
  rcases hb with hb | rfl | rfl
  · exact not_space_of_digit hb
  · decide
  · decide

/-- What a numeral is made of. -/
theorem bytes (h : Denotes t z) : ∀ b ∈ t, isDigit b = true ∨ b = 43 ∨ b = 45 := by
  intro b hb
  cases h with
  | unsigned hne hds => exact .inl (hds b hb)
  | plus hne hds =>
    rcases List.mem_cons.mp hb with rfl | hb
    · exact .inr (.inl rfl)
    · exact .inl (hds b hb)
  | minus hne hds =>
    rcases List.mem_cons.mp hb with rfl | hb
    · exact .inr (.inr rfl)
    · exact .inl (hds b hb)

/-- The sign and the digits of a numeral. -/
theorem sign_eq (h : Denotes t z) : ∃ neg ds, sign t = (neg, ds) ∧ ds ≠ [] ∧
    (∀ b ∈ ds, isDigit b = true) ∧ z = if neg then -(numeral 10 ds : Int) else numeral 10 ds := by
  cases h with
  | unsigned hne hds =>
    obtain ⟨b, s, rfl⟩ := List.exists_cons_of_ne_nil hne
    exact ⟨false, b :: s, sign_digit (hds b List.mem_cons_self) s, hne, hds, rfl⟩
  | @plus ds hne hds => exact ⟨false, ds, rfl, hne, hds, rfl⟩
  | @minus ds hne hds => exact ⟨true, ds, rfl, hne, hds, rfl⟩

/-- A text denotes one number. -/
theorem unique (h : Denotes t z) (h' : Denotes t z') : z = z' := by
  obtain ⟨neg, ds, hsign, -, -, rfl⟩ := h.sign_eq
  obtain ⟨neg', ds', hsign', -, -, rfl⟩ := h'.sign_eq
  rw [hsign] at hsign'
  rw [(Prod.mk.inj hsign').1, (Prod.mk.inj hsign').2]

/-- A sign and digits are a numeral. -/
theorem of_sign {neg : Bool} {ds : Bytes} (hsign : sign t = (neg, ds)) (hne : ds ≠ [])
    (hds : ∀ b ∈ ds, isDigit b = true) :
    Denotes t (if neg then -(numeral 10 ds : Int) else numeral 10 ds) := by
  rcases sign_cases t with ⟨hs, -⟩ | ⟨u, rfl, hs⟩ | ⟨u, rfl, hs⟩
  · obtain ⟨rfl, rfl⟩ := Prod.mk.inj (hs.symm.trans hsign)
    exact .unsigned hne hds
  · obtain ⟨rfl, rfl⟩ := Prod.mk.inj (hs.symm.trans hsign)
    exact .plus hne hds
  · obtain ⟨rfl, rfl⟩ := Prod.mk.inj (hs.symm.trans hsign)
    exact .minus hne hds

end Denotes

/-! ## `strtol` -/

/-- A numeral after white space is read to its end, and clamped to the range of `long`. -/
theorem strtol_numeral {c : CStr} {ws t : Bytes} {z : Int} (hc : c.bytes = ws ++ t)
    (hws : ∀ b ∈ ws, isSpace b = true) (ht : Denotes t z) :
    strtol c = (Int64.ofIntClamp z, c.len) := by
  obtain ⟨neg, ds, hsign, hne, hds, rfl⟩ := ht.sign_eq
  obtain ⟨b, s, rfl, hb⟩ := ht.head_not_space
  have hskip : skipSpace c.bytes = b :: s := by
    rw [skipSpace, hc, List.dropWhile_append_of_pos hws, List.dropWhile_cons_of_neg (by simp [hb])]
  have htake : ds.takeWhile isDigit = ds := List.takeWhile_eq_self_iff.mpr hds
  have hdrop : ds.dropWhile isDigit = [] := List.dropWhile_eq_nil_iff.mpr hds
  unfold strtol
  rw [hskip, hsign]
  simp only [List.span_eq_takeWhile_dropWhile, htake, hdrop, if_neg hne]
  rfl

/-- What `strtol` reads to its end is a numeral after white space. -/
theorem strtol_whole {c : CStr} (hc : c.bytes ≠ []) (h : (strtol c).2 = c.len) :
    ∃ ws t z, c.bytes = ws ++ t ∧ (∀ b ∈ ws, isSpace b = true) ∧ Denotes t z ∧
      (strtol c).1 = Int64.ofIntClamp z := by
  have hpos : 0 < c.len := List.length_pos_iff.mpr hc
  have hsplit := List.takeWhile_append_dropWhile (p := isSpace) (l := c.bytes)
  refine ⟨c.bytes.takeWhile isSpace, skipSpace c.bytes, ?_⟩
  unfold strtol at h ⊢
  generalize hsign : sign (skipSpace c.bytes) = signed at h ⊢
  obtain ⟨neg, u⟩ := signed
  simp only [List.span_eq_takeWhile_dropWhile] at h ⊢
  by_cases hds : u.takeWhile isDigit = []
  · rw [if_pos hds] at h
    simp at h
    omega
  · rw [if_neg hds] at h ⊢
    have hrest : u.dropWhile isDigit = [] := by
      rw [← List.length_eq_zero_iff]
      simp only at h
      omega
    have hu : u.takeWhile isDigit = u := by
      have hwhole := List.takeWhile_append_dropWhile (p := isDigit) (l := u)
      rwa [hrest, List.append_nil] at hwhole
    rw [hu] at hds ⊢
    exact ⟨_, hsplit.symm, fun b hb => List.mem_takeWhile_imp hb,
      Denotes.of_sign hsign hds (List.takeWhile_eq_self_iff.mp hu), rfl⟩

/-! ## Atoms -/

section Atoms

variable {F : Type}

theorem cStr_len_le (s : Bytes) : (cStr s).len ≤ s.length :=
  (List.takeWhile_sublist _).length_le

/-- A C string as long as the text is the text: there is no NUL in it. -/
theorem cStr_of_len {s : Bytes} (h : (cStr s).len = s.length) : (cStr s).bytes = s :=
  (List.takeWhile_prefix _).eq_of_length h

theorem strtol_le (c : CStr) : (strtol c).2 ≤ c.len := by
  unfold strtol
  generalize sign (skipSpace c.bytes) = signed
  obtain ⟨neg, u⟩ := signed
  simp only
  split
  · exact Nat.zero_le _
  · exact Nat.sub_le _ _

/-- A numeral after white space, and what it denotes. -/
structure Padded (s ws t : Bytes) (z : Int) : Prop where
  split : s = ws ++ t
  space : ∀ b ∈ ws, isSpace b = true
  numeral : Denotes t z

/-- No byte of a numeral, or of white space, is NUL or a colon. -/
theorem Padded.plain {s ws t : Bytes} {z : Int} (h : Padded s ws t z) :
    ∀ b ∈ s, b ≠ 0 ∧ b ≠ 58 := by
  have hdigit : ∀ b, isDigit b = true → b ≠ 0 ∧ b ≠ 58 := by
    intro b hb
    constructor
    · rintro rfl
      exact absurd hb (by decide)
    · rintro rfl
      exact absurd hb (by decide)
  intro b hb
  rw [h.split, List.mem_append] at hb
  rcases hb with hb | hb
  · have hspace := h.space b hb
    constructor
    · rintro rfl
      exact absurd hspace (by decide)
    · rintro rfl
      exact absurd hspace (by decide)
  · rcases h.numeral.bytes b hb with hd | rfl | rfl
    · exact hdigit b hd
    · decide
    · decide

/-- A numeral has no white space in front, and one value. -/
theorem Padded.of_numeral {s ws t : Bytes} {z z' : Int} (h : Padded s ws t z)
    (hs : Denotes s z') : ws = [] ∧ z = z' := by
  cases ws with
  | nil =>
    have hst : s = t := h.split
    exact ⟨rfl, h.numeral.unique (hst ▸ hs)⟩
  | cons b ws =>
    obtain ⟨c, u, hcons, hc⟩ := hs.head_not_space
    have hbc : b = c := (List.cons.inj (h.split.symm.trans hcons)).1
    have hspace := h.space b List.mem_cons_self
    rw [hbc, hc] at hspace
    exact absurd hspace (by simp)

/-- **The texts that become integers** are the numerals after white space. -/
theorem convert_integer {s : Bytes} (hs : s ≠ []) (i : Int64) :
    (defaultAtomConvert s : ExprPtr F) = some (.integer i) ↔
      ∃ ws t z, Padded s ws t z ∧ i = Int64.ofIntClamp z := by
  constructor
  · intro h
    unfold defaultAtomConvert at h
    split at h
    · exact absurd h (by simp [mkKeyword])
    · simp only at h
      split at h
      · next hread =>
        have hlen : (cStr s).len = s.length := by
          have hle := cStr_len_le s
          have hmax := strtol_le (cStr s)
          omega
        have hbytes := cStr_of_len hlen
        obtain ⟨ws, t, z, hsplit, hws, ht, hvalue⟩ :=
          strtol_whole (by rw [hbytes]; exact hs) (hread.trans hlen.symm)
        rw [hvalue] at h
        refine ⟨ws, t, z, ⟨hbytes.symm.trans hsplit, hws, ht⟩, ?_⟩
        simpa using h.symm
      · split at h
        · exact absurd h (by simp)
        · exact absurd h (by simp [mkSymbol])
  · rintro ⟨ws, t, z, hpad, rfl⟩
    have hall : ∀ b ∈ s, (b != 0) = true := fun b hb => bne_iff_ne.mpr (hpad.plain b hb).1
    have hbytes : (cStr s).bytes = s := List.takeWhile_eq_self_iff.mpr hall
    have hread := strtol_numeral (hbytes.trans hpad.split) hpad.space hpad.numeral
    have hlen : (cStr s).len = s.length := congrArg List.length hbytes
    unfold defaultAtomConvert
    split
    · next name => exact absurd rfl (hpad.plain 58 List.mem_cons_self).2
    · rw [hread, hlen]
      exact if_pos rfl

/-- Where an integer is not what its text denotes: white space in front of the numeral, or a
number outside the range of `long`. -/
def Misread (s : Bytes) : Prop :=
  ∃ ws t z, Padded s ws t z ∧
    (ws ≠ [] ∨ z < Int64.minValue.toInt ∨ Int64.maxValue.toInt < z)

theorem clamp_eq_iff (z : Int) : (Int64.ofIntClamp z).toInt = z ↔
    Int64.minValue.toInt ≤ z ∧ z ≤ Int64.maxValue.toInt := by
  constructor
  · intro h
    rw [← h]
    exact ⟨(Int64.ofIntClamp z).minValue_le_toInt, (Int64.ofIntClamp z).toInt_le⟩
  · rintro ⟨hlow, hhigh⟩
    exact Int64.toInt_ofIntClamp hlow hhigh

/-- **An integer atom denotes its text**, unless the text is one of the two kinds that
`strtol` accepts beyond the numerals of `long`. -/
theorem integer_atom_iff {s : Bytes} (hs : s ≠ []) :
    (∀ i, (defaultAtomConvert s : ExprPtr F) = some (.integer i) → Denotes s i.toInt) ↔
      ¬ Misread s := by
  constructor
  · rintro hall ⟨ws, t, z, hpad, hbad⟩
    have hden := hall _ ((convert_integer hs _).mpr ⟨ws, t, z, hpad, rfl⟩)
    obtain ⟨hws, hz⟩ := hpad.of_numeral hden
    have hrange := (clamp_eq_iff z).mp hz.symm
    rcases hbad with hne | hlow | hhigh
    · exact hne hws
    · omega
    · omega
  · intro hgood i hi
    obtain ⟨ws, t, z, hpad, rfl⟩ := (convert_integer hs i).mp hi
    have hws : ws = [] := by
      by_contra hne
      exact hgood ⟨ws, t, z, hpad, .inl hne⟩
    have hclamp : (Int64.ofIntClamp z).toInt = z := by
      rw [clamp_eq_iff]
      constructor
      · by_contra hlow
        exact hgood ⟨ws, t, z, hpad, .inr (.inl (by omega))⟩
      · by_contra hhigh
        exact hgood ⟨ws, t, z, hpad, .inr (.inr (by omega))⟩
    rw [hclamp, hpad.split, hws]
    exact hpad.numeral

/-- A text in which nothing is misread, from its numeral. -/
theorem not_misread {s : Bytes} {z : Int} (hs : Denotes s z) (hlow : Int64.minValue.toInt ≤ z)
    (hhigh : z ≤ Int64.maxValue.toInt) : ¬ Misread s := by
  rintro ⟨ws, t, z', hpad, hbad⟩
  obtain ⟨hws, hz⟩ := hpad.of_numeral hs
  rcases hbad with hne | hbad | hbad
  · exact hne hws
  · omega
  · omega

end Atoms

/-- A blank and a digit. -/
def blankFive : Bytes := ascii " 5"

/-- A numeral above the range of `long`. -/
def twentyNines : Bytes := ascii "99999999999999999999"

/-- `" 5"` is the integer 5, and the twenty nines are `LONG_MAX`. -/
theorem integers_misread :
    (defaultAtomConvert blankFive : ExprPtr Unit) = some (.integer 5) ∧
    ¬ Denotes blankFive (5 : Int64).toInt ∧
    (defaultAtomConvert twentyNines : ExprPtr Unit) = some (.integer Int64.maxValue) ∧
    ¬ Denotes twentyNines Int64.maxValue.toInt := by
  refine ⟨rfl, fun h => ?_, rfl, fun h => ?_⟩
  · obtain ⟨b, s, hcons, hb⟩ := h.head_not_space
    obtain ⟨rfl, -⟩ := List.cons.inj hcons
    exact absurd hb (by decide)
  · have hnines : Denotes twentyNines (numeral 10 twentyNines) :=
      .unsigned (by decide) (List.all_eq_true.mp rfl)
    exact absurd (h.unique hnines) (by decide)

theorem integer_atom_demo :
    (defaultAtomConvert (ascii "-12") : ExprPtr Unit) = some (.integer (-12)) ∧
      Denotes (ascii "-12") (-12 : Int64).toInt := by
  have hnumeral : Denotes (ascii "-12") (-12) :=
    @Denotes.minus (ascii "12") (by decide) (List.all_eq_true.mp rfl)
  exact ⟨rfl, (@integer_atom_iff Unit _ (by decide)).mpr
    (not_misread hnumeral (by decide) (by decide)) (-12) (by rfl)⟩

end Cor.Notlisp

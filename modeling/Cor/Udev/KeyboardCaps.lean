import Mathlib.Data.List.Basic
import Cor.Udev.Keyboard

/-!
# What `is_keyboard` answers

The words are counted wrong by one: the guard compares the last index, where it
means the number of words, with the number of words that the keys need, which is
one. So a single word is refused whatever its bits are (`isKeyboard_decides_iff`).

`std::remove` leaves an empty string at the end of the list for each one it skips,
and `std::stoul` throws at the first of them. So one empty part is enough to make
`is_keyboard` throw (`isKeyboard_tolerates_iff`).
-/

namespace Cor.Udev

open Cor.Split Cor.Strto

/-! ## `std::remove` -/

/-- An element that is moved to the front of the gap leaves an empty string behind the gap. -/
theorem set_gap (kept rest : List Bytes) (s : Bytes) (k : Nat) :
    ((kept ++ List.replicate (k + 1) [] ++ s :: rest).set kept.length s).set
        (kept.length + (k + 1)) [] = (kept ++ [s]) ++ List.replicate (k + 1) [] ++ rest := by
  have hfirst : (kept ++ List.replicate (k + 1) [] ++ s :: rest).set kept.length s =
      (kept ++ s :: List.replicate k []) ++ s :: rest := by
    rw [List.append_assoc, List.set_append_right _ _ (Nat.le_refl _), Nat.sub_self,
      List.replicate_succ]
    simp
  have hlen : (kept ++ s :: List.replicate k ([] : Bytes)).length = kept.length + (k + 1) := by
    simp
  rw [hfirst, List.set_append_right _ _ (by omega), hlen, Nat.sub_self, List.set_cons_zero,
    List.replicate_succ' (n := k)]
  simp

/-- The loop on a list of what was kept, the gap and what is left to look at. -/
theorem removeLoop_eq (rest : List Bytes) : ∀ (kept : List Bytes) (k : Nat),
    removeLoop [] (kept ++ List.replicate (k + 1) [] ++ rest) kept.length
        (kept.length + (k + 1)) =
      (kept ++ rest.filter (· != []) ++ List.replicate (k + 1 + rest.count []) [],
        kept.length + (rest.filter (· != [])).length) := by
  induction rest with
  | nil =>
    intro kept k
    rw [removeLoop, dif_neg (by simp)]
    simp
  | cons s rest ih =>
    intro kept k
    have hlen : (kept ++ List.replicate (k + 1) ([] : Bytes)).length = kept.length + (k + 1) := by
      simp
    have hget : (kept ++ List.replicate (k + 1) [] ++ s :: rest)[kept.length + (k + 1)]? =
        some s := by
      rw [← hlen, List.getElem?_append_right (Nat.le_refl _), Nat.sub_self]
      rfl
    obtain ⟨hlt, hget⟩ := List.getElem?_eq_some_iff.mp hget
    rw [removeLoop, dif_pos hlt, hget]
    by_cases hs : s = []
    · -- the gap grows
      subst hs
      have hgap : kept ++ List.replicate (k + 1) [] ++ [] :: rest =
          kept ++ List.replicate (k + 1 + 1) [] ++ rest := by
        rw [List.replicate_succ' (n := k + 1)]
        simp
      rw [if_pos rfl, hgap]
      refine (ih kept (k + 1)).trans ?_
      rw [List.filter_cons_of_neg (by simp), List.count_cons_self, Nat.add_right_comm (k + 1) 1]
      rfl
    · -- the gap moves behind the element
      rw [if_neg hs, set_gap]
      have hagain := ih (kept ++ [s]) k
      rw [List.length_append, List.length_singleton] at hagain
      rw [Nat.add_right_comm, hagain, List.filter_cons_of_pos (by simpa using hs),
        List.count_cons_of_ne hs]
      refine Prod.ext ?_ ?_
      · simp
      · show kept.length + 1 + _ = kept.length + (_ :: _ : List Bytes).length
        rw [List.length_cons, Nat.add_assoc, Nat.add_comm 1]

/-- A list without empty strings. -/
theorem count_filter_of_nonempty {l : List Bytes} (h : ∀ s ∈ l, (s == []) = false) :
    l.count [] = 0 ∧ l.filter (· != []) = l := by
  constructor
  · refine List.count_eq_zero.mpr ?_
    intro hmem
    exact nomatch h [] hmem
  · refine List.filter_eq_self.mpr ?_
    intro s hs
    simpa using h s hs

/-- What is kept comes first, and for each element that is not an empty string is left. -/
theorem remove_eq (l : List Bytes) :
    (remove [] l).1 = l.filter (· != []) ++ List.replicate (l.count []) [] := by
  unfold remove
  cases h : l.findIdx? (· == []) with
  | none =>
    obtain ⟨hcount, hfilter⟩ := count_filter_of_nonempty (List.findIdx?_eq_none_iff.mp h)
    rw [hcount, hfilter]
    exact (List.append_nil l).symm
  | some i =>
    obtain ⟨part, sep, rest, rfl, rfl, hpart, hsep⟩ := findIdx?_split h
    obtain rfl : sep = [] := by simpa using hsep
    obtain ⟨hcount, hfilter⟩ := count_filter_of_nonempty hpart
    have hlist : part ++ [] :: rest = part ++ List.replicate (0 + 1) [] ++ rest := by simp
    rw [List.filter_append, hfilter, List.filter_cons_of_neg (by simp), List.count_append, hcount,
      List.count_cons_self, hlist]
    show (removeLoop [] _ part.length (part.length + (0 + 1))).1 = _
    rw [removeLoop_eq, Nat.zero_add, Nat.zero_add, Nat.add_comm 1]

/-! ## `std::stoul` on the list -/

/-- An empty string in the list makes the loop throw. -/
theorem mapM_stoul_of_nil {l : List Bytes} (h : [] ∈ l) :
    ∃ e, l.mapM (fun s => raised (stoul16 s)) = .error e := by
  induction l with
  | nil => exact absurd h List.not_mem_nil
  | cons s l ih =>
    rw [List.mapM_cons]
    cases hs : raised (stoul16 s) with
    | error e => exact ⟨e, rfl⟩
    | ok v =>
      rcases List.mem_cons.mp h with rfl | h
      · rw [stoul16_nil] at hs
        exact nomatch hs
      · obtain ⟨e, he⟩ := ih h
        exact ⟨e, by rw [he]; rfl⟩

/-- Words are read as their values. -/
theorem mapM_stoul_words {words : List Bytes} (h : ∀ w ∈ words, IsWord w) :
    words.mapM (fun s => raised (stoul16 s)) =
      .ok (words.map fun w => UInt64.ofNat (numeral 16 w)) := by
  induction words with
  | nil => rfl
  | cons w words ih =>
    rw [List.mapM_cons, stoul16_word (h w List.mem_cons_self),
      ih fun v hv => h v (List.mem_cons_of_mem _ hv)]
    rfl

/-! ## The bits of the keys -/

/-- The number that words denote, the most significant one first. -/
def number (words : List Bytes) : Nat :=
  words.foldl (fun n w => UInt64.size * n + numeral 16 w) 0

/-- Every bit from `KEY_Q` to `KEY_P` is set. -/
def KeysSet (n : Nat) : Prop := ∀ i, keyQ ≤ i → i ≤ keyP → n.testBit i = true

/-- The low bits of the number are those of its last word. -/
theorem testBit_number {init : List Bytes} {w : Bytes} (hw : numeral 16 w < UInt64.size) {i : Nat}
    (hi : i < 64) : (number (init ++ [w])).testBit i = (numeral 16 w).testBit i := by
  unfold number
  rw [List.foldl_append, List.foldl_cons, List.foldl_nil]
  rw [show UInt64.size = 2 ^ 64 from rfl] at hw ⊢
  rw [Nat.testBit_two_pow_mul_add _ hw, if_pos hi]

theorem mem_keys {i : Nat} : i ∈ keys ↔ keyQ ≤ i ∧ i ≤ keyP := by
  unfold keys keyQ keyP
  rw [List.mem_range'_1]
  omega

section Bits

variable {front : List UInt64} {word : UInt64}

theorem capsLast_toNat (h : (front ++ [word]).length < UInt64.size) :
    (UInt64.ofNat (front ++ [word]).length - 1).toNat = front.length := by
  have hlen : (UInt64.ofNat (front ++ [word]).length).toNat = front.length + 1 := by
    rw [UInt64.toNat_ofNat_of_lt' h, List.length_append, List.length_singleton]
  have hone : (1 : UInt64).toNat = 1 := rfl
  rw [UInt64.toNat_sub_of_le _ _ (UInt64.le_iff_toNat_le.mpr (by omega)), hlen, hone]
  rfl

/-- Each key is looked up in the last word, at an index inside of the vector. -/
theorem keyBit_last (h : (front ++ [word]).length < UInt64.size) {i : Nat} (hi : i ∈ keys) :
    keyBit (front ++ [word]) (UInt64.ofNat (front ++ [word]).length - 1) i =
      .ok (word.toNat.testBit i) := by
  -- the keys are below 64, so the division by the bits of a word is 0
  have hle : i ≤ 25 := (mem_keys.mp hi).2
  have hi64 : (UInt64.ofNat i).toNat = i := UInt64.toNat_ofNat_of_lt' (by
    show i < 18446744073709551616
    omega)
  have hbits : bits.toNat = 64 := rfl
  have hdiv : UInt64.ofNat i / bits = 0 := by
    rw [← UInt64.toNat_inj, UInt64.toNat_div, hi64, hbits]
    exact Nat.div_eq_of_lt (by omega)
  have hmod : (UInt64.ofNat i % bits).toNat = i := by
    rw [UInt64.toNat_mod, hi64, hbits]
    exact Nat.mod_eq_of_lt (by omega)
  have hget : (front ++ [word])[(UInt64.ofNat (front ++ [word]).length - 1).toNat]? =
      some word := by
    rw [capsLast_toNat h, List.getElem?_append_right (Nat.le_refl _), Nat.sub_self]
    rfl
  have hbit : ((word >>> (UInt64.ofNat i % bits)) &&& 1 != 0) = word.toNat.testBit i := by
    rw [Bool.eq_iff_iff, bne_iff_ne, ne_eq, ← UInt64.toNat_inj, UInt64.toNat_and,
      UInt64.toNat_shiftRight, hmod, Nat.mod_eq_of_lt (by omega), Nat.testBit, bne_iff_ne,
      Nat.and_comm]
    rfl
  unfold keyBit
  simp only [hdiv, UInt64.sub_zero, hget, hbit]

/-- The loop counts the keys whose bit is set. -/
theorem countKeys_eq {caps : List UInt64} {capsLast : UInt64} {f : Nat → Bool} :
    ∀ (is : List Nat), (∀ i ∈ is, keyBit caps capsLast i = .ok (f i)) →
      countKeys caps capsLast is = .ok (is.countP f)
  | [], _ => rfl
  | i :: is, h => by
    rw [countKeys, h i List.mem_cons_self,
      countKeys_eq is fun j hj => h j (List.mem_cons_of_mem _ hj), List.countP_cons]
    cases f i <;> rfl

/-- What is answered for the words: no for a single one, and else what the last one says. -/
theorem hasKeys_eq (h : (front ++ [word]).length < UInt64.size) :
    hasKeys (front ++ [word]) = .ok (front ≠ [] ∧ ∀ i ∈ keys, word.toNat.testBit i = true) := by
  have hneeded : (UInt64.ofNat keyP + bits) / bits = 1 := rfl
  unfold hasKeys
  simp only [hneeded]
  by_cases hfront : front = []
  · -- the guard asks for two words, although the keys need only one
    subst hfront
    have hguard : UInt64.ofNat ([] ++ [word]).length - 1 < 1 := by
      show UInt64.ofNat 1 - 1 < 1
      decide
    rw [if_pos hguard]
    simp
    rfl
  · have hpos := List.length_pos_iff.mpr hfront
    rw [if_neg]
    · rw [countKeys_eq keys fun i hi => keyBit_last h hi]
      show Except.ok (keys.countP _ == keys.length) = _
      congr 1
      rw [Bool.eq_iff_iff, beq_iff_eq, List.countP_eq_length, decide_eq_true_iff]
      exact ⟨fun hall => ⟨hfront, hall⟩, fun hall => hall.2⟩
    · rw [UInt64.lt_iff_toNat_lt, capsLast_toNat h]
      show ¬ front.length < 1
      omega

end Bits

/-- What is answered for words, by the number they denote. -/
theorem hasKeys_words {words : List Bytes} (hne : words ≠ []) (h : ∀ w ∈ words, IsWord w)
    (hlt : words.length < UInt64.size) :
    ∃ b, hasKeys (words.map fun w => UInt64.ofNat (numeral 16 w)) = .ok b ∧
      (b = true ↔ 2 ≤ words.length ∧ KeysSet (number words)) := by
  obtain ⟨init, w, rfl⟩ := (List.eq_nil_or_concat' words).resolve_left hne
  have hw : numeral 16 w < UInt64.size := (h w (List.mem_append_right _ List.mem_cons_self)).range
  have hcaps := @hasKeys_eq (init.map fun w => UInt64.ofNat (numeral 16 w))
    (UInt64.ofNat (numeral 16 w)) (by simpa using hlt)
  refine ⟨_, by rw [List.map_append]; exact hcaps, ?_⟩
  rw [decide_eq_true_iff, UInt64.toNat_ofNat_of_lt' hw, List.length_append, List.length_singleton]
  have hinit : init.map (fun w => UInt64.ofNat (numeral 16 w)) ≠ [] ↔ 2 ≤ init.length + 1 := by
    rw [ne_eq, List.map_eq_nil_iff, ← List.length_eq_zero_iff]
    omega
  rw [hinit]
  refine and_congr_right fun _ => ?_
  constructor
  · intro hall i hq hp
    have hi : i < 64 := Nat.lt_of_le_of_lt hp (by decide)
    rw [testBit_number hw hi]
    exact hall i (mem_keys.mpr ⟨hq, hp⟩)
  · intro hset i hi
    obtain ⟨hq, hp⟩ := mem_keys.mp hi
    rw [← @testBit_number init _ hw i (Nat.lt_of_le_of_lt hp (by decide))]
    exact hset i hq hp

/-! ## The whole function -/

section Answers

variable {key : StdString}

/-- The parts of the string between the spaces. -/
def parts (key : StdString) : List Bytes := key.bytes.splitOn 32

theorem split_parts (key : StdString) :
    split key (ascii " ") backInserter [] = .ok (parts key) := by
  rw [split_eq, backInserter_foldl, List.nil_append]
  exact congrArg (fun f => Except.ok (key.bytes.splitOnP f)) (contains_singleton 32)

theorem parts_ne_nil (key : StdString) : parts key ≠ [] := List.splitOnP_ne_nil _ _

theorem parts_length_lt (key : StdString) : (parts key).length < UInt64.size := by
  have hfits := key.fits
  have hcount := List.countP_le_length (p := (· == (32 : UInt8))) (l := key.bytes)
  show (key.bytes.splitOnP (· == 32)).length < 18446744073709551616
  rw [splitOnP_length]
  omega

/-- With an empty part `std::stoul` throws. -/
theorem isKeyboard_of_nil_mem (h : [] ∈ parts key) : ∃ e, isKeyboard (some key) = .error e := by
  -- `std::remove` leaves an empty string at the end, and nothing erases it
  have hmem : [] ∈ (remove [] (parts key)).1 := by
    rw [remove_eq]
    refine List.mem_append_right _ (List.mem_replicate.mpr ⟨?_, rfl⟩)
    exact Nat.ne_of_gt (List.count_pos_iff.mpr h)
  obtain ⟨e, he⟩ := mapM_stoul_of_nil hmem
  refine ⟨e, ?_⟩
  show (raised (split key (ascii " ") backInserter []) >>= _) = _
  rw [split_parts]
  show (if (remove [] (parts key)).1.isEmpty then _ else _) = _
  rw [if_neg (by simpa using List.ne_nil_of_mem hmem), he]
  rfl

/-- What is answered for words separated by single spaces. -/
theorem isKeyboard_words (h : ∀ w ∈ parts key, IsWord w) :
    ∃ b, isKeyboard (some key) = .ok b ∧
      (b = true ↔ 2 ≤ (parts key).length ∧ KeysSet (number (parts key))) := by
  have hremove : (remove [] (parts key)).1 = parts key := by
    have hnone : ∀ w ∈ parts key, (w == []) = false := by
      intro w hw
      simpa using (h w hw).ne_nil
    obtain ⟨hcount, hfilter⟩ := count_filter_of_nonempty hnone
    rw [remove_eq, hcount, hfilter]
    exact List.append_nil _
  obtain ⟨b, hb, hiff⟩ := hasKeys_words (parts_ne_nil key) h (parts_length_lt key)
  refine ⟨b, ?_, hiff⟩
  show (raised (split key (ascii " ") backInserter []) >>= _) = _
  rw [split_parts]
  show (if (remove [] (parts key)).1.isEmpty then _ else _) = _
  rw [hremove, if_neg (by simpa using parts_ne_nil key), mapM_stoul_words h]
  exact hb

/-- A word has no space in it. -/
theorem isWord_no_space {w : Bytes} (h : IsWord w) : 32 ∉ w := by
  intro hmem
  exact absurd (h.digits 32 hmem) (by decide)

theorem parts_of_join {words : List Bytes} (hne : words ≠ []) (h : ∀ w ∈ words, IsWord w)
    (hkey : key.bytes = join words (ascii " ")) : parts key = words := by
  unfold parts
  rw [hkey, join_eq]
  exact List.splitOn_intercalate 32 (fun w hw => isWord_no_space (h w hw)) hne

/-- **The answer for words separated by single spaces.** It is the right one, and no index is
out of range, exactly when there are two words at least or a bit of the keys is not set. -/
theorem isKeyboard_decides_iff (words : List Bytes) (hne : words ≠ [])
    (h : ∀ w ∈ words, IsWord w) (key : StdString) (hkey : key.bytes = join words (ascii " ")) :
    (∃ b, isKeyboard (some key) = .ok b ∧ (b = true ↔ KeysSet (number words))) ↔
      2 ≤ words.length ∨ ¬ KeysSet (number words) := by
  have hparts := parts_of_join hne h hkey
  obtain ⟨b, hb, hiff⟩ := @isKeyboard_words key (by rw [hparts]; exact h)
  rw [hparts] at hiff
  constructor
  · rintro ⟨b', hb', hset⟩
    rw [hb, Except.ok.injEq] at hb'
    subst hb'
    by_cases hkeys : KeysSet (number words)
    · exact .inl (hiff.mp (hset.mpr hkeys)).1
    · exact .inr hkeys
  · intro hcond
    refine ⟨b, hb, ?_⟩
    rw [hiff]
    constructor
    · exact And.right
    · intro hset
      rcases hcond with hlen | hnot
      · exact ⟨hlen, hset⟩
      · exact absurd hset hnot

/-- The word with exactly the bits from `KEY_Q` to `KEY_P`. -/
def keyWord : Bytes := ascii "3ff0000"

theorem keyWord_isWord : IsWord keyWord :=
  ⟨by decide, List.all_eq_true.mp rfl, by decide⟩

theorem keyWords_isWord : ∀ w ∈ [keyWord, keyWord], IsWord w :=
  List.forall_mem_cons.mpr ⟨keyWord_isWord, List.forall_mem_singleton.mpr keyWord_isWord⟩

theorem keyWord_keysSet (init : List Bytes) : KeysSet (number (init ++ [keyWord])) := by
  intro i hq hp
  rw [testBit_number keyWord_isWord.range (Nat.lt_of_le_of_lt hp (by decide))]
  exact List.all_eq_true.mp (rfl : keys.all (numeral 16 keyWord).testBit = true) i
    (mem_keys.mpr ⟨hq, hp⟩)

theorem isKeyboard_decides_demo :
    (∃ b, isKeyboard (some ⟨ascii "3ff0000 3ff0000", by decide⟩) = .ok b ∧
      (b = true ↔ KeysSet (number [keyWord, keyWord]))) ↔
      2 ≤ [keyWord, keyWord].length ∨ ¬ KeysSet (number [keyWord, keyWord]) :=
  isKeyboard_decides_iff [keyWord, keyWord] (by decide)
    keyWords_isWord ⟨ascii "3ff0000 3ff0000", by decide⟩ (by decide)

/-- A single word is refused with all the bits set. -/
theorem isKeyboard_single_word :
    IsWord keyWord ∧ KeysSet (number [keyWord]) ∧
    isKeyboard (some ⟨keyWord, by decide⟩) = .ok false := by
  refine ⟨keyWord_isWord, keyWord_keysSet [], ?_⟩
  have hparts : parts ⟨keyWord, by decide⟩ = [keyWord] := by decide
  obtain ⟨b, hb, hiff⟩ := @isKeyboard_words ⟨keyWord, by decide⟩
    (by rw [hparts]; exact List.forall_mem_singleton.mpr keyWord_isWord)
  rw [hparts] at hiff
  cases b with
  | false => exact hb
  | true => exact absurd (hiff.mp rfl).1 (by decide)

/-- The words of a string with any number of spaces before, between and after them. -/
def spacedWords (key : StdString) : List Bytes := (parts key).filter (· != [])

/-- `is_keyboard` returns: no without words, and else what it returns for the words separated
by single spaces. -/
def Tolerates (key : StdString) : Prop :=
  ∃ b, isKeyboard (some key) = .ok b ∧ (spacedWords key = [] → b = false) ∧
    (spacedWords key ≠ [] → ∀ regular : StdString,
      regular.bytes = join (spacedWords key) (ascii " ") → isKeyboard (some regular) = .ok b)

theorem not_tolerates_of_nil_mem (h : [] ∈ parts key) : ¬ Tolerates key := by
  rintro ⟨b, hb, -, -⟩
  obtain ⟨e, he⟩ := isKeyboard_of_nil_mem h
  rw [hb] at he
  exact nomatch he

/-- **Irregular spacing is not tolerated.** `is_keyboard` does what it should exactly when
there is nothing to tolerate: no space before, after or next to another one, and a word. -/
theorem isKeyboard_tolerates_iff (key : StdString) (h : ∀ w ∈ spacedWords key, IsWord w) :
    Tolerates key ↔ [] ∉ parts key := by
  constructor
  · intro htol hmem
    exact not_tolerates_of_nil_mem hmem htol
  · intro hno
    have hwords : spacedWords key = parts key := by
      refine List.filter_eq_self.mpr fun w hw => ?_
      rw [bne_iff_ne]
      rintro rfl
      exact hno hw
    unfold Tolerates
    rw [hwords] at h ⊢
    obtain ⟨b, hb, -⟩ := isKeyboard_words h
    refine ⟨b, hb, fun hnil => absurd hnil (parts_ne_nil key), ?_⟩
    intro _ regular hregular
    have hsame : regular.bytes = key.bytes := by
      rw [hregular, join_eq]
      exact List.intercalate_splitOn 32
    obtain ⟨bytes, fits⟩ := regular
    subst hsame
    exact hb

theorem isKeyboard_tolerates_demo :
    Tolerates ⟨ascii "3ff0000 3ff0000", by decide⟩ ↔
      [] ∉ parts ⟨ascii "3ff0000 3ff0000", by decide⟩ :=
  isKeyboard_tolerates_iff ⟨ascii "3ff0000 3ff0000", by decide⟩ keyWords_isWord

/-- Two spaces between two words make `is_keyboard` throw, and so does the empty string. -/
theorem isKeyboard_double_space :
    spacedWords ⟨ascii "3ff0000  3ff0000", by decide⟩ = [keyWord, keyWord] ∧
    (∃ e, isKeyboard (some ⟨ascii "3ff0000  3ff0000", by decide⟩) = .error e) ∧
    isKeyboard (some ⟨ascii "3ff0000 3ff0000", by decide⟩) = .ok true ∧
    ¬ Tolerates ⟨ascii "3ff0000  3ff0000", by decide⟩ ∧
    (∃ e, isKeyboard (some ⟨[], by decide⟩) = .error e) ∧ ¬ Tolerates ⟨[], by decide⟩ := by
  have hnil : [] ∈ parts ⟨ascii "3ff0000  3ff0000", by decide⟩ := by decide
  have hempty : [] ∈ parts ⟨[], by decide⟩ := by decide
  refine ⟨by decide, isKeyboard_of_nil_mem hnil, ?_, not_tolerates_of_nil_mem hnil,
    isKeyboard_of_nil_mem hempty, not_tolerates_of_nil_mem hempty⟩
  have hparts : parts ⟨ascii "3ff0000 3ff0000", by decide⟩ = [keyWord, keyWord] := by decide
  obtain ⟨b, hb, hiff⟩ := @isKeyboard_words ⟨ascii "3ff0000 3ff0000", by decide⟩
    (by rw [hparts]; exact keyWords_isWord)
  rw [hparts] at hiff
  rw [hiff.mpr ⟨by decide, keyWord_keysSet [keyWord]⟩] at hb
  exact hb

end Answers

end Cor.Udev

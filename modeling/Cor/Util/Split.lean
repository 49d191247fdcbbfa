import Mathlib.Data.List.Basic
import Cor.Base.Error

/-!
# `split` and `join`

`split` walks the string with two positions of type `size_t`. Its loop can end in
two ways, at `npos` or behind a separator at the end of the string, and what is
left is written after the loop with the length `end - begin`, which wraps around
in the second case. `splitFrom_eq` shows that either way the parts written are
those of `List.splitOnP`, whatever the output iterator makes of them.

A `std::string` is a list of bytes whose size is below `npos`. Running out of
memory is not modelled, so `reserve` has no effect.
-/

namespace Cor.Split

/-- `std::string::npos`. -/
def npos : UInt64 := -1

theorem npos_toNat : npos.toNat = 18446744073709551615 := by decide

structure StdString where
  bytes : Bytes
  fits : bytes.length < 18446744073709551615

namespace StdString

def size (s : StdString) : UInt64 := UInt64.ofNat s.bytes.length

/-- `find_first_of(symbols, pos)`. -/
def findFirstOf (s : StdString) (symbols : Bytes) (pos : UInt64) : UInt64 :=
  match (s.bytes.drop pos.toNat).findIdx? symbols.contains with
  | some i => pos + UInt64.ofNat i
  | none => npos

/-- `substr(pos, n)`: at most `n` characters from `pos` on. -/
def substr (s : StdString) (pos n : UInt64) : Except Exn Bytes :=
  if s.size < pos then .error ⟨.other (ascii "std::out_of_range"), ascii "basic_string::substr"⟩
  else .ok ((s.bytes.drop pos.toNat).take n.toNat)

@[simp] theorem size_toNat (s : StdString) : s.size.toNat = s.bytes.length := by
  have hfits := s.fits
  rw [size, UInt64.toNat_ofNat']
  omega

end StdString

/-- The first element that satisfies `f` splits the list. -/
theorem findIdx?_split {α : Type} {f : α → Bool} {l : List α} {i : Nat}
    (h : l.findIdx? f = some i) : ∃ part sep rest, l = part ++ sep :: rest ∧ part.length = i ∧
      (∀ a ∈ part, f a = false) ∧ f sep = true := by
  induction l generalizing i with
  | nil => exact absurd h (by simp)
  | cons a l ih =>
    rw [List.findIdx?_cons] at h
    by_cases ha : f a = true
    · rw [if_pos ha] at h
      exact ⟨[], a, l, rfl, Option.some.inj h, by simp, ha⟩
    · rw [if_neg ha] at h
      obtain ⟨j, hj, rfl⟩ := Option.map_eq_some_iff.mp h
      obtain ⟨part, sep, rest, rfl, rfl, hpart, hsep⟩ := ih hj
      refine ⟨a :: part, sep, rest, rfl, rfl, ?_, hsep⟩
      intro b hb
      rcases List.mem_cons.mp hb with rfl | hb
      · exact eq_false_of_ne_true ha
      · exact hpart b hb

/-- What `find_first_of` returns: `npos` without a separator from `pos` on, and else the
position of the first one. -/
theorem findFirstOf_spec (s : StdString) (symbols : Bytes) (pos : UInt64) :
    (s.findFirstOf symbols pos = npos ∧
      ∀ b ∈ s.bytes.drop pos.toNat, symbols.contains b = false) ∨
    (s.findFirstOf symbols pos ≠ npos ∧ ∃ part sep rest,
      s.bytes.drop pos.toNat = part ++ sep :: rest ∧
      (∀ b ∈ part, symbols.contains b = false) ∧ symbols.contains sep = true ∧
      (s.findFirstOf symbols pos).toNat = pos.toNat + part.length ∧
      pos.toNat + part.length + 1 + rest.length = s.bytes.length) := by
  unfold StdString.findFirstOf
  cases h : (s.bytes.drop pos.toNat).findIdx? symbols.contains with
  | none => exact .inl ⟨rfl, List.findIdx?_eq_none_iff.mp h⟩
  | some i =>
    obtain ⟨part, sep, rest, hsplit, rfl, hpart, hsep⟩ := findIdx?_split h
    have hlen := congrArg List.length hsplit
    rw [List.length_drop, List.length_append, List.length_cons] at hlen
    have hfits := s.fits
    have hpos : (pos + UInt64.ofNat part.length).toNat = pos.toNat + part.length := by
      rw [UInt64.toNat_add, UInt64.toNat_ofNat']
      omega
    refine .inr ⟨?_, part, sep, rest, hsplit, hpart, hsep, hpos, by omega⟩
    intro heq
    have htop := congrArg UInt64.toNat heq
    dsimp only at htop
    rw [hpos, npos_toNat] at htop
    omega

/-! ## `split` -/

/-- An output iterator, by what `*dst = v` does to the place it writes to. -/
structure OutputIterator (σ : Type) where
  assign : Bytes → σ → σ

/-- `std::back_inserter`. -/
def backInserter : OutputIterator (List Bytes) where
  assign part parts := parts ++ [part]

section Loop

variable {σ : Type} (src : StdString) (symbols : Bytes) (dst : OutputIterator σ)

/-- The loop, with `begin` and `end` (here `stop`) as they are when it is left. -/
def splitLoop (begin : UInt64) (out : σ) : Except Exn (UInt64 × UInt64 × σ) :=
  let stop := src.findFirstOf symbols begin
  if _h : stop = npos then .ok (begin, stop, out)
  else do
    let part ← src.substr begin (stop - begin)
    let out := dst.assign part out
    let next := stop + 1
    if _hnext : src.size ≤ next then .ok (next, stop, out)
    else splitLoop next out
termination_by src.bytes.length - begin.toNat
decreasing_by
  have hfits := src.fits
  rcases findFirstOf_spec src symbols begin with
    ⟨hnone, -⟩ | ⟨-, part, sep, rest, -, -, -, hpos, hlen⟩
  · exact absurd hnone _h
  · have hnext : (src.findFirstOf symbols begin + 1).toNat = begin.toNat + part.length + 1 := by
      rw [UInt64.toNat_add, hpos, UInt64.toNat_one]
      omega
    show src.bytes.length - (src.findFirstOf symbols begin + 1).toNat < _
    omega

/-- What follows the loop. -/
def splitRest (begin stop : UInt64) (out : σ) : Except Exn σ :=
  if begin ≠ stop then do
    let part ← src.substr begin (stop - begin)
    return dst.assign part out
  else return out

/-- `split` from `begin` on. -/
def splitFrom (begin : UInt64) (out : σ) : Except Exn σ := do
  let (begin, stop, out) ← splitLoop src symbols dst begin out
  splitRest src dst begin stop out

/-- `split(src, symbols, dst)`. -/
def split (out : σ) : Except Exn σ := splitFrom src symbols dst 0 out

variable {src symbols dst}

theorem substr_of_le {pos n : UInt64} (h : pos.toNat ≤ src.bytes.length) :
    src.substr pos n = .ok ((src.bytes.drop pos.toNat).take n.toNat) := by
  unfold StdString.substr
  rw [if_neg]
  rw [UInt64.lt_iff_toNat_lt, StdString.size_toNat]
  omega

section Step

variable {begin : UInt64} {out : σ}

theorem splitLoop_none (h : src.findFirstOf symbols begin = npos) :
    splitLoop src symbols dst begin out = .ok (begin, npos, out) := by
  rw [splitLoop]
  simp only [h, dif_pos]

/-- One turn of the loop writes the characters before the separator it finds. -/
theorem splitLoop_found {part rest : Bytes} {sep : UInt8}
    (hsome : src.findFirstOf symbols begin ≠ npos)
    (hsplit : src.bytes.drop begin.toNat = part ++ sep :: rest)
    (hpos : (src.findFirstOf symbols begin).toNat = begin.toNat + part.length)
    (hbegin : begin.toNat ≤ src.bytes.length) :
    splitLoop src symbols dst begin out =
      if src.size ≤ src.findFirstOf symbols begin + 1 then
        .ok (src.findFirstOf symbols begin + 1, src.findFirstOf symbols begin, dst.assign part out)
      else splitLoop src symbols dst (src.findFirstOf symbols begin + 1) (dst.assign part out) := by
  have hle : begin ≤ src.findFirstOf symbols begin := by
    rw [UInt64.le_iff_toNat_le, hpos]
    omega
  have hpart : src.substr begin (src.findFirstOf symbols begin - begin) = .ok part := by
    rw [substr_of_le hbegin, UInt64.toNat_sub_of_le _ _ hle, hpos, hsplit,
      Nat.add_sub_cancel_left, List.take_left]
  rw [splitLoop]
  simp only [hsome, dif_neg, not_false_eq_true, hpart]
  rfl

/-- Without a separator from `begin` on the loop ends at `npos`, and the rest is written. -/
theorem splitRest_npos (hbegin : begin.toNat ≤ src.bytes.length) :
    splitRest src dst begin npos out = .ok (dst.assign (src.bytes.drop begin.toNat) out) := by
  have hfits := src.fits
  have hne : begin ≠ npos := by
    rintro rfl
    rw [npos_toNat] at hbegin
    omega
  have hle : begin ≤ npos := by
    rw [UInt64.le_iff_toNat_le, npos_toNat]
    omega
  have htake : (src.bytes.drop begin.toNat).take (npos - begin).toNat =
      src.bytes.drop begin.toNat := by
    rw [List.take_of_length_le]
    rw [List.length_drop, UInt64.toNat_sub_of_le _ _ hle, npos_toNat]
    omega
  unfold splitRest
  rw [if_pos hne, substr_of_le hbegin, htake]
  rfl

/-- Behind a separator at the end of the string `end - begin` wraps around, and the empty
part is written. -/
theorem splitRest_end (hbegin : begin.toNat = src.bytes.length) {stop : UInt64}
    (hne : begin ≠ stop) : splitRest src dst begin stop out = .ok (dst.assign [] out) := by
  unfold splitRest
  rw [if_pos hne, substr_of_le (by omega), hbegin, List.drop_length, List.take_nil]
  rfl

end Step

/-- **From any position on the parts of the rest are written**, in order. -/
theorem splitFrom_eq (begin : UInt64) (out : σ) (hbegin : begin.toNat ≤ src.bytes.length) :
    splitFrom src symbols dst begin out =
      .ok (((src.bytes.drop begin.toNat).splitOnP symbols.contains).foldl
        (fun out part => dst.assign part out) out) := by
  induction hn : src.bytes.length - begin.toNat using Nat.strongRecOn generalizing begin out with
  | ind n ih =>
  have hfits := src.fits
  unfold splitFrom
  rcases findFirstOf_spec src symbols begin with
    ⟨hnone, hall⟩ | ⟨hsome, part, sep, rest, hsplit, hpart, hsep, hpos, hlen⟩
  · -- no separator is left: the rest is the last part
    rw [splitLoop_none hnone, List.splitOnP_eq_singleton hall]
    exact splitRest_npos hbegin
  · have hnext : (src.findFirstOf symbols begin + 1).toNat = begin.toNat + part.length + 1 := by
      rw [UInt64.toNat_add, hpos, UInt64.toNat_one]
      omega
    have hrest : src.bytes.drop (src.findFirstOf symbols begin + 1).toNat = rest := by
      rw [hnext, Nat.add_assoc, ← List.drop_drop, hsplit, ← List.drop_drop, List.drop_left]
      rfl
    rw [splitLoop_found hsome hsplit hpos hbegin, hsplit,
      List.splitOnP_append_cons_of_forall_mem hpart sep hsep, List.foldl_cons]
    by_cases hend : src.size ≤ src.findFirstOf symbols begin + 1
    · -- the separator is the last character
      rw [if_pos hend]
      rw [UInt64.le_iff_toNat_le, StdString.size_toNat, hnext] at hend
      have hnil : rest = [] := List.length_eq_zero_iff.mp (by omega)
      rw [hnil]
      refine splitRest_end (by omega) fun heq => ?_
      have htop := congrArg UInt64.toNat heq
      omega
    · rw [if_neg hend]
      rw [UInt64.le_iff_toNat_le, StdString.size_toNat, hnext] at hend
      have hagain := ih _ (by omega) (src.findFirstOf symbols begin + 1) (dst.assign part out)
        (by omega) rfl
      rw [hrest] at hagain
      exact hagain

/-- The iterator is assigned the parts between the separators, in order. -/
theorem split_eq (out : σ) : split src symbols dst out =
    .ok ((src.bytes.splitOnP symbols.contains).foldl (fun out part => dst.assign part out) out) :=
  splitFrom_eq 0 out (Nat.zero_le _)

end Loop

theorem backInserter_foldl (parts out : List Bytes) :
    parts.foldl (fun out part => backInserter.assign part out) out = out ++ parts := by
  induction parts generalizing out with
  | nil => exact (List.append_nil out).symm
  | cons part parts ih =>
    rw [List.foldl_cons, ih]
    exact (List.append_cons out part parts).symm

theorem splitOnP_length {α : Type} (f : α → Bool) (l : List α) :
    (l.splitOnP f).length = l.countP f + 1 := by
  induction l with
  | nil => rfl
  | cons a l ih =>
    rw [List.splitOnP_cons_eq_if_modifyHead, List.countP_cons]
    by_cases ha : f a = true
    · rw [if_pos ha, if_pos ha, List.length_cons, ih]
    · rw [if_neg ha, if_neg ha, List.length_modifyHead, ih]

/-- No part contains a separator. -/
theorem splitOnP_no_sep {α : Type} (f : α → Bool) (l : List α) :
    ∀ part ∈ l.splitOnP f, ∀ a ∈ part, f a = false := by
  induction l with
  | nil => simp
  | cons a l ih =>
    rw [List.splitOnP_cons_eq_if_modifyHead]
    by_cases ha : f a = true
    · rw [if_pos ha]
      simpa using ih
    · rw [if_neg ha]
      obtain ⟨first, rest, hparts⟩ := List.exists_cons_of_ne_nil (List.splitOnP_ne_nil f l)
      rw [hparts] at ih ⊢
      intro part hpart b hb
      rcases List.mem_cons.mp hpart with rfl | hpart
      · rcases List.mem_cons.mp hb with rfl | hb
        · exact eq_false_of_ne_true ha
        · exact ih first List.mem_cons_self b hb
      · exact ih part (List.mem_cons_of_mem _ hpart) b hb

/-! ## `join` -/

/-- `join(begin, end, sep)`, and `join(src, sep)` for a container. -/
def join (src : List Bytes) (sep : Bytes) : Bytes :=
  match src with
  | [] => []
  | first :: rest => rest.foldl (fun res v => (res ++ sep) ++ v) ([] ++ first)

theorem join_eq (parts : List Bytes) (sep : Bytes) : join parts sep = sep.intercalate parts := by
  cases parts with
  | nil => rfl
  | cons first rest =>
    show rest.foldl (fun res v => (res ++ sep) ++ v) first = sep.intercalate (first :: rest)
    induction rest generalizing first with
    | nil => simp [List.intercalate]
    | cons v rest ih =>
      rw [List.foldl_cons, ih]
      cases rest <;> simp [List.intercalate]

/-- The parts one after the other, each but the last followed by the next separator. -/
def weave (parts : List Bytes) (seps : Bytes) : Bytes :=
  (List.zipWith (· ++ ·) parts (seps.map (fun sep => [sep]) ++ [[]])).flatten

theorem contains_singleton (c : UInt8) : [c].contains = (· == c) := by
  funext b
  rw [Bool.eq_iff_iff]
  simp

/-- **`split` and `join` are inverse.** Splitting appends one part more than there are
separators, none with a separator in it, and the parts with the separators between them are
the string. For one separator joining the parts gives the string back, and splitting a
string that was joined from parts without the separator gives the parts back. -/
theorem split_join_inverse :
    (∀ (src : StdString) (symbols : Bytes) (out : List Bytes), ∃ parts : List Bytes,
      split src symbols backInserter out = .ok (out ++ parts) ∧
      parts.length = src.bytes.countP symbols.contains + 1 ∧
      (∀ part ∈ parts, ∀ b ∈ part, b ∉ symbols) ∧
      weave parts (src.bytes.filter symbols.contains) = src.bytes) ∧
    (∀ (src : StdString) (c : UInt8), ∃ parts : List Bytes,
      split src [c] backInserter [] = .ok parts ∧ join parts [c] = src.bytes) ∧
    (∀ (parts : List Bytes) (c : UInt8) (joined : StdString), parts ≠ [] →
      (∀ part ∈ parts, c ∉ part) → joined.bytes = join parts [c] →
        split joined [c] backInserter [] = .ok parts) := by
  refine ⟨?_, ?_, ?_⟩
  · intro src symbols out
    refine ⟨_, by rw [split_eq, backInserter_foldl], splitOnP_length _ _, ?_,
      List.splitOnP_spec src.bytes⟩
    intro part hpart b hb hmem
    have hno := splitOnP_no_sep _ _ part hpart b hb
    rw [List.contains_iff_mem.mpr hmem] at hno
    exact absurd hno (by simp)
  · intro src c
    refine ⟨_, by rw [split_eq, backInserter_foldl], ?_⟩
    rw [List.nil_append, contains_singleton, join_eq]
    exact List.intercalate_splitOn c
  · intro parts c joined hne hno hjoined
    rw [split_eq, backInserter_foldl, List.nil_append, contains_singleton, hjoined, join_eq]
    exact congrArg Except.ok (List.splitOn_intercalate c hno hne)

/-- The parts of `.a.`, its separators at both ends. -/
def dotParts : List Bytes := [[], ascii "a", []]

theorem split_join_demo :
    split ⟨ascii ".a.", by decide⟩ [0x2e] backInserter [] = .ok dotParts :=
  split_join_inverse.2.2 dotParts 0x2e ⟨ascii ".a.", by decide⟩ (by decide) (by decide) (by decide)

end Cor.Split

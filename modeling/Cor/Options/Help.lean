import Mathlib.Data.List.Infix
import Cor.Lib.Group
import Cor.Options.Attached
import Cor.Options.Leftovers

/-!
# `show_help` against the keys that `parse` recognises

`parse` looks a key up in the map it belongs to. `show_help` goes the other way:
it groups the keys of both maps by their unified name, into one short and one
long key for each name, and writes one line for a name. A slot keeps the last key
put there, and a slot that holds the character NUL or the empty string is taken
for an empty one. So the help shows every key that `parse` recognises exactly
where no key that it recognises loses its slot (`help_covers_iff`).

The short options are run through in the order of `char`, signed or unsigned. A
stream is the text written to it.
-/

namespace Cor.Options

open Std (ExtTreeMap ExtTreeSet)

/-! ## What is written -/

/-- The keys under one unified name, a pair as in the source. -/
abbrev Grouped := ExtTreeMap Bytes (UInt8 × Bytes)

/-- The items of `short_opts_` in the order of its keys. -/
def OptParse.shortItems (p : OptParse) (signed : Bool) : List (UInt8 × Bytes) :=
  if signed then
    p.shortOpts.toList.filter (fun e => decide (0x80 ≤ e.1)) ++
      p.shortOpts.toList.filter (fun e => !decide (0x80 ≤ e.1))
  else p.shortOpts.toList

/-- `grouped[p.second].first = p.first`. -/
def putShort (c : UInt8) (sl : UInt8 × Bytes) : UInt8 × Bytes := (c, sl.2)

/-- `grouped[p.second].second = p.first`. -/
def putLong (key : Bytes) (sl : UInt8 × Bytes) : UInt8 × Bytes := (sl.1, key)

/-- `grouped` after the two loops that fill it. -/
def OptParse.grouped (p : OptParse) (signed : Bool) : Grouped :=
  let shorts := Lib.group putShort (0, []) (p.shortItems signed) ∅
  Lib.group putLong (0, []) p.longOpts.toList shorts

/-- `<name>` after the key of an option that takes a value. -/
def OptParse.placeholder (p : OptParse) (name : Bytes) : Bytes :=
  if p.optWithParams.contains name then ascii " <" ++ name ++ ascii ">" else []

/-- A line of the help: what stands in its two columns. -/
structure HelpLine where
  name : Bytes
  short : Bytes
  long : Bytes
deriving DecidableEq

def HelpLine.bytes (line : HelpLine) : Bytes :=
  ascii "\t" ++ line.short ++ ascii "\t" ++ line.long ++ ascii "\n"

def OptParse.helpLine (p : OptParse) (e : Bytes × UInt8 × Bytes) : HelpLine where
  name := e.1
  short := if e.2.1 ≠ 0 then ascii "-" ++ [e.2.1] ++ p.placeholder e.1 else []
  long := if e.2.2.length ≠ 0 then ascii "--" ++ e.2.2 ++ p.placeholder e.1 else []

def OptParse.helpLines (p : OptParse) (signed : Bool) : List HelpLine :=
  (p.grouped signed).toList.map p.helpLine

/-- What comes before the lines of the options. -/
def usage (program_name : CStr) (usage_str : Bytes) (show_usage : Bool) : Bytes :=
  if show_usage then
    if usage_str.length ≠ 0 then
      ascii "Usage: " ++ program_name.bytes ++ ascii " " ++ usage_str
    else
      ascii "Usage: " ++ program_name.bytes ++ ascii " [options]\n" ++
        ascii "\twhere [options] are:\n"
  else usage_str

/-- `show_help(out, program_name, usage_str, show_usage)`: the text it writes. -/
def OptParse.showHelp (p : OptParse) (signed : Bool) (program_name : CStr) (usage_str : Bytes)
    (show_usage : Bool) : Bytes :=
  usage program_name usage_str show_usage ++ (p.helpLines signed).flatMap HelpLine.bytes

/-! ## What is recognised, and what should be shown for it -/

/-- `parse` reads some argument as an option by this key, and `name` is under it. -/
def OptParse.Recognises (p : OptParse) (key : Key) (name : Bytes) : Prop :=
  ∃ s : CStr, keyOf s = some key ∧ p.reading s ≠ .param ∧ p.nameOf key = some name

/-- A key as it is spelled on a command line. -/
def Key.spelling : Key → Bytes
  | .short c => ascii "-" ++ [c]
  | .long key => ascii "--" ++ key

/-- The column of a line that a key belongs to. -/
def HelpLine.column (line : HelpLine) : Key → Bytes
  | .short _ => line.short
  | .long _ => line.long

/-- Every key that `parse` recognises has, whatever usage is shown, its place in
the text: the line of its unified name, where the column of the key reads as the
key is spelled, with the placeholder exactly when the name takes a value. -/
def OptParse.HelpCovers (p : OptParse) (signed : Bool) : Prop :=
  ∀ (key : Key) (name : Bytes), p.Recognises key name →
    ∀ (program_name : CStr) (usage_str : Bytes) (show_usage : Bool),
      ∃ line before after,
        line ∈ p.helpLines signed ∧ line.name = name ∧
        p.showHelp signed program_name usage_str show_usage = before ++ line.bytes ++ after ∧
        line.column key = key.spelling ++
          (if p.optWithParams.contains name then ascii " <" ++ name ++ ascii ">" else [])

/-- No recognised key loses its slot: no short key is NUL or shares its name with
another one, and a long key that an argument can spell is not empty and is the
last of the long keys with its name. -/
structure OptParse.SlotsSuffice (p : OptParse) : Prop where
  short : ∀ (c : UInt8) (name : Bytes), p.shortOpts[c]? = some name →
    c ≠ 0 ∧ ∀ c' : UInt8, p.shortOpts[c']? = some name → c' = c
  long : ∀ key name : Bytes, p.longOpts[key]? = some name → 0 ∉ key → 0x3d ∉ key →
    key ≠ [] ∧ ∀ key' : Bytes, p.longOpts[key']? = some name → (compare key' key).isLE = true

section Keys

variable {p : OptParse} {signed : Bool} {name : Bytes}

/-! ## The keys that arguments can spell -/

theorem reading_param_iff {s : CStr} : p.reading s = .param ↔ p.lookup s = none := by
  unfold OptParse.reading OptParse.lookup keyOf
  by_cases hdash : s.get 0 = 0x2d
  · rw [if_pos hdash, if_pos hdash]
    by_cases hlong : s.len > 2 ∧ s.get 1 = 0x2d
    · rw [if_pos hlong, if_pos hlong]
      show p.readLong s = .param ↔ p.longOpts[longKey s]? = none
      unfold OptParse.readLong
      cases hfound : p.longOpts[longKey s]? with
      | none => simp
      | some n =>
        cases hq : (s.drop 2).strchr 0x3d with
        | none => cases hw : p.optWithParams.contains n <;> simp [hw]
        | some q => cases hw : p.optWithParams.contains n <;> simp [hw]
    · rw [if_neg hlong, if_neg hlong]
      show p.readShort s = .param ↔ p.shortOpts[s.get 1]? = none
      unfold OptParse.readShort
      cases hfound : p.shortOpts[s.get 1]? with
      | none => simp
      | some n =>
        cases hw : p.optWithParams.contains n with
        | false => simp [hw]
        | true => by_cases hlen : s.len > 2 <;> simp [hw, hlen]
  · rw [if_neg hdash, if_neg hdash]
    simp

/-- A key that some argument is looked up by. -/
def Key.Spelled : Key → Prop
  | .short _ => True
  | .long key => 0 ∉ key ∧ 0x3d ∉ key

theorem keyOf_short {s : CStr} (hdash : s.get 0 = 0x2d) (hlen : s.len ≤ 2) :
    keyOf s = some (.short (s.get 1)) := by
  unfold keyOf
  rw [if_pos hdash, if_neg (fun hboth => absurd hboth.1 (by omega))]

theorem keyOf_long {s : CStr} (h₀ : s.get 0 = 0x2d) (h₁ : s.get 1 = 0x2d) (hlen : s.len > 2) :
    keyOf s = some (.long (longKey s)) := by
  unfold keyOf
  rw [if_pos h₀, if_pos ⟨hlen, h₁⟩]

/-- An argument that is looked up by the key: `-c`, which is `-` for the character
NUL, and `--key=`. -/
theorem exists_keyOf {key : Key} (hkey : key.Spelled) : ∃ s, keyOf s = some key := by
  cases key with
  | short c =>
    obtain ⟨h₀, h₁⟩ := shortArg_get c (cStr [])
    refine ⟨shortArg c (cStr []), ?_⟩
    have hlen : (shortArg c (cStr [])).len ≤ 2 := (List.takeWhile_sublist _).length_le
    rw [keyOf_short h₀ hlen, h₁]
  | long key =>
    obtain ⟨hnul, heq⟩ := hkey
    refine ⟨longArgEq ⟨key, hnul⟩ (cStr []), ?_⟩
    have hlen : (longArgEq ⟨key, hnul⟩ (cStr [])).len > 2 := by
      simp only [CStr.len, longArgEq, List.length_cons, List.length_append]
      omega
    rw [keyOf_long rfl rfl hlen]
    have htext : ((longArgEq ⟨key, hnul⟩ (cStr [])).drop 2).bytes = key ++ [0x3d] := by
      simp [longArgEq, cStr]
    rw [longKey, htext, List.takeWhile_append_of_pos (bytes_ne_eq heq)]
    simp

/-- The keys that arguments are looked up by. -/
theorem keyOf_spelled {s : CStr} {key : Key} (h : keyOf s = some key) : key.Spelled := by
  unfold keyOf at h
  split at h
  next hdash =>
    split at h
    next hlong =>
      obtain rfl := Option.some.inj h
      refine ⟨?_, ?_⟩
      · intro hmem
        exact (s.drop 2).noNul ((List.takeWhile_sublist _).subset hmem)
      · intro hmem
        have hall := List.all_eq_true.mp (List.all_takeWhile (l := (s.drop 2).bytes)
          (p := (· != 0x3d))) _ hmem
        exact absurd hall (by decide)
    next hshort =>
      obtain rfl := Option.some.inj h
      trivial
  next hplain => exact absurd h (by simp)

theorem recognises_iff {key : Key} :
    p.Recognises key name ↔ p.nameOf key = some name ∧ key.Spelled := by
  constructor
  · intro h
    obtain ⟨s, hkey, -, hname⟩ := h
    exact ⟨hname, keyOf_spelled hkey⟩
  · intro h
    obtain ⟨hname, hspelled⟩ := h
    obtain ⟨s, hkey⟩ := exists_keyOf hspelled
    refine ⟨s, hkey, ?_, hname⟩
    rw [ne_eq, reading_param_iff, OptParse.lookup, hkey]
    simp [hname]

/-! ## The slots of a name -/

theorem mem_shortItems {c : UInt8} :
    (c, name) ∈ p.shortItems signed ↔ p.shortOpts[c]? = some name := by
  unfold OptParse.shortItems
  cases signed with
  | false => simp
  | true =>
    by_cases hc : 0x80 ≤ c
    · simp [hc]
    · simp [hc]

/-- The entry of a name holds its last short and its last long key. -/
theorem grouped_getElem? (p : OptParse) (signed : Bool) (name : Bytes) :
    (p.grouped signed)[name]? =
      match Lib.lastOf name (p.shortItems signed), Lib.lastOf name p.longOpts.toList with
      | none, none => none
      | c, key => some (c.getD 0, key.getD []) := by
  have hshort : ∀ (c c' : UInt8) sl, putShort c (putShort c' sl) = putShort c sl :=
    fun _ _ _ => rfl
  have hlong : ∀ (key key' : Bytes) sl, putLong key (putLong key' sl) = putLong key sl :=
    fun _ _ _ => rfl
  show (Lib.group putLong (0, []) p.longOpts.toList _)[name]? = _
  rw [Lib.getElem?_group hlong, Lib.getElem?_group hshort]
  cases Lib.lastOf name (p.shortItems signed) with
  | none => cases Lib.lastOf name p.longOpts.toList <;> simp [putLong]
  | some c => cases Lib.lastOf name p.longOpts.toList <;> simp [putShort, putLong]

/-- The short slot of a name with a short key is one of its short keys. -/
theorem slot_short (signed : Bool) {c : UInt8} (h : p.shortOpts[c]? = some name) :
    ∃ c' key, (p.grouped signed)[name]? = some (c', key) ∧ p.shortOpts[c']? = some name := by
  obtain ⟨c', hlast⟩ := Lib.lastOf_isSome (mem_shortItems.mpr h)
  refine ⟨c', (Lib.lastOf name p.longOpts.toList).getD [], ?_, ?_⟩
  · rw [grouped_getElem?, hlast]
    rfl
  · exact mem_shortItems.mp (Lib.mem_of_lastOf hlast)

/-- The long slot of a name with a long key is the greatest of its long keys. -/
theorem slot_long (signed : Bool) {key : Bytes} (h : p.longOpts[key]? = some name) :
    ∃ c key', (p.grouped signed)[name]? = some (c, key') ∧ p.longOpts[key']? = some name ∧
      ∀ k, p.longOpts[k]? = some name → k = key' ∨ compare k key' = .lt := by
  obtain ⟨key', hlast⟩ := Lib.lastOf_isSome (ExtTreeMap.mem_toList_iff_getElem?_eq_some.mpr h)
  refine ⟨(Lib.lastOf name (p.shortItems signed)).getD 0, key', ?_, ?_, ?_⟩
  · rw [grouped_getElem?, hlast]
    cases Lib.lastOf name (p.shortItems signed) <;> rfl
  · exact ExtTreeMap.mem_toList_iff_getElem?_eq_some.mp (Lib.mem_of_lastOf hlast)
  · intro k hk
    have hsorted : p.longOpts.toList.Pairwise fun e e' => compare e.1 e'.1 = .lt :=
      ExtTreeMap.ordered_keys_toList
    exact Lib.lastOf_greatest (r := fun key key' => compare key key' = .lt) hsorted hlast
      (ExtTreeMap.mem_toList_iff_getElem?_eq_some.mpr hk)

/-! ## What the line of a name shows -/

theorem mem_helpLines {line : HelpLine} :
    line ∈ p.helpLines signed ↔
      ∃ c key, (p.grouped signed)[line.name]? = some (c, key) ∧
        line = p.helpLine (line.name, c, key) := by
  unfold OptParse.helpLines
  constructor
  · intro h
    obtain ⟨⟨n, c, key⟩, hmem, rfl⟩ := List.mem_map.mp h
    exact ⟨c, key, ExtTreeMap.mem_toList_iff_getElem?_eq_some.mp hmem, rfl⟩
  · intro h
    obtain ⟨c, key, hslot, hline⟩ := h
    rw [hline]
    exact List.mem_map_of_mem (ExtTreeMap.mem_toList_iff_getElem?_eq_some.mpr hslot)

/-- A line stands in the text between the lines before it and those after it. -/
theorem showHelp_line {line : HelpLine} (h : line ∈ p.helpLines signed) (program_name : CStr)
    (usage_str : Bytes) (show_usage : Bool) :
    ∃ before after,
      p.showHelp signed program_name usage_str show_usage = before ++ line.bytes ++ after := by
  obtain ⟨before, after, hsplit⟩ := List.append_of_mem h
  refine ⟨usage program_name usage_str show_usage ++ before.flatMap HelpLine.bytes,
    after.flatMap HelpLine.bytes, ?_⟩
  unfold OptParse.showHelp
  rw [hsplit]
  simp

/-- A column that is not empty shows what is in the slot. -/
theorem column_iff {filled : Prop} [Decidable filled] {dashes text text' rest : Bytes}
    (hdashes : dashes ≠ []) :
    (if filled then dashes ++ text' ++ rest else []) = dashes ++ text ++ rest ↔
      filled ∧ text' = text := by
  by_cases hfilled : filled
  · rw [if_pos hfilled]
    constructor
    · intro heq
      exact ⟨hfilled, List.append_cancel_left (List.append_cancel_right heq)⟩
    · intro h
      rw [h.2]
  · rw [if_neg hfilled]
    constructor
    · intro heq
      exact absurd heq.symm (by simp [hdashes])
    · intro h
      exact absurd h.1 hfilled

/-- The short column shows the key in the slot, if that is no NUL. -/
theorem column_short {c c' : UInt8} {key : Bytes} :
    (p.helpLine (name, c', key)).column (.short c) =
        (Key.short c).spelling ++ p.placeholder name ↔ c' = c ∧ c ≠ 0 := by
  show (if c' ≠ 0 then ascii "-" ++ [c'] ++ p.placeholder name else []) =
    ascii "-" ++ [c] ++ p.placeholder name ↔ _
  rw [column_iff (by decide)]
  constructor
  · intro h
    obtain rfl := (List.cons.inj h.2).1
    exact ⟨rfl, h.1⟩
  · intro h
    rw [h.1]
    exact ⟨h.2, rfl⟩

/-- The long column shows the key in the slot, if that is not empty. -/
theorem column_long {c : UInt8} {key key' : Bytes} :
    (p.helpLine (name, c, key')).column (.long key) =
        (Key.long key).spelling ++ p.placeholder name ↔ key' = key ∧ key ≠ [] := by
  show (if key'.length ≠ 0 then ascii "--" ++ key' ++ p.placeholder name else []) =
    ascii "--" ++ key ++ p.placeholder name ↔ _
  rw [column_iff (by decide), ne_eq, List.length_eq_zero_iff]
  constructor
  · intro h
    obtain ⟨hne, rfl⟩ := h
    exact ⟨rfl, hne⟩
  · intro h
    rw [h.1]
    exact ⟨h.2, rfl⟩

/-- What it takes for a recognised key to be shown: it is the one in its slot. -/
theorem shown_of_slot {key : Key} {c : UInt8} {k : Bytes}
    (hslot : (p.grouped signed)[name]? = some (c, k))
    (hcolumn : (p.helpLine (name, c, k)).column key = key.spelling ++ p.placeholder name)
    (program_name : CStr) (usage_str : Bytes) (show_usage : Bool) :
    ∃ line before after,
      line ∈ p.helpLines signed ∧ line.name = name ∧
      p.showHelp signed program_name usage_str show_usage = before ++ line.bytes ++ after ∧
      line.column key = key.spelling ++ p.placeholder name := by
  have hmem : p.helpLine (name, c, k) ∈ p.helpLines signed :=
    mem_helpLines.mpr ⟨c, k, hslot, rfl⟩
  obtain ⟨before, after, htext⟩ := showHelp_line hmem program_name usage_str show_usage
  exact ⟨_, before, after, hmem, rfl, htext, hcolumn⟩

theorem slot_of_shown (hcovers : p.HelpCovers signed) (key : Key)
    (hname : p.nameOf key = some name) (hspelled : key.Spelled) :
    ∃ c k, (p.grouped signed)[name]? = some (c, k) ∧
      (p.helpLine (name, c, k)).column key = key.spelling ++ p.placeholder name := by
  obtain ⟨line, before, after, hmem, rfl, -, hcolumn⟩ :=
    hcovers key name (recognises_iff.mpr ⟨hname, hspelled⟩) (cStr []) [] false
  obtain ⟨c, k, hslot, hline⟩ := mem_helpLines.mp hmem
  refine ⟨c, k, hslot, ?_⟩
  rw [← hline]
  exact hcolumn

/-- **The help covers every recognised key** exactly when no recognised key loses
its slot. -/
theorem help_covers_iff (p : OptParse) (signed : Bool) :
    p.HelpCovers signed ↔ p.SlotsSuffice := by
  constructor
  · intro hcovers
    refine ⟨?_, ?_⟩
    · intro c name hc
      obtain ⟨c₀, k, hslot, hcolumn⟩ := slot_of_shown hcovers (.short c) hc trivial
      obtain ⟨rfl, hnz⟩ := column_short.mp hcolumn
      refine ⟨hnz, ?_⟩
      intro c' hc'
      obtain ⟨c₁, k₁, hslot', hcolumn'⟩ := slot_of_shown hcovers (.short c') hc' trivial
      obtain ⟨rfl, -⟩ := column_short.mp hcolumn'
      rw [hslot] at hslot'
      exact ((Prod.mk.inj (Option.some.inj hslot')).1).symm
    · intro key name hkey hnul heq
      obtain ⟨c, k, hslot, hcolumn⟩ := slot_of_shown hcovers (.long key) hkey ⟨hnul, heq⟩
      obtain ⟨rfl, hne⟩ := column_long.mp hcolumn
      refine ⟨hne, ?_⟩
      intro key' hkey'
      obtain ⟨c₀, k₀, hslot', -, hgreatest⟩ := slot_long signed hkey
      rw [hslot] at hslot'
      obtain ⟨-, rfl⟩ := Prod.mk.inj (Option.some.inj hslot')
      rcases hgreatest key' hkey' with rfl | hlt
      · exact Std.ReflOrd.isLE_rfl
      · rw [hlt]
        rfl
  · intro hslots key name hrec program_name usage_str show_usage
    obtain ⟨hname, hspelled⟩ := recognises_iff.mp hrec
    cases key with
    | short c =>
      obtain ⟨c', k, hslot, hc'⟩ := slot_short signed hname
      obtain ⟨hnz, hunique⟩ := hslots.short c name hname
      exact shown_of_slot hslot (column_short.mpr ⟨hunique c' hc', hnz⟩) _ _ _
    | long key =>
      obtain ⟨c, k, hslot, hk, hgreatest⟩ := slot_long signed hname
      obtain ⟨hne, hlast⟩ := hslots.long key name hname hspelled.1 hspelled.2
      have hkey : k = key := by
        rcases hgreatest key hname with heq | hlt
        · exact heq.symm
        · have hle := hlast k hk
          have hgt : compare k key = .gt := Std.OrientedCmp.gt_of_lt hlt
          rw [hgt] at hle
          exact absurd hle (by decide)
      exact shown_of_slot hslot (column_long.mpr ⟨hkey, hne⟩) _ _ _

/-- `-a` and `-b` for one option. -/
def sharedName : OptParse :=
  .mkOptParse [(0x61, ascii "x"), (0x62, ascii "x")] [] [] []

def programName : CStr := cStr (ascii "prog")

/-- The help for two short keys of one name does not show the first. -/
theorem help_omits_key :
    (sharedName.parse [cStr (ascii "-a")] ∅ []).1 = .ok 0 ∧
    (sharedName.parse [cStr (ascii "-a")] ∅ []).2.1.toList = [(ascii "x", [])] ∧
    (sharedName.parse [cStr (ascii "-a")] ∅ []).2.2 = [] ∧
    sharedName.showHelp true programName [] true =
      ascii "Usage: prog [options]\n\twhere [options] are:\n\t-b\t\n" ∧
    ¬ ascii "-a" <:+: sharedName.showHelp true programName [] true ∧
    ¬ sharedName.HelpCovers true := by
  have htext : sharedName.showHelp true programName [] true =
      ascii "Usage: prog [options]\n\twhere [options] are:\n\t-b\t\n" := by rfl
  refine ⟨by rfl, by rfl, by rfl, htext, ?_, ?_⟩
  · rw [htext]
    decide
  · intro hcovers
    have hrec : sharedName.Recognises (.short 0x61) (ascii "x") :=
      recognises_iff.mpr ⟨by rfl, trivial⟩
    obtain ⟨line, before, after, hmem, -, -, hcolumn⟩ := hcovers _ _ hrec programName [] true
    have hlines : sharedName.helpLines true = [⟨ascii "x", ascii "-b", []⟩] := by rfl
    rw [hlines] at hmem
    obtain rfl := List.mem_singleton.mp hmem
    exact absurd hcolumn (by decide)

end Keys

end Cor.Options

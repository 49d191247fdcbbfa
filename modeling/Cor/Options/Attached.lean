import Mathlib.Data.List.TakeWhile
import Cor.Options.Reading

/-!
# Text attached to a flag

`parse_long` throws when a flag comes as `--L=t`. `parse_short` has the same
decision to make for `-ct` and only asks whether the option takes a value: it sets
the flag and drops the text. `refused_alike_iff` says where the difference shows
in a whole command line.

It does not show where the command line is refused for another reason, and with
the short key `-` the argument `-ct` is read as the long option `--t`.
-/

namespace Cor.Options

open Std (ExtTreeMap ExtTreeSet)

/-- The argument `-ct`. -/
def shortArg (c : UInt8) (t : CStr) : CStr := cStr (0x2d :: c :: t.bytes)

/-- The key is one of a flag. -/
def OptParse.flagKey (p : OptParse) (key : Bytes) : Bool :=
  (p.longOpts[key]?).any fun name => !p.optWithParams.contains name

/-- The first argument that is not empty begins with `-`. -/
def dashFirst (argv : List CStr) : Bool := (nonempty argv).head?.any fun v => v.get 0 == 0x2d

/-- A command line with `-ct` is refused if the one with `--L=t` in its place is. -/
def RefusedAlike (p : OptParse) (c : UInt8) (key t : CStr) (pre post : List CStr) (opts : Map)
    (params : List CStr) : Prop :=
  (p.parse (pre ++ [longArgEq key t] ++ post) opts params).1.isOk = false →
    (p.parse (pre ++ [shortArg c t] ++ post) opts params).1.isOk = false

section Attached

variable {p : OptParse}

/-! ## The two arguments -/

/-- No byte after the option character is NUL. -/
theorem shortArg_bytes {c : UInt8} (hc : c ≠ 0) (t : CStr) :
    (shortArg c t).bytes = 0x2d :: c :: t.bytes := by
  have hall : ∀ b ∈ t.bytes, (b != 0) = true := by
    intro b hb
    rw [bne_iff_ne]
    rintro rfl
    exact t.noNul hb
  have happ := @List.takeWhile_append_of_pos _ (· != 0) t.bytes [] hall
  rw [List.append_nil] at happ
  show (0x2d :: c :: t.bytes).takeWhile (· != 0) = _
  rw [List.takeWhile_cons_of_pos (by decide), List.takeWhile_cons_of_pos (by simpa using hc), happ]
  simp

theorem shortArg_get (c : UInt8) (t : CStr) : (shortArg c t).get 0 = 0x2d ∧
    (shortArg c t).get 1 = c := by
  by_cases hc : c = 0
  · subst hc
    exact ⟨rfl, rfl⟩
  · unfold CStr.get
    rw [shortArg_bytes hc]
    exact ⟨rfl, rfl⟩

theorem bytes_ne_nil {s : CStr} (hdash : s.get 0 = 0x2d) : s.bytes ≠ [] := by
  intro hs
  rw [CStr.get, hs] at hdash
  exact absurd hdash (by decide)

/-- A flag is a flag whatever is attached to it. -/
theorem reading_shortArg {c : UInt8} {name : Bytes} (hc : c ≠ 0x2d)
    (hshort : p.shortOpts[c]? = some name) (hw : p.optWithParams.contains name = false) (t : CStr) :
    p.reading (shortArg c t) = .flag name := by
  obtain ⟨h0, h1⟩ := shortArg_get c t
  unfold OptParse.reading OptParse.readShort
  rw [if_pos h0, h1, if_neg fun hboth => hc hboth.2, hshort]
  simp [hw]

/-- `--L=t` is refused when the key found in it is a flag's, and is complete otherwise. -/
theorem next_longArgEq (key t : CStr) :
    p.next .option (longArgEq key t) =
      if p.flagKey (longKey (longArgEq key t)) then none else some .option := by
  have h0 : (longArgEq key t).get 0 = 0x2d := rfl
  have hlen : (longArgEq key t).len > 2 := by
    show 2 < (0x2d :: 0x2d :: (key.bytes ++ 0x3d :: t.bytes)).length
    simp only [List.length_cons, List.length_append]
    omega
  have hread : p.reading (longArgEq key t) = p.readLong (longArgEq key t) := by
    unfold OptParse.reading
    rw [if_pos h0, if_pos ⟨hlen, rfl⟩]
  unfold OptParse.next
  rw [if_neg (by simpa using bytes_ne_nil h0)]
  dsimp only
  rw [hread]
  unfold OptParse.readLong OptParse.flagKey
  cases hlong : p.longOpts[longKey (longArgEq key t)]? with
  | none => rfl
  | some name =>
    cases hq : ((longArgEq key t).drop 2).strchr 0x3d with
    | none =>
      have hdrop := CStr.strchr_eq_none hq
      have hmem : (0x3d : UInt8) ∈ ((longArgEq key t).drop 2).bytes := by
        show (0x3d : UInt8) ∈ key.bytes ++ 0x3d :: t.bytes
        simp
      have hall := List.dropWhile_eq_nil_iff.mp hdrop _ hmem
      exact absurd hall (by decide)
    | some q => cases hw : p.optWithParams.contains name <;> simp [hw]

theorem next_dash {s : CStr} (hdash : s.get 0 = 0x2d) : p.next .optParam s = none := by
  unfold OptParse.next
  rw [if_neg (by simpa using bytes_ne_nil hdash)]
  exact if_pos hdash

/-! ## Whole command lines -/

/-- A scanner that waits for a value refuses what the option stage refuses, and an
argument that looks like an option. -/
theorem scan_optParam (post : List CStr) :
    p.scan .optParam post = none ↔ p.scan .option post = none ∨ dashFirst post = true := by
  induction post with
  | nil => simp [OptParse.scan, dashFirst, nonempty]
  | cons s post ih =>
    unfold OptParse.scan
    by_cases hs : s.bytes = []
    · have hskip : ∀ stage, p.next stage s = some stage := by
        intro stage
        unfold OptParse.next
        rw [if_pos (by simp [hs])]
      rw [hskip, hskip]
      have hfirst : dashFirst (s :: post) = dashFirst post := by
        unfold dashFirst
        rw [nonempty_cons, if_pos (by simp [hs]), List.nil_append]
      rw [hfirst]
      exact ih
    · have hfirst : dashFirst (s :: post) = (s.get 0 == 0x2d) := by
        unfold dashFirst
        rw [nonempty_cons, if_neg (by simp [hs])]
        rfl
      rw [hfirst]
      by_cases hdash : s.get 0 = 0x2d
      · rw [next_dash hdash]
        simp [hdash]
      · have hnext : ∀ stage, p.next stage s = some .option := by
          intro stage
          unfold OptParse.next
          rw [if_neg (by simp [hs])]
          cases stage with
          | option =>
            unfold OptParse.reading
            rw [if_neg hdash]
          | optParam => exact if_neg hdash
        rw [hnext, hnext]
        simp [hdash]

theorem parse_refused (argv : List CStr) (opts : Map) (params : List CStr) :
    (p.parse argv opts params).1.isOk = false ↔ p.scan .option argv = none := by
  rw [parse_isOk]
  cases p.scan .option argv <;> simp

/-- A command line around one argument, reached in the option stage. -/
theorem scan_around {pre post : List CStr} (hpre : p.scan .option pre = some .option) (s : CStr) :
    p.scan .option (pre ++ [s] ++ post) =
      (p.next .option s).bind fun stage => p.scan stage post := by
  rw [List.append_assoc, scan_append, hpre]
  rfl

/-- A command line with an argument that looks like an option is refused if the arguments
before it are, or leave an option waiting. -/
theorem scan_early {pre post : List CStr} (hpre : p.scan .option pre ≠ some .option) {s : CStr}
    (hdash : s.get 0 = 0x2d) : p.scan .option (pre ++ [s] ++ post) = none := by
  rw [List.append_assoc, scan_append]
  cases h : p.scan .option pre with
  | none => rfl
  | some stage =>
    cases stage with
    | option => exact absurd h hpre
    | optParam =>
      show (p.next .optParam s).bind _ = none
      rw [next_dash hdash]
      rfl

/-- Where `parse` accepts `-ct` and refuses `--L=t`: the arguments before are complete and
those after are no reason to refuse, the key in `L=t` is a flag's, and where `-ct` is read
as the long option `--t` that is complete too, or waits for a value and finds one. -/
structure Slips (p : OptParse) (c : UInt8) (key t : CStr) (pre post : List CStr) : Prop where
  before : p.scan .option pre = some .option
  after : p.scan .option post ≠ none
  long : p.flagKey (longKey (longArgEq key t)) = true
  short : c = 0x2d → p.next .option (shortArg c t) = some .option ∨
    p.next .option (shortArg c t) = some .optParam ∧ dashFirst post = false

/-- What `-ct` does where the arguments around it are no reason to refuse. -/
theorem next_shortArg {c : UInt8} {name : Bytes} (hshort : p.shortOpts[c]? = some name)
    (hw : p.optWithParams.contains name = false) (t : CStr) {post : List CStr}
    (hpost : p.scan .option post ≠ none) :
    ((p.next .option (shortArg c t)).bind fun stage => p.scan stage post) ≠ none ↔
      (c = 0x2d → p.next .option (shortArg c t) = some .option ∨
        p.next .option (shortArg c t) = some .optParam ∧ dashFirst post = false) := by
  have hwait := scan_optParam (p := p) post
  by_cases hc : c = 0x2d
  · cases hnext : p.next .option (shortArg c t) with
    | none => simp [hc]
    | some stage =>
      cases stage with
      | option => simp [hpost]
      | optParam =>
        simp only [Option.bind_some, ne_eq, hwait, hpost, false_or, hc]
        simp
  · have hnext : p.next .option (shortArg c t) = some .option := by
      unfold OptParse.next
      rw [if_neg (by simpa using bytes_ne_nil (shortArg_get c t).1)]
      dsimp only
      rw [reading_shortArg hc hshort hw]
    simp [hnext, hpost]

/-- What refuses the arguments after an option refuses them after any argument. -/
theorem scan_none {post : List CStr} (hpost : p.scan .option post = none) (next : Option Stage) :
    (next.bind fun stage => p.scan stage post) = none := by
  cases next with
  | none => rfl
  | some stage =>
    cases stage with
    | option => exact hpost
    | optParam => exact (scan_optParam post).mpr (.inl hpost)

/-- **Attached text is treated alike** by the two spellings of a flag, whichever command
line they stand in, unless the command line slips. -/
theorem refused_alike_iff {c : UInt8} {key t : CStr} {name : Bytes}
    (hshort : p.shortOpts[c]? = some name) (hw : p.optWithParams.contains name = false)
    (pre post : List CStr) (opts : Map) (params : List CStr) :
    RefusedAlike p c key t pre post opts params ↔ ¬ Slips p c key t pre post := by
  unfold RefusedAlike
  rw [parse_refused, parse_refused]
  by_cases hpre : p.scan .option pre = some .option
  · rw [scan_around hpre, scan_around hpre, next_longArgEq]
    by_cases hpost : p.scan .option post = none
    · constructor
      · intro _ hslips
        exact hslips.after hpost
      · intro _ _
        exact scan_none hpost _
    · have hnext := next_shortArg hshort hw t hpost
      by_cases hkey : p.flagKey (longKey (longArgEq key t)) = true
      · rw [if_pos hkey]
        constructor
        · intro hrefused hslips
          exact hnext.mpr hslips.short (hrefused rfl)
        · intro hslips _
          by_contra haccepted
          exact hslips ⟨hpre, hpost, hkey, hnext.mp haccepted⟩
      · rw [if_neg hkey]
        constructor
        · intro _ hslips
          exact hkey hslips.long
        · intro _ hrefused
          exact absurd hrefused hpost
  · constructor
    · intro _ hslips
      exact hpre hslips.before
    · intro _ _
      exact scan_early hpre (shortArg_get c t).1

/-- `-v` and `--verbose` are one flag. -/
def flagParse : OptParse :=
  .mkOptParse [(0x76, ascii "verbose")] [(ascii "verbose", ascii "verbose")] [] []

/-- `--verbose=1` is refused, `-v1` is accepted, and the `1` is nowhere. -/
theorem attached_text_dropped :
    flagParse.shortOpts[(0x76 : UInt8)]? = some (ascii "verbose") ∧
    flagParse.longOpts[(cStr (ascii "verbose")).bytes]? = some (ascii "verbose") ∧
    flagParse.optWithParams.contains (ascii "verbose") = false ∧
    ¬ RefusedAlike flagParse 0x76 (cStr (ascii "verbose")) (cStr (ascii "1")) [] [] ∅ [] ∧
    ∃ opts, flagParse.parse [shortArg 0x76 (cStr (ascii "1"))] ∅ [] = (.ok 0, opts, []) ∧
      opts.toList = [(ascii "verbose", [])] := by
  refine ⟨by decide, by decide, by decide, ?_, _, rfl, by decide +kernel⟩
  intro halike
  have hrefused := halike (by decide +kernel)
  exact absurd hrefused (by decide +kernel)

/-- After `--verbose=2` the command line is refused either way. -/
theorem refused_alike_demo :
    RefusedAlike flagParse 0x76 (cStr (ascii "verbose")) (cStr (ascii "1"))
      [cStr (ascii "--verbose=2")] [] ∅ [] := by
  refine (@refused_alike_iff flagParse 0x76 _ _ (ascii "verbose") (by decide) (by decide) _ _ _
    _).mpr fun hslips => ?_
  exact absurd hslips.before (by decide)

end Attached

end Cor.Options

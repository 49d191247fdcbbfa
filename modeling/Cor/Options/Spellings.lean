import Mathlib.Data.List.Basic
import Cor.Options.Leave

/-!
# The two spellings of a long option's value

`--L v` goes through `parse_long` and then, one argument later and in the other
stage of the scanner, through `parse_opt_param`; `--L=v` goes through `parse_long`
alone. From the option stage both bring the scanner into the same state
(`process_longArg` and `process_value`, `process_longArgEq`), so whatever comes
after them sees no difference (`spellings_agree`).

Two guards keep this from holding for every value and every key. An empty
argument is skipped before any stage looks at it, so `--L ''` still waits for its
value where `--L=` has the empty one. And `--` alone is too short for a long
option, where `--=v` gives a value to the empty key.
-/

namespace Cor.Options

open Std (ExtTreeMap ExtTreeSet)

/-- The argument `--L`. -/
def longArg (key : CStr) : CStr where
  bytes := 0x2d :: 0x2d :: key.bytes
  noNul := by
    intro hmem
    rcases List.mem_cons.mp hmem with h | h
    · exact absurd h (by decide)
    · rcases List.mem_cons.mp h with h | h
      · exact absurd h (by decide)
      · exact key.noNul h

/-- The argument `--L=v`. -/
def longArgEq (key v : CStr) : CStr where
  bytes := 0x2d :: 0x2d :: (key.bytes ++ 0x3d :: v.bytes)
  noNul := by
    intro hmem
    rcases List.mem_cons.mp hmem with h | h
    · exact absurd h (by decide)
    · rcases List.mem_cons.mp h with h | h
      · exact absurd h (by decide)
      · rcases List.mem_append.mp h with h | h
        · exact key.noNul h
        · rcases List.mem_cons.mp h with h | h
          · exact absurd h (by decide)
          · exact v.noNul h

/-- The scanner before the first argument. -/
def State.start (opts : Map) (params : List CStr) : State := ⟨opts, params, .option, [], false⟩

/-- Scanning the arguments does not end with an option waiting for its value. -/
def OptParse.Settled (p : OptParse) (argv : List CStr) (opts : Map) (params : List CStr) : Prop :=
  ∀ st, forEach p argv (.start opts params) = .ok () st → st.stage = .option

section Spell

variable {p : OptParse}

theorem forEach_append (pre post : List CStr) :
    forEach p (pre ++ post) = forEach p pre >>= fun _ => forEach p post := by
  induction pre with
  | nil => exact (pure_bind () fun _ => forEach p post).symm
  | cons v pre ih =>
    show (process p v >>= fun _ => forEach p (pre ++ post)) = _
    rw [ih]
    exact (bind_assoc (process p v) (fun _ => forEach p pre) fun _ => forEach p post).symm

/-- The search for `=` runs over the whole of a key that has none. -/
theorem bytes_ne_eq {bs : Bytes} (hbs : 0x3d ∉ bs) : ∀ b ∈ bs, (b != 0x3d) = true := by
  intro b hb
  rw [bne_iff_ne]
  rintro rfl
  exact hbs hb

/-- Without `=` in it the whole text after `--` is the key. -/
theorem strchr_absent {s : CStr} (hs : 0x3d ∉ s.bytes) : s.strchr 0x3d = none := by
  have hdrop : s.bytes.dropWhile (· != 0x3d) = [] := by
    have happ := @List.dropWhile_append_of_pos _ (· != 0x3d) s.bytes [] (bytes_ne_eq hs)
    rwa [List.append_nil] at happ
  unfold CStr.strchr
  split
  · rfl
  next b bs hd => exact absurd (hdrop.symm.trans hd) (by simp)

/-- The `=` found is the one after the key. -/
theorem strchr_key {s key v : CStr} (hkey : 0x3d ∉ key.bytes)
    (hs : s.bytes = key.bytes ++ 0x3d :: v.bytes) :
    ∃ q : CStr, s.strchr 0x3d = some q ∧ q.bytes = 0x3d :: v.bytes := by
  have hdrop : s.bytes.dropWhile (· != 0x3d) = 0x3d :: v.bytes := by
    rw [hs, List.dropWhile_append_of_pos (bytes_ne_eq hkey)]
    rfl
  unfold CStr.strchr
  split
  next hd => exact absurd (hdrop.symm.trans hd) (by simp)
  next b bs hd => exact ⟨_, rfl, hd.symm.trans hdrop⟩

/-! ## Each spelling from the option stage -/

/-- The scanner after an option has got its value. -/
def State.given (st : State) (name : Bytes) (v : CStr) : State :=
  { st with opts := updated st.opts name v.bytes, name := name, isLeaveParam := false }

/-- An argument of more than two characters that starts with `--` is a long option. -/
theorem process_long {s : CStr} {text : Bytes} (hs : s.bytes = 0x2d :: 0x2d :: text)
    (htext : text ≠ []) {st : State} (hst : st.stage = .option) :
    process p s st = parseLong p s st := by
  have hlen : s.len > 2 := by
    rw [CStr.len, hs, List.length_cons, List.length_cons]
    have := List.length_pos_iff.mpr htext
    omega
  have h0 : s.get 0 = 0x2d := by rw [CStr.get, hs]; rfl
  have h1 : s.get 1 = 0x2d := by rw [CStr.get, hs]; rfl
  rw [process_eq_option (by rw [hs]; simp) hst]
  unfold parseOption
  rw [if_pos h0, if_pos ⟨hlen, h1⟩]

section Values

variable {key v : CStr} {name : Bytes} {st : State}

/-- `--L` makes the scanner wait for the value. -/
theorem process_longArg (hleave : p.leaveInParams = ∅) (hlong : p.longOpts[key.bytes]? = some name)
    (htakes : p.optWithParams.contains name = true) (hkey : 0x3d ∉ key.bytes)
    (hne : key.bytes ≠ []) (hst : st.stage = .option) :
    process p (longArg key) st =
      .ok () { st with name := name, isLeaveParam := false, stage := .optParam } := by
  have hdrop : (longArg key).drop 2 = key := rfl
  rw [process_long rfl hne hst]
  unfold parseLong
  simp only [hdrop, strchr_absent hkey, hlong, hleave, htakes]
  rfl

/-- The next argument is the value. -/
theorem process_value (hv : v.bytes ≠ []) (hdash : v.get 0 ≠ 0x2d) :
    process p v { st with name := name, isLeaveParam := false, stage := .optParam } =
      .ok () { st.given name v with stage := .option } := by
  rw [process_eq_optParam hv rfl]
  unfold parseOptParam
  rw [if_neg fun hboth => hdash hboth.2]
  rfl

/-- `--L=v` gives the value at once. -/
theorem process_longArgEq (hleave : p.leaveInParams = ∅)
    (hlong : p.longOpts[key.bytes]? = some name) (htakes : p.optWithParams.contains name = true)
    (hkey : 0x3d ∉ key.bytes) (hst : st.stage = .option) :
    process p (longArgEq key v) st = .ok () (st.given name v) := by
  obtain ⟨q, hq, hqb⟩ := @strchr_key ((longArgEq key v).drop 2) key v hkey rfl
  obtain ⟨-, htake, -⟩ := CStr.strchr_eq_some hq
  have hname : ((longArgEq key v).drop 2).bytes.take
      (((longArgEq key v).drop 2).len - q.len) = key.bytes := by
    rw [htake]
    show (key.bytes ++ 0x3d :: v.bytes).takeWhile (· != 0x3d) = key.bytes
    rw [List.takeWhile_append_of_pos (bytes_ne_eq hkey)]
    exact List.append_nil _
  have hvalue : (q.drop 1).bytes = v.bytes := by
    rw [CStr.drop_bytes, hqb]
    rfl
  rw [process_long rfl (by simp) hst]
  unfold parseLong
  simp only [hq, hname, hlong, hleave, htakes, hvalue]
  rfl

end Values

/-- **The two spellings agree.** With no option left among the parameters, and
for a key and a value that are not empty, a command line in which a long option
gets its value from the next argument is parsed like the one that attaches it. -/
theorem spellings_agree (hleave : p.leaveInParams = ∅) {key v : CStr} {name : Bytes}
    (hlong : p.longOpts[key.bytes]? = some name) (htakes : p.optWithParams.contains name = true)
    (hkey : 0x3d ∉ key.bytes) (hne : key.bytes ≠ []) (hv : v.bytes ≠ []) (hdash : v.get 0 ≠ 0x2d)
    {opts : Map} {params pre : List CStr} (hpre : p.Settled pre opts params) (post : List CStr) :
    p.parse (pre ++ [longArg key, v] ++ post) opts params =
      p.parse (pre ++ [longArgEq key v] ++ post) opts params := by
  have hrest : ∀ st : State, st.stage = .option →
      forEach p (longArg key :: v :: post) st = forEach p (longArgEq key v :: post) st := by
    intro st hst
    have hgiven : { st.given name v with stage := .option } = st.given name v := by
      rw [State.given, ← hst]
    show EStateM.bind (process p (longArg key)) (fun _ =>
      process p v >>= fun _ => forEach p post) st =
        EStateM.bind (process p (longArgEq key v)) (fun _ => forEach p post) st
    rw [EStateM.bind, EStateM.bind, process_longArg hleave hlong htakes hkey hne hst,
      process_longArgEq hleave hlong htakes hkey hst]
    show EStateM.bind (process p v) (fun _ => forEach p post) _ = _
    rw [EStateM.bind, process_value hv hdash, hgiven]
  have hrun : (forEach p (pre ++ [longArg key, v] ++ post)).run (.start opts params) =
      (forEach p (pre ++ [longArgEq key v] ++ post)).run (.start opts params) := by
    rw [List.append_assoc, List.append_assoc, forEach_append pre, forEach_append pre]
    show EStateM.bind (forEach p pre) _ _ = EStateM.bind (forEach p pre) _ _
    rw [EStateM.bind, EStateM.bind]
    cases h : forEach p pre (.start opts params) with
    | ok a st => exact hrest st (hpre st h)
    | error e st => rfl
  unfold OptParse.parse
  rw [show (⟨opts, params, .option, [], false⟩ : State) = .start opts params from rfl, hrun]

/-- Both parses throw, or both return with the same outputs. -/
def SameOutcome (r r' : Except Exn Int32 × Map × List CStr) : Prop :=
  (r.1.isOk = false ∧ r'.1.isOk = false) ∨ (r.1.isOk = true ∧ r'.1.isOk = true ∧ r.2 = r'.2)

/-- The long options `--opt` and, with the empty key, `--`; both take a value. -/
def twoKeys : OptParse :=
  .mkOptParse [] [(ascii "opt", ascii "options"), ([], ascii "options")] [ascii "options"] []

def optKey : CStr := cStr (ascii "opt")
def emptyText : CStr := cStr []
def plainText : CStr := cStr (ascii "x")

/-- The spellings part for the empty value, `--opt ''` and `--opt=`, and for the
empty key, `-- x` and `--=x`. -/
theorem spellings_differ :
    twoKeys.leaveInParams = ∅ ∧ twoKeys.Settled [] ∅ [] ∧
    twoKeys.optWithParams.contains (ascii "options") = true ∧
    twoKeys.longOpts[optKey.bytes]? = some (ascii "options") ∧ 0x3d ∉ optKey.bytes ∧
    emptyText.get 0 ≠ 0x2d ∧
    ¬ SameOutcome (twoKeys.parse ([] ++ [longArg optKey, emptyText] ++ []) ∅ [])
      (twoKeys.parse ([] ++ [longArgEq optKey emptyText] ++ []) ∅ []) ∧
    twoKeys.longOpts[emptyText.bytes]? = some (ascii "options") ∧ 0x3d ∉ emptyText.bytes ∧
    plainText.get 0 ≠ 0x2d ∧
    ¬ SameOutcome (twoKeys.parse ([] ++ [longArg emptyText, plainText] ++ []) ∅ [])
      (twoKeys.parse ([] ++ [longArgEq emptyText plainText] ++ []) ∅ []) := by
  have hdiffer : ∀ r r' : Except Exn Int32 × Map × List CStr, r.1.isOk = true →
      r.2.1[ascii "options"]? ≠ r'.2.1[ascii "options"]? → ¬ SameOutcome r r' := by
    intro r r' hok hne hsame
    rcases hsame with ⟨hthrow, -⟩ | ⟨-, -, heq⟩
    · rw [hok] at hthrow
      exact absurd hthrow (by decide)
    · exact hne (by rw [heq])
  refine ⟨by decide, ?_, by decide, by decide, by decide, by decide, ?_, by decide, by decide,
    by decide, ?_⟩
  · intro st h
    obtain ⟨-, rfl⟩ := EStateM.Result.ok.inj h
    rfl
  · exact hdiffer _ _ (by decide +kernel) (by decide +kernel)
  · exact hdiffer _ _ (by decide +kernel) (by decide +kernel)

/-- `--opt x` is `--opt=x`. -/
theorem spellings_agree_demo :
    twoKeys.parse ([] ++ [longArg optKey, plainText] ++ []) ∅ [] =
      twoKeys.parse ([] ++ [longArgEq optKey plainText] ++ []) ∅ [] := by
  refine @spellings_agree twoKeys (by decide) optKey plainText (ascii "options") (by decide)
    (by decide) (by decide) (by decide) (by decide) (by decide) ∅ [] [] ?_ []
  intro st h
  obtain ⟨-, rfl⟩ := EStateM.Result.ok.inj h
  rfl

end Spell

end Cor.Options

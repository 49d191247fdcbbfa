import Mathlib.Data.List.Basic
import Cor.Options.Spellings

/-!
# How the scanner reads an argument

`reading` says what the option stage takes a nonempty argument for, in any
configuration: the two lookups that go astray (`-` as the short key NUL, `--` as
the short key `-`) are readings like the others. `process_does` gives what the
scanner does with each reading.

Whether a command line is refused depends on the stages alone. `scan` follows
them, and `forEach_scan` says that the scanner throws exactly where `scan` has
no stage to go to.
-/

namespace Cor.Options

open Std (ExtTreeMap ExtTreeSet)

/-- What an argument is to a scanner that expects an option. -/
inductive Reading where
  | param
  | flag (name : Bytes)
  /-- A flag with a parameter, the error of `parse_long`. -/
  | unexpected (name : Bytes) (peq : CStr)
  | value (name v : Bytes)
  /-- A value-taking option whose value is to come. -/
  | pending (name : Bytes)
deriving DecidableEq

/-- An argument that `parse_short` gets. -/
def OptParse.readShort (p : OptParse) (s : CStr) : Reading :=
  match p.shortOpts[s.get 1]? with
  | none => .param
  | some name =>
    if !p.optWithParams.contains name then .flag name
    else if s.len > 2 then .value name (s.drop 2).bytes
    else .pending name

/-- The key that `parse_long` looks up: the text after `--` and before the first `=`. -/
def longKey (s : CStr) : Bytes := (s.drop 2).bytes.takeWhile (· != 0x3d)

/-- An argument that `parse_long` gets. -/
def OptParse.readLong (p : OptParse) (s : CStr) : Reading :=
  match p.longOpts[longKey s]? with
  | none => .param
  | some name =>
    match (s.drop 2).strchr 0x3d with
    | none => if !p.optWithParams.contains name then .flag name else .pending name
    | some q =>
      if !p.optWithParams.contains name then .unexpected name q
      else .value name (q.drop 1).bytes

def OptParse.reading (p : OptParse) (s : CStr) : Reading :=
  if s.get 0 = 0x2d then
    if s.len > 2 ∧ s.get 1 = 0x2d then p.readLong s else p.readShort s
  else .param

/-- The value-taking option that an argument is read as. -/
def Reading.takes : Reading → Option Bytes
  | .value name _ => some name
  | .pending name => some name
  | _ => none

/-! ## One argument -/

/-- What comes of a scanner in the option stage that reads an argument so. -/
inductive Does (p : OptParse) (st : State) : Reading → EStateM.Result Exn State Unit → Prop
  | param {st' : State} (hopts : st'.opts = st.opts) (hst : st'.stage = .option) :
    Does p st .param (.ok () st')
  | flag {name : Bytes} {st' : State} (hw : p.optWithParams.contains name = false)
      (hopts : st'.opts = st.opts.insert name []) (hst : st'.stage = .option) :
    Does p st (.flag name) (.ok () st')
  | unexpected {name : Bytes} {q : CStr} {st' : State}
      (hw : p.optWithParams.contains name = false) :
    Does p st (.unexpected name q) (.error (unexpectedParam name q) st')
  | value {name v : Bytes} {st' : State} (hw : p.optWithParams.contains name = true)
      (hopts : st'.opts = updated st.opts name v) (hst : st'.stage = .option) :
    Does p st (.value name v) (.ok () st')
  | pending {name : Bytes} {st' : State} (hw : p.optWithParams.contains name = true)
      (hopts : st'.opts = st.opts) (hst : st'.stage = .optParam) (hname : st'.name = name) :
    Does p st (.pending name) (.ok () st')

section Argument

variable {p : OptParse} {s : CStr} {st : State}

theorem parseShort_does (hst : st.stage = .option) :
    Does p st (p.readShort s) (parseShort p s s.len st) := by
  unfold OptParse.readShort parseShort
  cases hs : p.shortOpts[s.get 1]? with
  | none => exact .param rfl hst
  | some name =>
    dsimp only
    cases hw : p.optWithParams.contains name with
    | false =>
      cases hleave : p.leaveInParams.contains name with
      | false => exact .flag hw rfl hst
      | true => exact .flag hw rfl hst
    | true =>
      by_cases hlen : s.len > 2
      · simp only [hlen]
        cases hleave : p.leaveInParams.contains name with
        | false => exact .value hw rfl hst
        | true => exact .value hw rfl hst
      · simp only [hlen]
        cases hleave : p.leaveInParams.contains name with
        | false => exact .pending hw rfl rfl rfl
        | true => exact .pending hw rfl rfl rfl

/-- The key is what precedes the `=`, or the whole text without one. -/
theorem longKey_eq (s : CStr) :
    longKey s = match (s.drop 2).strchr 0x3d with
      | some q => (s.drop 2).bytes.take ((s.drop 2).len - q.len)
      | none => (s.drop 2).bytes := by
  unfold longKey
  cases hq : (s.drop 2).strchr 0x3d with
  | some q => exact (CStr.strchr_eq_some hq).2.1.symm
  | none =>
    have hsplit := List.takeWhile_append_dropWhile (p := (· != 0x3d)) (l := (s.drop 2).bytes)
    rw [CStr.strchr_eq_none hq, List.append_nil] at hsplit
    exact hsplit

theorem parseLong_does (hst : st.stage = .option) :
    Does p st (p.readLong s) (parseLong p s st) := by
  unfold OptParse.readLong parseLong
  rw [longKey_eq]
  cases hq : (s.drop 2).strchr 0x3d with
  | none =>
    dsimp only
    cases hlong : p.longOpts[(s.drop 2).bytes]? with
    | none => exact .param rfl hst
    | some name =>
      dsimp only
      cases hw : p.optWithParams.contains name with
      | false =>
        cases hleave : p.leaveInParams.contains name with
        | false => exact .flag hw (by rfl) hst
        | true => exact .flag hw (by rfl) hst
      | true =>
        cases hleave : p.leaveInParams.contains name with
        | false => exact .pending hw (by rfl) (by rfl) (by rfl)
        | true => exact .pending hw (by rfl) (by rfl) (by rfl)
  | some q =>
    dsimp only
    generalize (s.drop 2).bytes.take ((s.drop 2).len - q.len) = key
    cases hlong : p.longOpts[key]? with
    | none => exact .param rfl hst
    | some name =>
      dsimp only
      cases hw : p.optWithParams.contains name with
      | false =>
        cases hleave : p.leaveInParams.contains name with
        | false => exact .unexpected hw
        | true => exact .unexpected hw
      | true =>
        cases hleave : p.leaveInParams.contains name with
        | false => exact .value hw (by rfl) hst
        | true => exact .value hw (by rfl) hst

/-- A nonempty argument in the option stage. -/
theorem process_does (hs : s.bytes ≠ []) (hst : st.stage = .option) :
    Does p st (p.reading s) (process p s st) := by
  rw [process_eq_option hs hst]
  unfold OptParse.reading parseOption
  by_cases hdash : s.get 0 = 0x2d
  · rw [if_pos hdash, if_pos hdash]
    by_cases hlong : s.len > 2 ∧ s.get 1 = 0x2d
    · rw [if_pos hlong, if_pos hlong]
      exact parseLong_does hst
    · rw [if_neg hlong, if_neg hlong]
      exact parseShort_does hst
  · rw [if_neg hdash, if_neg hdash]
    exact .param rfl hst

/-- What comes of the argument after an option that waits for its value. -/
inductive Gives (st : State) (s : CStr) : EStateM.Result Exn State Unit → Prop
  | refused {e : Exn} {st' : State} (hdash : s.get 0 = 0x2d) : Gives st s (.error e st')
  | given {st' : State} (hdash : s.get 0 ≠ 0x2d)
      (hopts : st'.opts = updated st.opts st.name s.bytes) (hst : st'.stage = .option) :
    Gives st s (.ok () st')

/-- A nonempty argument in the parameter stage. -/
theorem process_gives (hs : s.bytes ≠ []) (hst : st.stage = .optParam) :
    Gives st s (process p s st) := by
  have hlen : 1 ≤ s.len := List.length_pos_iff.mpr hs
  rw [process_eq_optParam hs hst]
  unfold parseOptParam
  by_cases hdash : s.get 0 = 0x2d
  · rw [if_pos ⟨hlen, hdash⟩]
    exact .refused hdash
  · rw [if_neg fun hboth => hdash hboth.2]
    obtain ⟨opts, params, stage, name, isLeaveParam⟩ := st
    cases isLeaveParam with
    | false => exact .given hdash (by rfl) (by rfl)
    | true => exact .given hdash (by rfl) (by rfl)

end Argument

/-! ## Whole command lines -/

/-- The stage after an argument, none where the scanner refuses it. -/
def OptParse.next (p : OptParse) (stage : Stage) (s : CStr) : Option Stage :=
  if s.bytes.isEmpty then some stage
  else
    match stage with
    | .option =>
      match p.reading s with
      | .unexpected _ _ => none
      | .pending _ => some .optParam
      | _ => some .option
    | .optParam => if s.get 0 = 0x2d then none else some .option

/-- The stage after a command line. -/
def OptParse.scan (p : OptParse) : Stage → List CStr → Option Stage
  | stage, [] => some stage
  | stage, s :: argv => (p.next stage s).bind fun stage' => p.scan stage' argv

/-- The stage that a run leaves, none after an exception. -/
def stageOf : EStateM.Result Exn State Unit → Option Stage
  | .ok _ st => some st.stage
  | .error _ _ => none

section Run

variable {p : OptParse}

theorem process_next (s : CStr) (st : State) :
    stageOf (process p s st) = p.next st.stage s := by
  unfold OptParse.next
  by_cases hs : s.bytes = []
  · rw [if_pos (by simp [hs]), process_empty hs]
    rfl
  · rw [if_neg (by simp [hs])]
    cases hst : st.stage with
    | option =>
      have hdoes := process_does (p := p) hs hst
      generalize p.reading s = reading, process p s st = res at hdoes
      cases hdoes with
      | param hopts hstage => exact congrArg some hstage
      | flag hw hopts hstage => exact congrArg some hstage
      | unexpected hw => rfl
      | value hw hopts hstage => exact congrArg some hstage
      | pending hw hopts hstage hname => exact congrArg some hstage
    | optParam =>
      have hgives := process_gives (p := p) hs hst
      generalize process p s st = res at hgives
      cases hgives with
      | refused hdash => exact (if_pos hdash).symm
      | given hdash hopts hstage =>
        dsimp only
        rw [if_neg hdash]
        exact congrArg some hstage

/-- The stages of a run are those of `scan`, and it throws where `scan` stops. -/
theorem forEach_scan : ∀ (argv : List CStr) (st : State),
    stageOf (forEach p argv st) = p.scan st.stage argv
  | [], _ => rfl
  | s :: argv, st => by
    have hone := process_next (p := p) s st
    show stageOf (EStateM.bind (process p s) (fun _ => forEach p argv) st) = _
    unfold OptParse.scan
    rw [← hone, EStateM.bind]
    cases process p s st with
    | ok a st₁ => exact forEach_scan argv st₁
    | error e st₁ => rfl

theorem scan_append (pre post : List CStr) (stage : Stage) :
    p.scan stage (pre ++ post) = (p.scan stage pre).bind fun stage' => p.scan stage' post := by
  induction pre generalizing stage with
  | nil => rfl
  | cons s pre ih =>
    rw [List.cons_append, OptParse.scan, OptParse.scan, Option.bind_assoc]
    congr 1
    funext stage'
    exact ih stage'

/-- `parse` returns on the command lines that `scan` goes through. -/
theorem parse_isOk (argv : List CStr) (opts : Map) (params : List CStr) :
    (p.parse argv opts params).1.isOk = (p.scan .option argv).isSome := by
  have hscan := forEach_scan (p := p) argv (.start opts params)
  unfold OptParse.parse
  rw [show p.scan .option argv = p.scan (State.start opts params).stage argv from rfl, ← hscan]
  show _ = (stageOf ((forEach p argv).run ⟨opts, params, .option, [], false⟩)).isSome
  cases (forEach p argv).run ⟨opts, params, .option, [], false⟩ with
  | ok a st => rfl
  | error e st => rfl

end Run

end Cor.Options

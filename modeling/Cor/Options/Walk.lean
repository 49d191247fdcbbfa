import Mathlib.Data.List.Basic
import Cor.Options.Attached

/-!
# The scanner without its locals

In any configuration what a scan remembers between two arguments is its outputs and, at
most, the option that waits for its value: `name` and `is_leave_param` are read only
while `stage` is `opt_param`, and the flag is a function of the name. `walk` is the
scanner on that state, and `parse_eq_walk` that it is the scanner of the source, its
exceptions and the outputs they leave included.

Two things follow that a caller of `parse` may rely on. A command line that is refused is
refused at one argument: the outputs are those of the arguments before it, and what comes
after it does not matter (`refused_at`). And a command line that is put together from
options, in any of their spellings, and parameters is taken apart into the same ones
(`parse_spelled`).
-/

namespace Cor.Options

open Std (ExtTreeMap ExtTreeSet)

/-! ## The walk -/

/-- What a scan has come to: its outputs, and the option that waits for its value. -/
structure Scanned where
  opts : Map
  params : List CStr
  waiting : Option Bytes

/-- The arguments that are pushed for an option if it is to be left. -/
def OptParse.keep (p : OptParse) (name : Bytes) (pushed : List CStr) : List CStr :=
  if p.leaveInParams.contains name then pushed else []

/-- What is pushed for an option with its value in the same argument: `parse_short` pushes
the value once more. -/
def attachedIn (s : CStr) : List CStr := if s.get 1 = 0x2d then [s] else [s, s.drop 2]

/-- An argument that is not empty, with no option waiting. -/
def OptParse.take (p : OptParse) (s : CStr) (v : Scanned) : EStateM.Result Exn Scanned Unit :=
  match p.reading s with
  | .param => .ok () { v with params := v.params ++ [s] }
  | .flag name =>
    .ok () { v with opts := v.opts.insert name [], params := v.params ++ p.keep name [s] }
  | .unexpected name q =>
    .error (unexpectedParam name q) { v with params := v.params ++ p.keep name [s] }
  | .value name w =>
    .ok () { v with opts := updated v.opts name w, params := v.params ++ p.keep name (attachedIn s) }
  | .pending name => .ok () { v with params := v.params ++ p.keep name [s], waiting := some name }

/-- One argument. -/
def OptParse.walkOne (p : OptParse) (s : CStr) (v : Scanned) : EStateM.Result Exn Scanned Unit :=
  if s.bytes = [] then .ok () v
  else
    match v.waiting with
    | none => p.take s v
    | some name =>
      if s.get 0 = 0x2d then .error ⟨.other (ascii "std::logic_error"), s.bytes⟩ v
      else .ok () ⟨updated v.opts name s.bytes, v.params ++ p.keep name [s], none⟩

def OptParse.walk (p : OptParse) : List CStr → Scanned → EStateM.Result Exn Scanned Unit
  | [], v => .ok () v
  | s :: argv, v =>
    match p.walkOne s v with
    | .ok () v' => OptParse.walk p argv v'
    | .error e v' => .error e v'

/-! ## The scanner walks -/

/-- The scanner in the state `st` has come to `v`. -/
structure Holds (p : OptParse) (st : State) (v : Scanned) : Prop where
  opts : st.opts = v.opts
  params : st.params = v.params
  idle : v.waiting = none → st.stage = .option
  waits : ∀ name, v.waiting = some name →
    st.stage = .optParam ∧ st.name = name ∧ st.isLeaveParam = p.leaveInParams.contains name

/-- The scanner and the walk go on alike, or stop alike with the same outputs. -/
def Alike (p : OptParse) :
    EStateM.Result Exn State Unit → EStateM.Result Exn Scanned Unit → Prop
  | .ok () st, .ok () v => Holds p st v
  | .error e st, .error e' v => e = e' ∧ st.opts = v.opts ∧ st.params = v.params
  | _, _ => False

section Steps

variable {p : OptParse} {s : CStr} {st : State} {v : Scanned}

/-- An argument after which no option waits. -/
theorem holds_idle {opts : Map} {params : List CStr} (hopts : st.opts = opts)
    (hparams : st.params = params) (hst : st.stage = .option) :
    Holds p st ⟨opts, params, none⟩ :=
  ⟨hopts, hparams, fun _ => hst, fun _ h => by cases h⟩

theorem holds_waiting {opts : Map} {params : List CStr} {name : Bytes} (hopts : st.opts = opts)
    (hparams : st.params = params) (hst : st.stage = .optParam) (hname : st.name = name)
    (hleave : st.isLeaveParam = p.leaveInParams.contains name) :
    Holds p st ⟨opts, params, some name⟩ := by
  refine ⟨hopts, hparams, fun h => (by cases h), fun n h => ?_⟩
  obtain rfl := Option.some.inj h
  exact ⟨hst, hname, hleave⟩

theorem keep_none {name : Bytes} (hleave : p.leaveInParams.contains name = false)
    (params pushed : List CStr) : params = params ++ p.keep name pushed := by
  unfold OptParse.keep
  rw [hleave]
  exact (List.append_nil params).symm

theorem keep_all {name : Bytes} (hleave : p.leaveInParams.contains name = true)
    (params pushed : List CStr) : params ++ pushed = params ++ p.keep name pushed := by
  unfold OptParse.keep
  rw [hleave]
  rfl

theorem parseShort_walks (hst : st.stage = .option) (h1 : s.len > 2 → s.get 1 ≠ 0x2d)
    (hread : p.reading s = p.readShort s) :
    Alike p (parseShort p s s.len st) (p.take s ⟨st.opts, st.params, none⟩) := by
  unfold OptParse.take
  rw [hread]
  unfold parseShort OptParse.readShort
  cases hs : p.shortOpts[s.get 1]? with
  | none => exact holds_idle rfl rfl hst
  | some name =>
    dsimp only
    cases hw : p.optWithParams.contains name with
    | false =>
      cases hleave : p.leaveInParams.contains name with
      | false => exact holds_idle rfl (keep_none hleave _ _) hst
      | true => exact holds_idle rfl (keep_all hleave _ _) hst
    | true =>
      by_cases hlen : s.len > 2
      · have hattached : attachedIn s = [s, s.drop 2] := if_neg (h1 hlen)
        simp only [hlen]
        rw [hattached]
        cases hleave : p.leaveInParams.contains name with
        | false => exact holds_idle rfl (keep_none hleave _ _) hst
        | true =>
          exact holds_idle rfl ((List.append_assoc _ [s] [s.drop 2]).trans (keep_all hleave _ _)) hst
      · simp only [hlen]
        cases hleave : p.leaveInParams.contains name with
        | false => exact holds_waiting rfl (keep_none hleave _ _) rfl rfl hleave.symm
        | true => exact holds_waiting rfl (keep_all hleave _ _) rfl rfl hleave.symm

theorem parseLong_walks (hst : st.stage = .option) (h1 : s.get 1 = 0x2d)
    (hread : p.reading s = p.readLong s) :
    Alike p (parseLong p s st) (p.take s ⟨st.opts, st.params, none⟩) := by
  have hattached : attachedIn s = [s] := if_pos h1
  unfold OptParse.take
  rw [hread, hattached]
  unfold parseLong OptParse.readLong
  rw [longKey_eq]
  cases hq : (s.drop 2).strchr 0x3d with
  | none =>
    dsimp only
    cases hlong : p.longOpts[(s.drop 2).bytes]? with
    | none => exact holds_idle rfl rfl hst
    | some name =>
      dsimp only
      cases hw : p.optWithParams.contains name with
      | false =>
        cases hleave : p.leaveInParams.contains name with
        | false => exact holds_idle (by rfl) (keep_none hleave _ _) hst
        | true => exact holds_idle (by rfl) (keep_all hleave _ _) hst
      | true =>
        cases hleave : p.leaveInParams.contains name with
        | false =>
          exact holds_waiting (by rfl) (keep_none hleave _ _) (by rfl) (by rfl) hleave.symm
        | true => exact holds_waiting (by rfl) (keep_all hleave _ _) (by rfl) (by rfl) hleave.symm
  | some q =>
    dsimp only
    generalize (s.drop 2).bytes.take ((s.drop 2).len - q.len) = key
    cases hlong : p.longOpts[key]? with
    | none => exact holds_idle rfl rfl hst
    | some name =>
      dsimp only
      cases hw : p.optWithParams.contains name with
      | false =>
        cases hleave : p.leaveInParams.contains name with
        | false => exact ⟨rfl, rfl, keep_none hleave _ _⟩
        | true => exact ⟨rfl, rfl, keep_all hleave _ _⟩
      | true =>
        cases hleave : p.leaveInParams.contains name with
        | false => exact holds_idle (by rfl) (keep_none hleave _ _) hst
        | true => exact holds_idle (by rfl) (keep_all hleave _ _) hst

/-- **One argument.** -/
theorem process_walks (h : Holds p st v) : Alike p (process p s st) (p.walkOne s v) := by
  obtain ⟨opts, params, waiting⟩ := v
  obtain rfl : st.opts = opts := h.opts
  obtain rfl : st.params = params := h.params
  unfold OptParse.walkOne
  by_cases hs : s.bytes = []
  · rw [if_pos hs, process_empty hs]
    exact h
  rw [if_neg hs]
  cases waiting with
  | none =>
    have hst := h.idle rfl
    dsimp only
    rw [process_eq_option hs hst]
    unfold parseOption
    by_cases hdash : s.get 0 = 0x2d
    · rw [if_pos hdash]
      by_cases hlong : s.len > 2 ∧ s.get 1 = 0x2d
      · rw [if_pos hlong]
        refine parseLong_walks hst hlong.2 ?_
        unfold OptParse.reading
        rw [if_pos hdash, if_pos hlong]
      · rw [if_neg hlong]
        refine parseShort_walks hst (fun hlen h1 => hlong ⟨hlen, h1⟩) ?_
        unfold OptParse.reading
        rw [if_pos hdash, if_neg hlong]
    · have hread : p.reading s = .param := if_neg hdash
      rw [if_neg hdash]
      unfold OptParse.take
      rw [hread]
      exact holds_idle rfl rfl hst
  | some name =>
    obtain ⟨hst, rfl, hleave⟩ := h.waits name rfl
    have hlen : 1 ≤ s.len := List.length_pos_iff.mpr hs
    dsimp only
    rw [process_eq_optParam hs hst]
    unfold parseOptParam
    by_cases hdash : s.get 0 = 0x2d
    · rw [if_pos ⟨hlen, hdash⟩, if_pos hdash]
      exact ⟨rfl, rfl, rfl⟩
    · rw [if_neg fun hboth => hdash hboth.2, if_neg hdash]
      obtain ⟨opts, params, stage, name, isLeaveParam⟩ := st
      cases isLeaveParam with
      | false => exact holds_idle (by rfl) (keep_none hleave.symm _ _) (by rfl)
      | true => exact holds_idle (by rfl) (keep_all hleave.symm _ _) (by rfl)

theorem forEach_walks : ∀ (argv : List CStr) {st : State} {v : Scanned}, Holds p st v →
    Alike p (forEach p argv st) (p.walk argv v)
  | [], _, _, h => h
  | s :: argv, st, v, h => by
    have hone := process_walks (s := s) h
    show Alike p (EStateM.bind (process p s) (fun _ => forEach p argv) st) _
    unfold OptParse.walk EStateM.bind
    generalize process p s st = x at hone
    generalize p.walkOne s v = y at hone
    cases x with
    | ok u st₁ =>
      cases y with
      | ok u' v₁ => exact forEach_walks argv hone
      | error e v₁ => exact hone.elim
    | error e st₁ =>
      cases y with
      | ok u' v₁ => exact hone.elim
      | error e' v₁ => exact hone

end Steps

/-- The outcome of a walk. -/
def outcome : EStateM.Result Exn Scanned Unit → Except Exn Int32 × Map × List CStr
  | .ok _ v => (.ok 0, v.opts, v.params)
  | .error e v => (.error e, v.opts, v.params)

/-- **`parse` is the walk**, in every configuration. -/
theorem parse_eq_walk (p : OptParse) (argv : List CStr) (opts : Map) (params : List CStr) :
    p.parse argv opts params = outcome (p.walk argv ⟨opts, params, none⟩) := by
  have hstart : Holds p (.start opts params) ⟨opts, params, none⟩ := holds_idle rfl rfl rfl
  have hall := forEach_walks argv hstart
  unfold OptParse.parse
  rw [show (forEach p argv).run ⟨opts, params, .option, [], false⟩ =
    forEach p argv (.start opts params) from rfl]
  generalize forEach p argv (.start opts params) = x at hall
  generalize p.walk argv ⟨opts, params, none⟩ = y at hall
  cases x with
  | ok u st =>
    cases y with
    | ok u' v =>
      have hheld : Holds p st v := hall
      show (Except.ok 0, st.opts, st.params) = _
      rw [hheld.opts, hheld.params]
      rfl
    | error e v => exact hall.elim
  | error e st =>
    cases y with
    | ok u' v => exact hall.elim
    | error e' v =>
      obtain ⟨rfl, hopts, hparams⟩ : e = e' ∧ st.opts = v.opts ∧ st.params = v.params := hall
      show (Except.error e, st.opts, st.params) = _
      rw [hopts, hparams]
      rfl

/-! ## Command lines one after another -/

section Lines

variable {p : OptParse}

theorem walk_cons (s : CStr) (argv : List CStr) (v : Scanned) :
    p.walk (s :: argv) v =
      match p.walkOne s v with
      | .ok () v' => p.walk argv v'
      | .error e v' => .error e v' := rfl

theorem walk_append (pre post : List CStr) : ∀ (v : Scanned), p.walk (pre ++ post) v =
    match p.walk pre v with
    | .ok () v' => p.walk post v'
    | .error e v' => .error e v' := by
  induction pre with
  | nil => intro v; rfl
  | cons s pre ih =>
    intro v
    rw [List.cons_append, walk_cons, walk_cons]
    cases p.walkOne s v with
    | ok u v' => exact ih v'
    | error e v' => rfl

/-- Where a walk stops. -/
theorem walk_error {e : Exn} {v' : Scanned} : ∀ {argv : List CStr} {v : Scanned},
    p.walk argv v = .error e v' → ∃ pre s post v₁, argv = pre ++ s :: post ∧
      p.walk pre v = .ok () v₁ ∧ p.walkOne s v₁ = .error e v' := by
  intro argv
  induction argv with
  | nil => intro v h; cases h
  | cons s argv ih =>
    intro v h
    unfold OptParse.walk at h
    cases hone : p.walkOne s v with
    | error e₁ v₁ =>
      rw [hone] at h
      injection h with he hv
      exact ⟨[], s, argv, v, rfl, rfl, by rw [hone, he, hv]⟩
    | ok u v₁ =>
      rw [hone] at h
      obtain ⟨pre, s', post, v₂, rfl, hpre, hs'⟩ := ih h
      refine ⟨s :: pre, s', post, v₂, rfl, ?_, hs'⟩
      unfold OptParse.walk
      rw [hone]
      exact hpre

/-- The locals of the scanner after arguments that the walk has come through. -/
theorem walk_ok_holds {argv : List CStr} {opts : Map} {params : List CStr} {v : Scanned}
    (h : p.walk argv ⟨opts, params, none⟩ = .ok () v) :
    ∃ st, forEach p argv (.start opts params) = .ok () st ∧ Holds p st v := by
  have hstart : Holds p (.start opts params) ⟨opts, params, none⟩ := holds_idle rfl rfl rfl
  have hall := forEach_walks argv hstart
  rw [h] at hall
  cases hrun : forEach p argv (.start opts params) with
  | ok u st =>
    rw [hrun] at hall
    exact ⟨st, rfl, hall⟩
  | error e st =>
    rw [hrun] at hall
    exact hall.elim

/-- The two ways to refuse an argument, with the scanner in the state `st`. -/
inductive Refuses (p : OptParse) (s : CStr) (st : State) : Exn → List CStr → Prop
  /-- An option waits for its value and `s` begins with `-`. -/
  | dash (hwaits : st.stage = .optParam) (hdash : s.get 0 = 0x2d) :
    Refuses p s st ⟨.other (ascii "std::logic_error"), s.bytes⟩ st.params
  /-- No option waits, and `s` is a flag with a value. -/
  | unexpected {name : Bytes} {q : CStr} (hidle : st.stage = .option)
      (hread : p.reading s = .unexpected name q) :
    Refuses p s st (unexpectedParam name q) (st.params ++ p.keep name [s])

theorem walkOne_error {s : CStr} {st : State} {v v' : Scanned} {e : Exn} (hst : Holds p st v)
    (h : p.walkOne s v = .error e v') : v'.opts = v.opts ∧ Refuses p s st e v'.params := by
  unfold OptParse.walkOne at h
  by_cases hs : s.bytes = []
  · rw [if_pos hs] at h
    cases h
  rw [if_neg hs] at h
  cases hw : v.waiting with
  | some name =>
    rw [hw] at h
    by_cases hdash : s.get 0 = 0x2d
    · dsimp only at h
      rw [if_pos hdash] at h
      injection h with he hv
      rw [← he, ← hv, ← hst.params]
      exact ⟨rfl, .dash (hst.waits name hw).1 hdash⟩
    · dsimp only at h
      rw [if_neg hdash] at h
      cases h
  | none =>
    rw [hw] at h
    unfold OptParse.take at h
    cases hread : p.reading s with
    | unexpected name q =>
      rw [hread] at h
      injection h with he hv
      rw [← he, ← hv, ← hst.params]
      exact ⟨rfl, .unexpected (hst.idle hw) hread⟩
    | _ => rw [hread] at h; cases h

/-- **A refused command line.** It is refused at one argument, for one of two reasons, in the
state that the arguments before it leave the scanner in. The outputs are those of these
arguments, with the refused one among the parameters if it is a flag to be left there.
What comes after it changes nothing. -/
theorem refused_at {argv : List CStr} {opts opts' : Map} {params params' : List CStr} {e : Exn}
    (h : p.parse argv opts params = (.error e, opts', params')) :
    ∃ pre s post st, argv = pre ++ s :: post ∧
      forEach p pre (.start opts params) = .ok () st ∧
      p.parse pre opts params = (.ok 0, opts', st.params) ∧ Refuses p s st e params' ∧
      ∀ post', p.parse (pre ++ s :: post') opts params = (.error e, opts', params') := by
  rw [parse_eq_walk] at h
  cases hwalk : p.walk argv ⟨opts, params, none⟩ with
  | ok u v => rw [hwalk] at h; cases h
  | error e₁ v' =>
    rw [hwalk] at h
    have he : Except.error e₁ = (Except.error e : Except Exn Int32) := congrArg Prod.fst h
    injection he with he
    subst he
    have hopts : v'.opts = opts' := congrArg (fun r => r.2.1) h
    have hparams : v'.params = params' := congrArg (fun r => r.2.2) h
    subst hopts hparams
    obtain ⟨pre, s, post, v₁, rfl, hpre, hs⟩ := walk_error hwalk
    obtain ⟨st, hrun, hst⟩ := walk_ok_holds hpre
    obtain ⟨hsame, hrefuses⟩ := walkOne_error hst hs
    refine ⟨pre, s, post, st, rfl, hrun, ?_, hrefuses, fun post' => ?_⟩
    · rw [parse_eq_walk, hpre, hsame, hst.params]
      rfl
    · rw [parse_eq_walk, walk_append, hpre]
      dsimp only
      unfold OptParse.walk
      rw [hs]
      rfl

/-- **Command lines one after another.** After arguments that leave no option waiting, the
rest may be parsed by a call of its own, on the same outputs. -/
theorem parse_settled_append {argv : List CStr} {opts : Map} {params : List CStr}
    (hsettled : p.Settled argv opts params) (more : List CStr) :
    p.parse (argv ++ more) opts params =
      match p.parse argv opts params with
      | (.ok _, opts', params') => p.parse more opts' params'
      | r => r := by
  rw [parse_eq_walk, parse_eq_walk, walk_append]
  cases hwalk : p.walk argv ⟨opts, params, none⟩ with
  | error e v => rfl
  | ok u v =>
    obtain ⟨st, hrun, hheld⟩ := walk_ok_holds hwalk
    have hst := hsettled st hrun
    obtain ⟨opts', params', waiting⟩ := v
    cases waiting with
    | none =>
      show _ = p.parse more opts' params'
      rw [parse_eq_walk]
    | some name =>
      obtain ⟨hwait, -⟩ := hheld.waits name rfl
      rw [hst] at hwait
      cases hwait

/-! ## From items to a command line and back -/

/-- An option key alone, as an argument. -/
def shortKey (c : UInt8) : CStr := shortArg c emptyText

/-- **The spellings of an item**: the arguments, and what of them is pushed. -/
inductive Spelled (p : OptParse) : Item → List CStr → List CStr → Prop
  /-- What is read as a parameter, unknown options among it. -/
  | param {s : CStr} (hne : s.bytes ≠ []) (hread : p.reading s = .param) :
    Spelled p (.param s) [s] [s]
  | shortFlag {c : UInt8} {name : Bytes} (hkey : p.shortOpts[c]? = some name)
      (hw : p.optWithParams.contains name = false) :
    Spelled p (.flag name) [shortKey c] (p.keep name [shortKey c])
  | longFlag {key : CStr} {name : Bytes} (hkey : p.longOpts[key.bytes]? = some name)
      (hw : p.optWithParams.contains name = false) (hne : key.bytes ≠ []) (heq : 0x3d ∉ key.bytes) :
    Spelled p (.flag name) [longArg key] (p.keep name [longArg key])
  | shortAttached {c : UInt8} {v : CStr} {name : Bytes} (hkey : p.shortOpts[c]? = some name)
      (hw : p.optWithParams.contains name = true) (hc : c ≠ 0 ∧ c ≠ 0x2d) (hv : v.bytes ≠ []) :
    Spelled p (.value name v.bytes) [shortArg c v] (p.keep name [shortArg c v, v])
  | shortSeparate {c : UInt8} {v : CStr} {name : Bytes} (hkey : p.shortOpts[c]? = some name)
      (hw : p.optWithParams.contains name = true) (hv : v.bytes ≠ []) (hdash : v.get 0 ≠ 0x2d) :
    Spelled p (.value name v.bytes) [shortKey c, v] (p.keep name [shortKey c, v])
  | longAttached {key v : CStr} {name : Bytes} (hkey : p.longOpts[key.bytes]? = some name)
      (hw : p.optWithParams.contains name = true) (heq : 0x3d ∉ key.bytes) :
    Spelled p (.value name v.bytes) [longArgEq key v] (p.keep name [longArgEq key v])
  | longSeparate {key v : CStr} {name : Bytes} (hkey : p.longOpts[key.bytes]? = some name)
      (hw : p.optWithParams.contains name = true) (hne : key.bytes ≠ []) (heq : 0x3d ∉ key.bytes)
      (hv : v.bytes ≠ []) (hdash : v.get 0 ≠ 0x2d) :
    Spelled p (.value name v.bytes) [longArg key, v] (p.keep name [longArg key, v])

/-- An item with one of its spellings. -/
structure Word (p : OptParse) where
  item : Item
  args : List CStr
  pushed : List CStr
  spelled : Spelled p item args pushed

theorem keep_append (name : Bytes) (ss ts : List CStr) :
    p.keep name (ss ++ ts) = p.keep name ss ++ p.keep name ts := by
  unfold OptParse.keep
  cases p.leaveInParams.contains name <;> rfl

/-- An argument that begins with `-` is not empty. -/
theorem walkOne_idle {s : CStr} (hdash : s.get 0 = 0x2d) (opts : Map) (params : List CStr) :
    p.walkOne s ⟨opts, params, none⟩ = p.take s ⟨opts, params, none⟩ :=
  if_neg (bytes_ne_nil hdash)

/-- The value of the option that waits. -/
theorem walkOne_value {v : CStr} (hv : v.bytes ≠ []) (hdash : v.get 0 ≠ 0x2d) (name : Bytes)
    (opts : Map) (params : List CStr) : p.walkOne v ⟨opts, params, some name⟩ =
      .ok () ⟨updated opts name v.bytes, params ++ p.keep name [v], none⟩ := by
  unfold OptParse.walkOne
  rw [if_neg hv]
  dsimp only
  rw [if_neg hdash]

theorem shortKey_len (c : UInt8) : ¬ (shortKey c).len > 2 := by
  have hle : ((0x2d :: c :: []).takeWhile (· != (0 : UInt8))).length ≤ 2 :=
    (List.takeWhile_prefix _).length_le
  show ¬ ((0x2d :: c :: []).takeWhile (· != (0 : UInt8))).length > 2
  omega

/-- A short option is read as one, unless it looks like a long one. -/
theorem reading_short {c : UInt8} {t : CStr} (hnot : ¬ ((shortArg c t).len > 2 ∧ c = 0x2d)) :
    p.reading (shortArg c t) = p.readShort (shortArg c t) := by
  obtain ⟨h0, h1⟩ := shortArg_get c t
  unfold OptParse.reading
  rw [if_pos h0, h1, if_neg hnot]

theorem reading_shortKey {c : UInt8} {name : Bytes} (hkey : p.shortOpts[c]? = some name) :
    p.reading (shortKey c) =
      if p.optWithParams.contains name then .pending name else .flag name := by
  have hlen := shortKey_len c
  have h1 : (shortKey c).get 1 = c := (shortArg_get c emptyText).2
  unfold shortKey at hlen h1 ⊢
  rw [reading_short fun hboth => hlen hboth.1]
  unfold OptParse.readShort
  rw [h1, hkey]
  dsimp only
  rw [if_neg hlen]
  cases p.optWithParams.contains name <;> rfl

theorem reading_shortValue {c : UInt8} {v : CStr} {name : Bytes}
    (hkey : p.shortOpts[c]? = some name) (hw : p.optWithParams.contains name = true)
    (hc : c ≠ 0 ∧ c ≠ 0x2d) (hv : v.bytes ≠ []) :
    p.reading (shortArg c v) = .value name v.bytes ∧ attachedIn (shortArg c v) = [shortArg c v, v] := by
  have hbytes := shortArg_bytes hc.1 v
  have h1 := (shortArg_get c v).2
  have hlen : (shortArg c v).len > 2 := by
    rw [CStr.len, hbytes, List.length_cons, List.length_cons]
    have := List.length_pos_iff.mpr hv
    omega
  have hdrop : (shortArg c v).drop 2 = v := by
    have hb : ((shortArg c v).drop 2).bytes = v.bytes := by
      rw [CStr.drop_bytes, hbytes]
      rfl
    obtain ⟨vb, hvb⟩ := v
    unfold CStr.drop
    congr
  rw [reading_short fun hboth => hc.2 hboth.2]
  unfold OptParse.readShort attachedIn
  rw [h1, hkey, if_neg hc.2, hdrop]
  dsimp only
  rw [hw, if_pos hlen]
  exact ⟨rfl, rfl⟩

/-- More than two characters, the first two of them `-`. -/
theorem reading_long {s : CStr} {text : Bytes} (hs : s.bytes = 0x2d :: 0x2d :: text)
    (htext : text ≠ []) : p.reading s = p.readLong s := by
  have hlen : s.len > 2 := by
    rw [CStr.len, hs, List.length_cons, List.length_cons]
    have := List.length_pos_iff.mpr htext
    omega
  have h0 : s.get 0 = 0x2d := by rw [CStr.get, hs]; rfl
  have h1 : s.get 1 = 0x2d := by rw [CStr.get, hs]; rfl
  unfold OptParse.reading
  rw [if_pos h0, if_pos ⟨hlen, h1⟩]

theorem reading_longArg {key : CStr} {name : Bytes} (hkey : p.longOpts[key.bytes]? = some name)
    (hne : key.bytes ≠ []) (heq : 0x3d ∉ key.bytes) :
    p.reading (longArg key) =
      if p.optWithParams.contains name then .pending name else .flag name := by
  have hdrop : (longArg key).drop 2 = key := rfl
  have hlong : longKey (longArg key) = key.bytes := by
    rw [longKey_eq, hdrop, strchr_absent heq]
  rw [reading_long rfl hne]
  unfold OptParse.readLong
  rw [hlong, hkey]
  dsimp only
  rw [hdrop, strchr_absent heq]
  cases p.optWithParams.contains name <;> rfl

theorem reading_longArgEq {key v : CStr} {name : Bytes}
    (hkey : p.longOpts[key.bytes]? = some name) (hw : p.optWithParams.contains name = true)
    (heq : 0x3d ∉ key.bytes) : p.reading (longArgEq key v) = .value name v.bytes := by
  obtain ⟨q, hq, hqb⟩ := @strchr_key ((longArgEq key v).drop 2) key v heq rfl
  have hlong : longKey (longArgEq key v) = key.bytes := by
    show (key.bytes ++ 0x3d :: v.bytes).takeWhile (· != 0x3d) = key.bytes
    rw [List.takeWhile_append_of_pos (bytes_ne_eq heq)]
    exact List.append_nil _
  have htext : key.bytes ++ 0x3d :: v.bytes ≠ [] := by simp
  rw [reading_long (show (longArgEq key v).bytes = _ from rfl) htext]
  unfold OptParse.readLong
  rw [hlong, hkey]
  dsimp only
  rw [hq]
  dsimp only
  rw [hw, CStr.drop_bytes, hqb]
  rfl

/-- An option alone: a flag, or one that waits. -/
theorem walkOne_key {s : CStr} {name : Bytes} (hdash : s.get 0 = 0x2d)
    (hread : p.reading s =
      if p.optWithParams.contains name then .pending name else .flag name) (v : Scanned)
    (hv : v.waiting = none) : p.walkOne s v =
      if p.optWithParams.contains name then
        .ok () ⟨v.opts, v.params ++ p.keep name [s], some name⟩
      else .ok () ⟨v.opts.insert name [], v.params ++ p.keep name [s], none⟩ := by
  obtain ⟨opts, params, waiting⟩ := v
  obtain rfl : waiting = none := hv
  rw [walkOne_idle hdash]
  unfold OptParse.take
  rw [hread]
  cases p.optWithParams.contains name <;> rfl

/-- **One word.** -/
theorem walk_word (w : Word p) (rest : List CStr) (opts : Map) (params : List CStr) :
    p.walk (w.args ++ rest) ⟨opts, params, none⟩ =
      p.walk rest ⟨record opts w.item, params ++ w.pushed, none⟩ := by
  obtain ⟨item, args, pushed, hspelled⟩ := w
  -- a flag
  have hflag : ∀ {s : CStr} {name : Bytes}, s.get 0 = 0x2d →
      p.optWithParams.contains name = false → p.reading s =
        (if p.optWithParams.contains name then .pending name else .flag name) →
      p.walk ([s] ++ rest) ⟨opts, params, none⟩ =
        p.walk rest ⟨opts.insert name [], params ++ p.keep name [s], none⟩ := by
    intro s name h0 hw hread
    rw [List.singleton_append, walk_cons, walkOne_key h0 hread _ rfl, hw]
    rfl
  -- an option and then its value
  have hpair : ∀ {s v : CStr} {name : Bytes}, s.get 0 = 0x2d →
      p.optWithParams.contains name = true → p.reading s =
        (if p.optWithParams.contains name then .pending name else .flag name) →
      v.bytes ≠ [] → v.get 0 ≠ 0x2d → p.walk ([s, v] ++ rest) ⟨opts, params, none⟩ =
        p.walk rest ⟨updated opts name v.bytes, params ++ p.keep name [s, v], none⟩ := by
    intro s v name h0 hw hread hv hdash
    show p.walk (s :: v :: rest) _ = _
    rw [walk_cons, walkOne_key h0 hread _ rfl, hw, if_pos rfl]
    dsimp only
    rw [walk_cons, walkOne_value hv hdash, List.append_assoc, ← keep_append]
    rfl
  -- an option with its value attached
  have hvalue : ∀ {s : CStr} {name v : Bytes}, s.get 0 = 0x2d → p.reading s = .value name v →
      p.walk ([s] ++ rest) ⟨opts, params, none⟩ =
        p.walk rest ⟨updated opts name v, params ++ p.keep name (attachedIn s), none⟩ := by
    intro s name v h0 hread
    rw [List.singleton_append, walk_cons, walkOne_idle h0]
    unfold OptParse.take
    rw [hread]
  cases hspelled with
  | @param s hne hread =>
    rw [List.singleton_append, walk_cons]
    unfold OptParse.walkOne
    rw [if_neg hne]
    dsimp only
    unfold OptParse.take
    rw [hread]
    rfl
  | shortFlag hkey hw => exact hflag (shortArg_get _ _).1 hw (reading_shortKey hkey)
  | longFlag hkey hw hne heq => exact hflag rfl hw (reading_longArg hkey hne heq)
  | shortAttached hkey hw hc hv =>
    obtain ⟨hread, hattached⟩ := reading_shortValue hkey hw hc hv
    rw [hvalue (shortArg_get _ _).1 hread, hattached]
    rfl
  | shortSeparate hkey hw hv hdash =>
    exact hpair (shortArg_get _ _).1 hw (reading_shortKey hkey) hv hdash
  | @longAttached key v name hkey hw heq =>
    have hattached : attachedIn (longArgEq key v) = [longArgEq key v] :=
      if_pos (show (longArgEq key v).get 1 = 0x2d from rfl)
    rw [hvalue rfl (reading_longArgEq hkey hw heq), hattached]
    rfl
  | longSeparate hkey hw hne heq hv hdash =>
    exact hpair rfl hw (reading_longArg hkey hne heq) hv hdash

theorem walk_words : ∀ (ws : List (Word p)) (opts : Map) (params : List CStr),
    p.walk (ws.flatMap Word.args) ⟨opts, params, none⟩ =
      .ok () ⟨(ws.map Word.item).foldl record opts, params ++ ws.flatMap Word.pushed, none⟩
  | [], opts, params => by
    rw [List.flatMap_nil, List.flatMap_nil, List.append_nil]
    rfl
  | w :: ws, opts, params => by
    rw [List.flatMap_cons, walk_word, walk_words ws, List.flatMap_cons, List.append_assoc]
    rfl

/-- **A command line put together is taken apart.** In any configuration, from options in
any of their spellings and parameters, in any order and with empty arguments anywhere,
`parse` returns; the map is the one that these options build, and the parameters are
these, with the options to be left among them in their places. -/
theorem parse_spelled (ws : List (Word p)) {argv : List CStr}
    (hargv : nonempty argv = ws.flatMap Word.args) (opts : Map) (params : List CStr) :
    p.parse argv opts params =
      (.ok 0, (ws.map Word.item).foldl record opts, params ++ ws.flatMap Word.pushed) := by
  rw [← parse_nonempty, hargv, parse_eq_walk, walk_words]
  rfl

end Lines

/-! ## Examples -/

/-- `-v --verbose=2 x` is refused at its second argument. -/
def refusedArgv : List CStr :=
  [cStr (ascii "-v"), cStr (ascii "--verbose=2"), cStr (ascii "x")]

theorem refused_at_demo : ∃ e opts params,
    flagParse.parse refusedArgv ∅ [] = (.error e, opts, params) ∧
      ∃ pre s post st, refusedArgv = pre ++ s :: post ∧
        forEach flagParse pre (.start ∅ []) = .ok () st ∧
        flagParse.parse pre ∅ [] = (.ok 0, opts, st.params) ∧
        Refuses flagParse s st e params ∧
        ∀ post', flagParse.parse (pre ++ s :: post') ∅ [] = (.error e, opts, params) :=
  ⟨_, _, _, rfl, refused_at rfl⟩

/-- An option that nobody knows. -/
def unknownKey : CStr := cStr (ascii "-q")

/-- The value of `--opt` with an empty argument before it, and `-q`. -/
theorem parse_spelled_demo : ∃ opts,
    twoKeys.parse [longArg optKey, emptyText, plainText, unknownKey] ∅ [] =
      (.ok 0, opts, [unknownKey]) ∧ opts.toList = [(ascii "options", ascii "x")] := by
  have hwords := parse_spelled (p := twoKeys)
    [⟨.value (ascii "options") plainText.bytes, _, _,
      @Spelled.longSeparate _ optKey plainText _
        (by decide) (by decide) (by decide) (by decide) (by decide) (by decide)⟩,
     ⟨.param unknownKey, _, _, .param (by decide) (by decide)⟩]
    (show nonempty [longArg optKey, emptyText, plainText, unknownKey] = _ from by decide) ∅ []
  exact ⟨_, hwords, by decide +kernel⟩

theorem parse_settled_append_demo :
    twoKeys.parse ([plainText] ++ [longArgEq optKey plainText]) ∅ [] =
      match twoKeys.parse [plainText] ∅ [] with
      | (.ok _, opts, params) => twoKeys.parse [longArgEq optKey plainText] opts params
      | r => r := by
  refine parse_settled_append ?_ _
  intro st h
  obtain ⟨-, rfl⟩ := EStateM.Result.ok.inj h
  rfl

end Cor.Options

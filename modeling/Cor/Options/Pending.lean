import Mathlib.Data.List.Basic
import Cor.Options.Reading

/-!
# The option that waits for its value

An option that takes a value and has none attached lives on only in the stage and
in the name that `parse` keeps between two arguments. Every nonempty argument
resolves it: `parse_opt_param` takes it for the value, or throws if it looks like
an option. The end of the command line does not. `parse` returns from there as if
the option had not been given (`nothing_vanishes_iff`).

What the map has for a name that takes values only grows (`forEach_grows`), so a
value once given is in the map that `parse` leaves.
-/

namespace Cor.Options

open Std (ExtTreeMap ExtTreeSet)

section Pending

variable {p : OptParse}

/-! ## Values accumulate -/

/-- Joining some of the values first makes no difference. -/
theorem joined_cons (v : Bytes) (vs ws : List Bytes) :
    joined ((ascii ",").intercalate (v :: vs) :: ws) = joined (v :: vs ++ ws) := by
  induction vs generalizing v with
  | nil => simp [List.intercalate]
  | cons w vs ih =>
    have hmerge := Option.some.inj (joined_merge v w vs)
    have hrest := ih (v ++ ascii "," ++ w)
    rw [hmerge] at hrest
    rw [hrest]
    exact joined_merge v w (vs ++ ws)

theorem joined_append (vs ws : List Bytes) :
    joined ((joined vs).toList ++ ws) = joined (vs ++ ws) := by
  cases vs with
  | nil => rfl
  | cons v vs => exact joined_cons v vs ws

/-- Without a further value a name keeps what it has. -/
theorem joined_toList (x : Option Bytes) : joined (x.toList ++ []) = x := by
  cases x with
  | none => rfl
  | some x => simp [joined]

/-- A further value makes what a name has longer. -/
theorem joined_ne (x : Option Bytes) (v : Bytes) (vs : List Bytes) :
    joined (x.toList ++ v :: vs) ≠ x := by
  cases x with
  | none => simp [joined]
  | some x =>
    intro heq
    have hlen := congrArg List.length (Option.some.inj heq)
    simp [List.intercalate, ascii] at hlen

/-- What one argument gives to a name that takes values. -/
theorem process_grows {name : Bytes} (hw : p.optWithParams.contains name = true) {s : CStr}
    {st st' : State} (h : process p s st = .ok () st') :
    ∃ vs, st'.opts[name]? = joined (st.opts[name]?.toList ++ vs) := by
  have hkeep : st'.opts = st.opts →
      ∃ vs, st'.opts[name]? = joined (st.opts[name]?.toList ++ vs) := by
    intro heq
    exact ⟨[], by rw [heq, joined_toList]⟩
  have hgive : ∀ n v, st'.opts = updated st.opts n v →
      ∃ vs, st'.opts[name]? = joined (st.opts[name]?.toList ++ vs) := by
    intro n v heq
    rw [heq, updated_getElem?]
    by_cases hn : n = name
    · exact ⟨[v], by rw [if_pos hn]⟩
    · exact ⟨[], by rw [if_neg hn, joined_toList]⟩
  by_cases hs : s.bytes = []
  · rw [process_empty hs] at h
    obtain ⟨-, rfl⟩ := EStateM.Result.ok.inj h
    exact hkeep rfl
  · cases hst : st.stage with
    | option =>
      have hdoes := process_does (p := p) hs hst
      rw [h] at hdoes
      generalize p.reading s = reading at hdoes
      cases hdoes with
      | param hopts hstage => exact hkeep hopts
      | @flag n _ hflag hopts hstage =>
        have hne : n ≠ name := by
          rintro rfl
          exact absurd (hw.symm.trans hflag) (by simp)
        refine ⟨[], ?_⟩
        rw [hopts, joined_toList, ExtTreeMap.getElem?_insert]
        simp [hne]
      | value hv hopts hstage => exact hgive _ _ hopts
      | pending hv hopts hstage hname => exact hkeep hopts
    | optParam =>
      have hgives := process_gives (p := p) hs hst
      rw [h] at hgives
      cases hgives with
      | given hdash hopts hstage => exact hgive _ _ hopts

/-- What the rest of a command line gives to a name that takes values. -/
theorem forEach_grows {name : Bytes} (hw : p.optWithParams.contains name = true) :
    ∀ (argv : List CStr) {st st' : State}, forEach p argv st = .ok () st' →
      ∃ vs, st'.opts[name]? = joined (st.opts[name]?.toList ++ vs)
  | [], st, st', h => by
    obtain ⟨-, rfl⟩ := EStateM.Result.ok.inj h
    exact ⟨[], (joined_toList _).symm⟩
  | s :: argv, st, st', h => by
    obtain ⟨st₁, h₁, h₂⟩ := forEach_cons h
    obtain ⟨vs, hvs⟩ := process_grows hw h₁
    obtain ⟨ws, hws⟩ := forEach_grows hw argv h₂
    refine ⟨vs ++ ws, ?_⟩
    rw [hws, hvs, joined_append, List.append_assoc]

/-! ## Every option gets its value, but the last one -/

theorem forEach_split {pre post : List CStr} {st st'' : State}
    (h : forEach p (pre ++ post) st = .ok () st'') :
    ∃ st', forEach p pre st = .ok () st' ∧ forEach p post st' = .ok () st'' := by
  rw [forEach_append] at h
  have hrun : (forEach p pre >>= fun _ => forEach p post).run st = .ok () st'' := h
  rw [EStateM.run_bind] at hrun
  split at hrun
  · next a st' hpre => exact ⟨st', hpre, hrun⟩
  · exact absurd hrun (by simp)

theorem forEach_join {pre post : List CStr} {st st' : State} {res : EStateM.Result Exn State Unit}
    (hpre : forEach p pre st = .ok () st') (hpost : forEach p post st' = res) :
    forEach p (pre ++ post) st = res := by
  rw [forEach_append]
  show EStateM.bind (forEach p pre) _ st = res
  rw [EStateM.bind, hpre]
  exact hpost

theorem forEach_empties {argv : List CStr} (hargv : nonempty argv = []) (st : State) :
    forEach p argv st = .ok () st := by
  rw [← forEach_nonempty, hargv]
  rfl

/-- The argument `s`, which the scanner reaches in `st`, is recognised as an option
whose unified name takes values. -/
structure Recognised (p : OptParse) (pre : List CStr) (s : CStr) (opts : Map)
    (params : List CStr) (st : State) (name : Bytes) : Prop where
  reached : forEach p pre (.start opts params) = .ok () st
  expects : st.stage = .option
  filled : s.bytes ≠ []
  takes : (p.reading s).takes = some name

/-- The option at `s`, reached in `st`, contributes a value: with the first arguments of
what follows it the map is the one before it with the value added, and that value
is in the map `opts` that `parse` leaves. -/
def Contributes (p : OptParse) (s : CStr) (post : List CStr) (st : State) (name : Bytes)
    (opts : Map) : Prop :=
  ∃ (mid rest : List CStr) (v : Bytes) (vs : List Bytes) (st' : State), post = mid ++ rest ∧
    forEach p (s :: mid) st = .ok () st' ∧ st'.opts = updated st.opts name v ∧
    opts[name]? = joined (st.opts[name]?.toList ++ v :: vs)

/-- No option of the command line that takes a value is lost. -/
def NothingVanishes (p : OptParse) (argv : List CStr) (opts₀ : Map) (params₀ : List CStr)
    (opts : Map) : Prop :=
  ∀ (pre : List CStr) (s : CStr) (post : List CStr) (st : State) (name : Bytes),
    argv = pre ++ s :: post → Recognised p pre s opts₀ params₀ st name →
      Contributes p s post st name opts

/-- A value once given stays. -/
theorem contributes_of_given {s : CStr} {mid rest : List CStr} {st st' st'' : State}
    {name v : Bytes} (hw : p.optWithParams.contains name = true)
    (hmid : forEach p (s :: mid) st = .ok () st') (hopts : st'.opts = updated st.opts name v)
    (hrest : forEach p rest st' = .ok () st'') :
    Contributes p s (mid ++ rest) st name st''.opts := by
  obtain ⟨vs, hvs⟩ := forEach_grows hw rest hrest
  refine ⟨mid, rest, v, vs, st', rfl, hmid, hopts, ?_⟩
  rw [hvs, hopts, updated_getElem?, if_pos rfl, joined_append, List.append_assoc]
  rfl

/-- An option whose value is attached to it, or followed by a nonempty argument,
contributes. -/
theorem contributes {s : CStr} {post : List CStr} {st st' : State} {name : Bytes}
    (hst : st.stage = .option) (hs : s.bytes ≠ []) (htakes : (p.reading s).takes = some name)
    (hpost : p.reading s = .pending name → nonempty post ≠ [])
    (h : forEach p (s :: post) st = .ok () st') : Contributes p s post st name st'.opts := by
  obtain ⟨st₁, h₁, h₂⟩ := forEach_cons h
  have hdoes := process_does (p := p) hs hst
  rw [h₁] at hdoes
  have hone : forEach p [s] st = .ok () st₁ := by
    show EStateM.bind (process p s) _ st = _
    rw [EStateM.bind, h₁]
    rfl
  generalize p.reading s = reading at hdoes htakes hpost
  cases hdoes with
  | param hopts hstage => exact absurd htakes (by simp [Reading.takes])
  | flag hw hopts hstage => exact absurd htakes (by simp [Reading.takes])
  | value hw hopts hstage =>
    obtain rfl := Option.some.inj htakes
    exact @contributes_of_given p s [] post _ _ _ _ _ hw hone hopts h₂
  | @pending n _ hw hopts hstage hname =>
    obtain rfl := Option.some.inj htakes
    -- the value is the next argument that is not empty
    obtain ⟨v, vs, hv⟩ := List.exists_cons_of_ne_nil (hpost rfl)
    obtain ⟨skipped, rest, rfl, hskipped, hfilled, -⟩ := List.filter_eq_cons_iff.mp hv
    have hempty : nonempty skipped = [] := List.filter_eq_nil_iff.mpr hskipped
    obtain ⟨st₂, h₃, h₄⟩ := forEach_split h₂
    obtain ⟨-, rfl⟩ := EStateM.Result.ok.inj ((forEach_empties hempty st₁).symm.trans h₃)
    obtain ⟨st₃, h₅, h₆⟩ := forEach_cons h₄
    have hgives := process_gives (p := p) (by simpa using hfilled) hstage
    rw [h₅] at hgives
    cases hgives with
    | given hdash hopts' hstage' =>
      have hlast : forEach p [v] st₁ = .ok () st₃ := by
        show EStateM.bind (process p v) _ st₁ = _
        rw [EStateM.bind, h₅]
        rfl
      have hmid : forEach p ([s] ++ (skipped ++ [v])) st = .ok () st₃ :=
        forEach_join hone (forEach_join (forEach_empties hempty st₁) hlast)
      have hgiven : st₃.opts = updated st.opts n v.bytes := by rw [hopts', hopts, hname]
      have hcontrib : Contributes p s (skipped ++ [v] ++ rest) st n st'.opts :=
        contributes_of_given hw hmid hgiven h₆
      rw [List.append_assoc] at hcontrib
      exact hcontrib

/-- An option that takes a value, comes last and has none attached: nothing but empty
arguments follow it. -/
theorem dangling {post : List CStr} {s : CStr} {st st' : State} {name : Bytes}
    (hs : s.bytes ≠ []) (hread : p.reading s = .pending name) (hpost : nonempty post = [])
    (h : forEach p (s :: post) st = .ok () st') : st.stage = .option ∧ st'.opts = st.opts := by
  obtain ⟨st₁, h₁, h₂⟩ := forEach_cons h
  obtain ⟨-, rfl⟩ := EStateM.Result.ok.inj (h₂.symm.trans (forEach_empties hpost _))
  cases hst : st.stage with
  | option =>
    have hdoes := process_does (p := p) hs hst
    rw [h₁, hread] at hdoes
    cases hdoes with
    | pending hw hopts hstage hname => exact ⟨rfl, hopts⟩
  | optParam =>
    -- it begins with `-`, so it would have been refused as a value
    have hgives := process_gives (p := p) hs hst
    rw [h₁] at hgives
    cases hgives with
    | given hdash hopts hstage =>
      unfold OptParse.reading at hread
      rw [if_neg hdash] at hread
      exact absurd hread (by simp)

theorem parse_ok {argv : List CStr} {opts₀ opts : Map} {params₀ params : List CStr} {rc : Int32}
    (h : p.parse argv opts₀ params₀ = (.ok rc, opts, params)) :
    ∃ st, forEach p argv (.start opts₀ params₀) = .ok () st ∧ st.opts = opts := by
  unfold OptParse.parse at h
  split at h
  next st hrun => exact ⟨st, hrun, (Prod.mk.inj (Prod.mk.inj h).2).1⟩
  next => exact absurd h (by simp)

/-- **No option that takes a value vanishes**, in a parse that returns, exactly when
the last nonempty argument is no such option without its value. -/
theorem nothing_vanishes_iff {argv : List CStr} {opts₀ opts : Map} {params₀ params : List CStr}
    {rc : Int32} (h : p.parse argv opts₀ params₀ = (.ok rc, opts, params)) :
    NothingVanishes p argv opts₀ params₀ opts ↔
      ∀ s name, (nonempty argv).getLast? = some s → p.reading s ≠ .pending name := by
  obtain ⟨stEnd, hrun, rfl⟩ := parse_ok h
  constructor
  · intro hall s name hlast hread
    obtain ⟨init, hinit⟩ := List.getLast?_eq_some_iff.mp hlast
    obtain ⟨before, after, hargv, -, hafter⟩ := List.filter_eq_append_iff.mp hinit
    obtain ⟨skipped, post, rfl, -, hfilled, hpost⟩ := List.filter_eq_cons_iff.mp hafter
    have hs : s.bytes ≠ [] := by simpa using hfilled
    rw [hargv, ← List.append_assoc] at hrun
    obtain ⟨st, hpre, hrest⟩ := forEach_split hrun
    obtain ⟨hst, hopts⟩ := dangling hs hread hpost hrest
    obtain ⟨mid, rest, v, vs, st', -, -, -, hvalue⟩ := hall (before ++ skipped) s post st name
      (by rw [hargv, List.append_assoc]) ⟨hpre, hst, hs, by rw [hread]; rfl⟩
    rw [hopts] at hvalue
    exact joined_ne _ v vs hvalue.symm
  · intro hlast pre s post st name hargv hrec
    rw [hargv] at hrun
    obtain ⟨st', hpre, hrest⟩ := forEach_split hrun
    obtain ⟨-, rfl⟩ := EStateM.Result.ok.inj (hpre.symm.trans hrec.reached)
    refine contributes hrec.expects hrec.filled hrec.takes (fun hread hpost => ?_) hrest
    refine hlast s name ?_ ?_
    · rw [hargv, nonempty, List.filter_append, List.filter_cons_of_pos (by simp [hrec.filled])]
      show (nonempty pre ++ s :: nonempty post).getLast? = some s
      rw [hpost]
      exact List.getLast?_concat
    · exact hread

/-- The command line `-v -o`, whose last option takes a value. -/
def danglingArgv : List CStr := [cStr (ascii "-v"), cStr (ascii "-o")]

/-- From `-v -o` the parse returns with `-v` alone. -/
theorem dangling_vanishes :
    ∃ opts params, demoParse.parse danglingArgv ∅ [] = (.ok 0, opts, params) ∧
      opts[ascii "options"]? = none ∧ ¬ NothingVanishes demoParse danglingArgv ∅ [] opts := by
  have hnone : (demoParse.parse danglingArgv ∅ []).2.1[ascii "options"]? = none := by
    decide +kernel
  refine ⟨_, _, rfl, hnone, fun hall => ?_⟩
  obtain ⟨mid, rest, v, vs, st', -, -, -, hvalue⟩ := hall [cStr (ascii "-v")]
    (cStr (ascii "-o")) [] _ (ascii "options") rfl ⟨rfl, by decide, by decide, by decide⟩
  exact joined_ne _ v vs hvalue.symm

/-- In `-o 1 -v` the option is followed by its value. -/
def settledArgv : List CStr := [cStr (ascii "-o"), cStr (ascii "1"), cStr (ascii "-v")]

theorem nothing_vanishes_demo :
    ∃ opts params, demoParse.parse settledArgv ∅ [] = (.ok 0, opts, params) ∧
      NothingVanishes demoParse settledArgv ∅ [] opts := by
  refine ⟨_, _, rfl, (nothing_vanishes_iff rfl).mpr ?_⟩
  intro s name hlast hread
  obtain rfl : cStr (ascii "-v") = s := Option.some.inj hlast
  have hflag : demoParse.reading (cStr (ascii "-v")) = .flag (ascii "o-wo-param") := by decide
  exact absurd (hflag.symm.trans hread) (by simp)

end Pending

end Cor.Options

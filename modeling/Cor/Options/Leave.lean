import Mathlib.Data.List.Basic
import Cor.Options.Spec

/-!
# Leaving every option among the parameters

With all unified names in `leave_in_params` every argument that a parse reads is
pushed, so the parameters should be the command line again. Each of the lambdas
has its own `push_back`. `process_leaves` says what one argument leaves; the
arguments of a whole command line follow by induction (`forEach_leaves`).

Only a short option with its value attached leaves more than itself: `parse_short`
pushes `-oVALUE` and then `VALUE` once more, where `parse_long` pushes
`--opt=VALUE` once.
-/

namespace Cor.Options

open Std (ExtTreeMap ExtTreeSet)

/-- Every unified option name is to be left among the parameters. -/
structure OptParse.LeavesAll (p : OptParse) : Prop where
  short : ∀ (c : UInt8) (name : Bytes),
    p.shortOpts[c]? = some name → p.leaveInParams.contains name = true
  long : ∀ key name : Bytes, p.longOpts[key]? = some name → p.leaveInParams.contains name = true

/-- A short option that takes a value. -/
def OptParse.takesValue (p : OptParse) (c : UInt8) : Bool :=
  (p.shortOpts[c]?).any fun name => p.optWithParams.contains name

/-- An argument spelled `-cVALUE`, with `c` a short option that takes a value. -/
def OptParse.attachesValue (p : OptParse) (s : CStr) : Bool :=
  s.get 0 == 0x2d && s.get 1 != 0x2d && decide (s.len > 2) && p.takesValue (s.get 1)

/-- What one argument leaves among the parameters. -/
def OptParse.left (p : OptParse) (s : CStr) : List CStr :=
  if s.bytes.isEmpty then [] else if p.attachesValue s then [s, s.drop 2] else [s]

/-- The nonempty arguments. -/
def nonempty (argv : List CStr) : List CStr := argv.filter fun v => !v.bytes.isEmpty

/-! ## One argument -/

/-- From `st` to `st'` the parameters grew by `pushed`, and an option that waits
for its value is one whose value is to be left. -/
structure Leaves (st st' : State) (pushed : List CStr) : Prop where
  params : st'.params = st.params ++ pushed
  waits : st'.stage = .optParam → st'.isLeaveParam = true

section Argument

variable {p : OptParse} {s : CStr} {st st' : State}

theorem pushBack_leaves (hst : st.stage = .option) (h : pushBack s st = .ok () st') :
    Leaves st st' [s] := by
  obtain ⟨-, rfl⟩ := EStateM.Result.ok.inj h
  refine ⟨rfl, ?_⟩
  intro hwait
  exact absurd (hst.symm.trans hwait) (by decide)

/-- A long key that is not found has been written over the name. -/
theorem pushBack_named_leaves {key : Bytes} (hst : st.stage = .option)
    (h : pushBack s { st with name := key } = .ok () st') : Leaves st st' [s] := by
  have hstage : { st with name := key }.stage = .option := hst
  obtain ⟨hparams, hwaits⟩ := pushBack_leaves hstage h
  exact ⟨hparams, hwaits⟩

/-- A short option pushes its argument, and what follows the option character
where that is its value. -/
theorem parseShort_leaves (hp : p.LeavesAll) (hst : st.stage = .option) {len : Nat}
    (h : parseShort p s len st = .ok () st') :
    Leaves st st'
      (if len > 2 ∧ p.takesValue (s.get 1) = true then [s, s.drop 2] else [s]) := by
  unfold parseShort at h
  unfold OptParse.takesValue
  cases hs : p.shortOpts[s.get 1]? with
  | none =>
    rw [hs] at h
    rw [if_neg (by simp)]
    exact pushBack_leaves hst h
  | some name =>
    rw [hs] at h
    have hleave := hp.short _ _ hs
    cases hw : p.optWithParams.contains name with
    | false =>
      simp only [hw, hleave] at h
      rw [if_neg (by simp [hw])]
      obtain ⟨-, rfl⟩ := EStateM.Result.ok.inj h
      exact ⟨rfl, fun _ => rfl⟩
    | true =>
      by_cases hlen : len > 2
      · simp only [hw, hlen, hleave] at h
        rw [if_pos ⟨hlen, by simp [hw]⟩]
        obtain ⟨-, rfl⟩ := EStateM.Result.ok.inj h
        exact ⟨List.append_assoc st.params [s] [s.drop 2], fun _ => rfl⟩
      · simp only [hw, hlen, hleave] at h
        rw [if_neg fun hboth => hlen hboth.1]
        obtain ⟨-, rfl⟩ := EStateM.Result.ok.inj h
        exact ⟨rfl, fun _ => rfl⟩

/-- A long option pushes its argument, whichever way its value is spelled. -/
theorem parseLong_leaves (hp : p.LeavesAll) (hst : st.stage = .option)
    (h : parseLong p s st = .ok () st') : Leaves st st' [s] := by
  unfold parseLong at h
  cases hq : (s.drop 2).strchr 0x3d with
  | none =>
    simp only [hq] at h
    cases hlong : p.longOpts[(s.drop 2).bytes]? with
    | none =>
      rw [hlong] at h
      exact pushBack_named_leaves hst h
    | some name =>
      have hleave := hp.long _ _ hlong
      rw [hlong] at h
      cases hw : p.optWithParams.contains name with
      | false =>
        simp only [hw, hleave] at h
        obtain ⟨-, rfl⟩ := EStateM.Result.ok.inj h
        exact ⟨rfl, fun _ => rfl⟩
      | true =>
        simp only [hw, hleave] at h
        obtain ⟨-, rfl⟩ := EStateM.Result.ok.inj h
        exact ⟨rfl, fun _ => rfl⟩
  | some q =>
    simp only [hq] at h
    generalize (s.drop 2).bytes.take ((s.drop 2).len - q.len) = key at h
    cases hlong : p.longOpts[key]? with
    | none =>
      rw [hlong] at h
      exact pushBack_named_leaves hst h
    | some name =>
      have hleave := hp.long _ _ hlong
      rw [hlong] at h
      cases hw : p.optWithParams.contains name with
      | false =>
        -- a flag with a parameter is the error of `parse_long`
        simp only [hw, hleave] at h
        have herr : EStateM.Result.error (unexpectedParam name q) _ = .ok () st' := h
        exact absurd herr (by simp)
      | true =>
        simp only [hw, hleave] at h
        obtain ⟨-, rfl⟩ := EStateM.Result.ok.inj h
        exact ⟨rfl, fun _ => rfl⟩

/-- The value of an option whose name is left is left too; it is no option itself. -/
theorem parseOptParam_leaves (hl : st.isLeaveParam = true)
    (h : parseOptParam s s.len st = .ok () st') :
    Leaves st st' [s] ∧ ¬ (1 ≤ s.len ∧ s.get 0 = 0x2d) := by
  unfold parseOptParam at h
  split at h
  · have herr : EStateM.Result.error _ st = .ok () st' := h
    exact absurd herr (by simp)
  next hdash =>
    have hrun : (do
        if st.isLeaveParam then pushBack s
        setStage .option : ParseM Unit)
          { st with opts := updated st.opts st.name s.bytes } = .ok () st' := h
    rw [hl] at hrun
    obtain ⟨-, rfl⟩ := EStateM.Result.ok.inj hrun
    exact ⟨⟨rfl, fun hwait => absurd hwait (by simp)⟩, hdash⟩

/-- One argument leaves what `left` says. -/
theorem process_leaves (hp : p.LeavesAll) (hwait : st.stage = .optParam → st.isLeaveParam = true)
    (h : process p s st = .ok () st') : Leaves st st' (p.left s) := by
  unfold OptParse.left
  by_cases hs : s.bytes = []
  · -- an empty argument is skipped
    rw [if_pos (by simp [hs])]
    rw [process_empty hs] at h
    obtain ⟨-, rfl⟩ := EStateM.Result.ok.inj h
    exact ⟨(List.append_nil _).symm, hwait⟩
  · rw [if_neg (by simp [hs])]
    cases hst : st.stage with
    | optParam =>
      have hparam := (process_eq_optParam hs hst).symm.trans h
      obtain ⟨hleaves, hdash⟩ := parseOptParam_leaves (hwait hst) hparam
      have hlen : 1 ≤ s.len := by
        rw [CStr.len, Nat.one_le_iff_ne_zero]
        intro hzero
        exact hs (List.length_eq_zero_iff.mp hzero)
      have hget : s.get 0 ≠ 0x2d := fun hd => hdash ⟨hlen, hd⟩
      rw [if_neg (by simp [OptParse.attachesValue, hget])]
      exact hleaves
    | option =>
      have hopt := (process_eq_option hs hst).symm.trans h
      unfold parseOption at hopt
      by_cases hdash : s.get 0 = 0x2d
      · rw [if_pos hdash] at hopt
        by_cases hlong : s.len > 2 ∧ s.get 1 = 0x2d
        · rw [if_pos hlong] at hopt
          rw [if_neg (by simp [OptParse.attachesValue, hlong.2])]
          exact parseLong_leaves hp hst hopt
        · rw [if_neg hlong] at hopt
          have hleaves := parseShort_leaves hp hst hopt
          -- after `-` and with more than two characters the second is no `-`
          have hiff : p.attachesValue s = true ↔ s.len > 2 ∧ p.takesValue (s.get 1) = true := by
            simp only [OptParse.attachesValue, hdash, Bool.and_eq_true, bne_iff_ne,
              beq_self_eq_true, decide_eq_true_eq, true_and]
            constructor
            · rintro ⟨⟨-, hlen⟩, htakes⟩
              exact ⟨hlen, htakes⟩
            · rintro ⟨hlen, htakes⟩
              exact ⟨⟨fun hd => hlong ⟨hlen, hd⟩, hlen⟩, htakes⟩
          simp only [hiff]
          exact hleaves
      · rw [if_neg hdash] at hopt
        rw [if_neg (by simp [OptParse.attachesValue, hdash])]
        exact pushBack_leaves hst hopt

end Argument

/-! ## Whole command lines -/

section Run

variable {p : OptParse}

theorem forEach_leaves (hp : p.LeavesAll) : ∀ (argv : List CStr) {st st' : State},
    (st.stage = .optParam → st.isLeaveParam = true) → forEach p argv st = .ok () st' →
      st'.params = st.params ++ argv.flatMap p.left
  | [], st, st', _, h => by
    obtain ⟨-, rfl⟩ := EStateM.Result.ok.inj h
    exact (List.append_nil _).symm
  | s :: argv, st, st', hwait, h => by
    obtain ⟨st₁, h₁, h₂⟩ := forEach_cons h
    have hleaves := process_leaves hp hwait h₁
    have hrest := forEach_leaves hp argv hleaves.waits h₂
    rw [hrest, hleaves.params, List.append_assoc, List.flatMap_cons]

theorem forEach_nonempty (q : OptParse) (argv : List CStr) (st : State) :
    forEach q (nonempty argv) st = forEach q argv st := by
  unfold nonempty
  exact forEach_filter argv st

/-- A parser cannot tell a command line from its nonempty arguments. -/
theorem parse_nonempty (q : OptParse) (argv : List CStr) (opts : Map) (params : List CStr) :
    q.parse (nonempty argv) opts params = q.parse argv opts params := by
  have hrun : (forEach q (nonempty argv)).run ⟨opts, params, .option, [], false⟩ =
      (forEach q argv).run ⟨opts, params, .option, [], false⟩ := forEach_nonempty q argv _
  unfold OptParse.parse
  rw [hrun]

theorem nonempty_cons (s : CStr) (argv : List CStr) :
    nonempty (s :: argv) = (if s.bytes.isEmpty then [] else [s]) ++ nonempty argv := by
  unfold nonempty
  cases hs : s.bytes <;> simp [hs]

/-- Where no value is attached to a short option the nonempty arguments are left. -/
theorem flatMap_left : ∀ argv : List CStr,
    (∀ s ∈ argv, p.attachesValue s = false) → argv.flatMap p.left = nonempty argv
  | [], _ => rfl
  | s :: argv, hno => by
    have hrest := flatMap_left argv fun v hv => hno v (List.mem_cons_of_mem _ hv)
    have hs : p.attachesValue s = false := hno s List.mem_cons_self
    rw [List.flatMap_cons, hrest, nonempty_cons, OptParse.left, hs]
    rfl

/-- Each value attached to a short option is one parameter too many. -/
theorem length_left : ∀ argv : List CStr,
    (argv.flatMap p.left).length = (nonempty argv).length + argv.countP p.attachesValue
  | [] => rfl
  | s :: argv => by
    have hrest := length_left argv
    have hone : (p.left s).length =
        (if s.bytes.isEmpty then [] else [s]).length + if p.attachesValue s then 1 else 0 := by
      unfold OptParse.left
      cases hs : s.bytes with
      | nil => simp [OptParse.attachesValue, CStr.get, hs]
      | cons b bs => cases p.attachesValue s <;> rfl
    rw [List.flatMap_cons, List.length_append, hrest, hone, nonempty_cons, List.length_append,
      List.countP_cons]
    omega

/-- **The pass-through.** With every unified name left, a parse that returns adds
the nonempty arguments to the parameters, so that a second parser run over what
was added sees the same command line, exactly when no argument attaches a value
to a short option. -/
theorem leave_passes_through_iff (hp : p.LeavesAll) {argv : List CStr} {opts₀ opts : Map}
    {params₀ params : List CStr} {rc : Int32}
    (h : p.parse argv opts₀ params₀ = (.ok rc, opts, params)) :
    (params = params₀ ++ nonempty argv ∧
      ∀ (q : OptParse) (o : Map) (ps : List CStr),
        q.parse (params.drop params₀.length) o ps = q.parse argv o ps) ↔
    ∀ s ∈ argv, p.attachesValue s = false := by
  have hparams : params = params₀ ++ argv.flatMap p.left := by
    unfold OptParse.parse at h
    split at h
    next st hrun =>
      have heq : st.params = params := (Prod.mk.inj (Prod.mk.inj h).2).2
      rw [← heq]
      exact forEach_leaves hp argv (fun hwait => absurd hwait (by simp)) hrun
    next => exact absurd h (by simp)
  constructor
  · rintro ⟨hpass, -⟩
    have hleft : argv.flatMap p.left = nonempty argv :=
      List.append_cancel_left (hparams.symm.trans hpass)
    have hlen := length_left (p := p) argv
    rw [hleft] at hlen
    have hzero : argv.countP p.attachesValue = 0 := by omega
    intro s hs
    exact eq_false_of_ne_true (List.countP_eq_zero.mp hzero s hs)
  · intro hno
    rw [flatMap_left argv hno] at hparams
    refine ⟨hparams, fun q o ps => ?_⟩
    rw [hparams, List.drop_left]
    exact parse_nonempty q argv o ps

/-- `-o` and `--opt` take a value, and it is left with them. -/
def leaveParse : OptParse :=
  .mkOptParse [(0x6f, ascii "options")] [(ascii "opt", ascii "options")] [ascii "options"]
    [ascii "options"]

theorem leaveParse_leavesAll : leaveParse.LeavesAll := by
  have hname : leaveParse.leaveInParams.contains (ascii "options") = true := by decide
  constructor
  · intro c name h
    by_cases hc : (0x6f : UInt8) = c
    · subst hc
      have hfind : leaveParse.shortOpts[(0x6f : UInt8)]? = some (ascii "options") := by decide
      rw [← Option.some.inj (hfind.symm.trans h)]
      exact hname
    · have hnone : leaveParse.shortOpts[c]? = none := by
        show ((∅ : ExtTreeMap UInt8 Bytes).insertIfNew 0x6f (ascii "options"))[c]? = none
        rw [ExtTreeMap.getElem?_insertIfNew]
        simp [hc]
      exact absurd (hnone.symm.trans h) (by simp)
  · intro key name h
    by_cases hk : ascii "opt" = key
    · subst hk
      have hfind : leaveParse.longOpts[ascii "opt"]? = some (ascii "options") := by decide
      rw [← Option.some.inj (hfind.symm.trans h)]
      exact hname
    · have hnone : leaveParse.longOpts[key]? = none := by
        show ((∅ : Map).insertIfNew (ascii "opt") (ascii "options"))[key]? = none
        rw [ExtTreeMap.getElem?_insertIfNew]
        simp [hk]
      exact absurd (hnone.symm.trans h) (by simp)

/-- The argument `-o4`. -/
def attachedArgv : List CStr := [cStr (ascii "-o4")]

/-- `-o4` leaves `-o4` and `4`. -/
theorem leave_attached_twice :
    leaveParse.LeavesAll ∧ (leaveParse.parse attachedArgv ∅ []).1.isOk = true ∧
      (leaveParse.parse attachedArgv ∅ []).2.2.map CStr.bytes = [ascii "-o4", ascii "4"] ∧
      (leaveParse.parse attachedArgv ∅ []).2.2 ≠ nonempty attachedArgv := by
  have hparams : (leaveParse.parse attachedArgv ∅ []).2.2.map CStr.bytes =
      [ascii "-o4", ascii "4"] := by decide +kernel
  refine ⟨leaveParse_leavesAll, by decide +kernel, hparams, fun heq => ?_⟩
  rw [heq] at hparams
  exact absurd hparams (by decide)

/-- `-o`, `4`, an empty argument, `--opt=5` and `x`. -/
def separateArgv : List CStr :=
  [cStr (ascii "-o"), cStr (ascii "4"), cStr [], cStr (ascii "--opt=5"), cStr (ascii "x")]

theorem leave_passes_through_demo :
    ∃ opts, leaveParse.parse separateArgv ∅ [] = (.ok 0, opts, nonempty separateArgv) := by
  have hok : (leaveParse.parse separateArgv ∅ []).1.isOk = true := by decide +kernel
  cases h : leaveParse.parse separateArgv ∅ [] with
  | mk res outputs =>
  cases res with
  | error e =>
    rw [h] at hok
    exact absurd hok (by simp [Except.isOk, Except.toBool])
  | ok rc =>
  obtain ⟨opts, params⟩ := outputs
  have hpass := (leave_passes_through_iff leaveParse_leavesAll h).mpr (by decide)
  obtain ⟨rfl, -⟩ := hpass
  have hrc : rc = 0 := by
    unfold OptParse.parse at h
    split at h
    · exact (Except.ok.inj (Prod.mk.inj h).1).symm
    · exact absurd h (by simp)
  exact ⟨opts, by rw [hrc]; rfl⟩

end Run

end Cor.Options

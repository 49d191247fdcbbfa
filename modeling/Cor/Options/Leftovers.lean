import Mathlib.Data.List.Basic
import Cor.Options.Reading

/-!
# Parsing the parameters again

With nothing in `leave_in_params`, what `parse` leaves among the parameters is
what it found no option for. `Leftover` says so of one argument, whatever stands
around it, and is the invariant of the parameters that a run builds
(`forEach_leftover`). A scanner that gets only such arguments never leaves the
option stage: it pushes each of them and does nothing else
(`forEach_leftovers`). So a second parse gives the same parameters and no
options.
-/

namespace Cor.Options

open Std (ExtTreeMap ExtTreeSet)

/-- A key of one of the two option maps. -/
inductive Key where
  | short (c : UInt8)
  | long (key : Bytes)
deriving DecidableEq

/-- The key that the option stage looks an argument up by, none for an argument
without a dash. -/
def keyOf (s : CStr) : Option Key :=
  if s.get 0 = 0x2d then
    if s.len > 2 ∧ s.get 1 = 0x2d then some (.long (longKey s)) else some (.short (s.get 1))
  else none

/-- The unified name under a key. -/
def OptParse.nameOf (p : OptParse) : Key → Option Bytes
  | .short c => p.shortOpts[c]?
  | .long key => p.longOpts[key]?

/-- What the option stage finds for an argument. -/
def OptParse.lookup (p : OptParse) (s : CStr) : Option Bytes := (keyOf s).bind p.nameOf

/-- An argument that no option is found for. -/
structure OptParse.Leftover (p : OptParse) (s : CStr) : Prop where
  nonempty : s.bytes ≠ []
  unknown : p.lookup s = none

/-- An option found leaves nothing among the parameters. -/
def leftover (s : CStr) : Option Bytes → List CStr
  | none => [s]
  | some _ => []

section Argument

variable {p : OptParse} {s : CStr} {st st' : State}

/-! ## What the parameters are -/

/-- From `st` to `st'` the parameters grew by `pushed`, and the value of the option
seen last is not left among them. -/
structure Pushes (st st' : State) (pushed : List CStr) : Prop where
  params : st'.params = st.params ++ pushed
  leave : st'.isLeaveParam = false

theorem Did.pushes {its : List Item} {stage : Stage} (h : Did st st' its stage) :
    Pushes st st' (its.filterMap Item.param?) :=
  ⟨h.params, h.leave⟩

theorem Scans.pushes {found : Option Bytes} {attached : Bytes → Option Bytes}
    (h : Scans p s st st' (found.map fun name => (name, attached name))) :
    Pushes st st' (leftover s found) := by
  cases found with
  | none =>
    cases h with
    | param hd => exact hd.pushes
  | some name =>
    generalize ho : (some name).map (fun name => (name, attached name)) = o at h
    cases h with
    | param hd => exact absurd ho (by simp)
    | flag hw hd => exact hd.pushes
    | value hw hd => exact hd.pushes
    | pending hw hd hn => exact hd.pushes

/-- The option stage pushes an argument that it finds no option for, and nothing else. -/
theorem parseOption_pushes (hleave : p.leaveInParams = ∅) (hst : st.stage = .option)
    (hl : st.isLeaveParam = false) (h : parseOption p s s.len st = .ok () st') :
    Pushes st st' (leftover s (p.lookup s)) := by
  unfold parseOption at h
  unfold OptParse.lookup keyOf
  by_cases hdash : s.get 0 = 0x2d
  · rw [if_pos hdash] at h ⊢
    by_cases hlong : s.len > 2 ∧ s.get 1 = 0x2d
    · rw [if_pos hlong] at h ⊢
      exact Scans.pushes (parseLong_scans hleave hst hl h)
    · rw [if_neg hlong] at h ⊢
      exact Scans.pushes (parseShort_scans hleave hst hl h)
  · rw [if_neg hdash] at h ⊢
    exact (pushBack_did hst hl h).pushes

/-- Whatever one argument adds to the parameters is a leftover. -/
theorem process_pushes (hleave : p.leaveInParams = ∅) (hl : st.isLeaveParam = false)
    (h : process p s st = .ok () st') :
    ∃ pushed, Pushes st st' pushed ∧ ∀ v ∈ pushed, p.Leftover v := by
  by_cases hs : s.bytes = []
  · rw [process_empty hs] at h
    obtain ⟨-, rfl⟩ := EStateM.Result.ok.inj h
    exact ⟨[], ⟨(List.append_nil _).symm, hl⟩, by simp⟩
  · cases hst : st.stage with
    | option =>
      rw [process_eq_option hs hst] at h
      have hpush := parseOption_pushes hleave hst hl h
      refine ⟨_, hpush, ?_⟩
      intro v hv
      cases hfound : p.lookup s with
      | none =>
        rw [hfound] at hv
        obtain rfl := List.mem_singleton.mp hv
        exact ⟨hs, hfound⟩
      | some name =>
        rw [hfound] at hv
        exact absurd hv (by simp [leftover])
    | optParam =>
      -- the value of an option goes to the options only
      rw [process_eq_optParam hs hst] at h
      exact ⟨[], (parseOptParam_did hl h).pushes, by simp⟩

/-! ## What the scanner does with them -/

/-- The only other trace a leftover has is the key looked up, which `parse_long`
writes over the name. -/
theorem process_leftover (h : p.Leftover s) (hst : st.stage = .option) :
    ∃ name, process p s st = .ok () { st with params := st.params ++ [s], name := name } := by
  have hfound := h.unknown
  rw [process_eq_option h.nonempty hst]
  unfold parseOption
  unfold OptParse.lookup keyOf at hfound
  by_cases hdash : s.get 0 = 0x2d
  · rw [if_pos hdash] at hfound ⊢
    by_cases hlong : s.len > 2 ∧ s.get 1 = 0x2d
    · rw [if_pos hlong] at hfound ⊢
      have hkey : p.longOpts[longKey s]? = none := hfound
      refine ⟨longKey s, ?_⟩
      unfold parseLong
      rw [longKey_eq] at hkey ⊢
      cases hq : (s.drop 2).strchr 0x3d with
      | none =>
        simp only [hq] at hkey ⊢
        rw [hkey]
        rfl
      | some q =>
        simp only [hq] at hkey ⊢
        rw [hkey]
        rfl
    · rw [if_neg hlong] at hfound ⊢
      have hkey : p.shortOpts[s.get 1]? = none := hfound
      refine ⟨st.name, ?_⟩
      unfold parseShort
      rw [hkey]
      rfl
  · rw [if_neg hdash]
    exact ⟨st.name, rfl⟩

end Argument

/-! ## Whole command lines -/

section Run

variable {p : OptParse}

/-- The parameters of a run stay leftovers. -/
theorem forEach_leftover (hleave : p.leaveInParams = ∅) : ∀ (argv : List CStr) {st st' : State},
    st.isLeaveParam = false → (∀ v ∈ st.params, p.Leftover v) →
      forEach p argv st = .ok () st' → ∀ v ∈ st'.params, p.Leftover v
  | [], st, st', _, hall, h => by
    obtain ⟨-, rfl⟩ := EStateM.Result.ok.inj h
    exact hall
  | s :: argv, st, st', hl, hall, h => by
    obtain ⟨st₁, h₁, h₂⟩ := forEach_cons h
    obtain ⟨pushed, hpush, hnew⟩ := process_pushes hleave hl h₁
    refine forEach_leftover hleave argv hpush.leave ?_ h₂
    intro v hv
    rw [hpush.params] at hv
    rcases List.mem_append.mp hv with hold | hpushed
    · exact hall v hold
    · exact hnew v hpushed

/-- A command line of leftovers becomes the parameters as it is. -/
theorem forEach_leftovers : ∀ (argv : List CStr) {st : State},
    (∀ v ∈ argv, p.Leftover v) → st.stage = .option →
      ∃ name, forEach p argv st = .ok () { st with params := st.params ++ argv, name := name }
  | [], st, _, _ => ⟨st.name, by rw [List.append_nil]; rfl⟩
  | s :: argv, st, hall, hst => by
    obtain ⟨name, hone⟩ := process_leftover (hall s List.mem_cons_self) hst
    have hrest' : ∀ v ∈ argv, p.Leftover v := fun v hv => hall v (List.mem_cons_of_mem _ hv)
    have hst₁ : ({ st with params := st.params ++ [s], name := name } : State).stage = .option :=
      hst
    obtain ⟨name', hrest⟩ := forEach_leftovers argv hrest' hst₁
    refine ⟨name', ?_⟩
    show EStateM.bind (process p s) (fun _ => forEach p argv) st = _
    rw [EStateM.bind, hone]
    show forEach p argv _ = _
    rw [hrest, List.append_assoc]
    rfl

/-- **Parsing the leftovers is a no-op.** With nothing to be left among the
parameters, the parameters of a parse that returns are, parsed from fresh outputs,
the parameters again, and no options. -/
theorem leftovers_parse_again (hleave : p.leaveInParams = ∅) {argv : List CStr}
    {opts₀ opts : Map} {params : List CStr} {rc : Int32}
    (h : p.parse argv opts₀ [] = (.ok rc, opts, params)) :
    p.parse params ∅ [] = (.ok 0, ∅, params) := by
  have hall : ∀ v ∈ params, p.Leftover v := by
    unfold OptParse.parse at h
    split at h
    next st hrun =>
      obtain ⟨-, -, rfl⟩ : (0 : Int32) = rc ∧ st.opts = opts ∧ st.params = params := by
        simpa using h
      have hstart : ∀ v ∈ (State.start opts₀ []).params, p.Leftover v := by
        intro v hv
        exact absurd hv (by simp [State.start])
      exact forEach_leftover hleave argv rfl hstart hrun
    next => exact absurd h (by simp)
  have hstage : (State.start ∅ []).stage = .option := rfl
  obtain ⟨name, hrun⟩ := forEach_leftovers params hall hstage
  unfold OptParse.parse
  rw [show (⟨∅, [], .option, [], false⟩ : State) = .start ∅ [] from rfl, EStateM.run, hrun]
  rfl

/-- `-o 1 -x rest --unknown=2 -`, with `-o` the only option. -/
def leftoverArgv : List CStr :=
  [cStr (ascii "-o"), cStr (ascii "1"), cStr (ascii "-x"), cStr (ascii "rest"),
    cStr (ascii "--unknown=2"), cStr (ascii "-")]

theorem leftovers_parse_again_demo :
    ∃ opts params, demoParse.parse leftoverArgv ∅ [] = (.ok 0, opts, params) ∧
      params.map CStr.bytes =
        [ascii "-x", ascii "rest", ascii "--unknown=2", ascii "-"] ∧
      demoParse.parse params ∅ [] = (.ok 0, ∅, params) := by
  have hrun : ((demoParse.parse leftoverArgv ∅ []).1 = .ok 0 ∧
      (demoParse.parse leftoverArgv ∅ []).2.2.map CStr.bytes =
        [ascii "-x", ascii "rest", ascii "--unknown=2", ascii "-"]) := ⟨by rfl, by rfl⟩
  cases h : demoParse.parse leftoverArgv ∅ [] with
  | mk res outputs =>
    obtain ⟨opts, params⟩ := outputs
    rw [h] at hrun
    obtain ⟨hok, hparams⟩ := hrun
    obtain rfl : res = .ok 0 := hok
    exact ⟨opts, params, rfl, hparams, leftovers_parse_again (by decide) h⟩

end Run

end Cor.Options

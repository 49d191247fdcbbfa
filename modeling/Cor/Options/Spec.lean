import Mathlib.Data.List.Basic
import Cor.Options.OptParse

/-!
# What `OptParse::parse` computes when nothing is left among the parameters

The specification reads the command line without a machine: `items` is the list
of what the nonempty arguments mean, from left to right, an option that takes a
value and has none attached taking the next argument. `parse_meets_spec` says
that the parameters and the map of a normal return are read off that list.

The proof goes through `Did`: between two states the outputs grew by a list of
items. One argument does to the state what its item does (`parseOption_scans`,
`parseOptParam_did`), and the only other thing that persists is a pending option
name.

The hypotheses on the configuration are where `parse` and the reading of the
command line would part: `-` is looked up as the short key NUL and `--` as the
short key `-`, and `--=v` as the empty long key.
-/

namespace Cor.Options

open Std (ExtTreeMap ExtTreeSet)

/-! ## The command line as a list of items -/

/-- What an argument, or an option and the argument after it, stands for. -/
inductive Item where
  | param (s : CStr)
  | flag (name : Bytes)
  | value (name v : Bytes)
deriving DecidableEq

def Item.param? : Item → Option CStr
  | .param s => some s
  | _ => none

/-- The value an item gives to `name`. -/
def Item.valueOf (name : Bytes) : Item → Option Bytes
  | .value n v => if n = name then some v else none
  | _ => none

/-- An argument read as an option: its unified name, and the text attached to it
if there is any. `-c…` is the short option `c`, `--L` and `--L=v` the long
option `L`. -/
def OptParse.readOption (p : OptParse) : Bytes → Option (Bytes × Option Bytes)
  | 0x2d :: 0x2d :: text =>
    (p.longOpts[text.takeWhile (· != 0x3d)]?).map fun name =>
      (name, (text.dropWhile (· != 0x3d)).tail?)
  | 0x2d :: c :: text =>
    (p.shortOpts[c]?).map fun name => (name, if text = [] then none else some text)
  | _ => none

/-- The items of a command line without empty arguments. An option at its end
that still needs a value is none. -/
def OptParse.items (p : OptParse) : List CStr → List Item
  | [] => []
  | s :: rest =>
    match p.readOption s.bytes with
    | none => .param s :: items p rest
    | some (name, attached) =>
      if p.optWithParams.contains name then
        match attached with
        | some v => .value name v :: items p rest
        | none =>
          match rest with
          | [] => []
          | v :: rest' => .value name v.bytes :: items p rest'
      else .flag name :: items p rest

/-! ## The map that a list of items builds -/

/-- The map after one item. -/
def record (opts : Map) : Item → Map
  | .param _ => opts
  | .flag name => opts.insert name []
  | .value name v => updated opts name v

/-- The comma-join of the values, nothing if there are none. -/
def joined : List Bytes → Option Bytes
  | [] => none
  | v :: vs => some ((ascii ",").intercalate (v :: vs))

/-- The comma-join of all values of an option, in order. -/
def valueJoin (name : Bytes) (its : List Item) : Option Bytes :=
  joined (its.filterMap (Item.valueOf name))

theorem joined_merge (x v : Bytes) (vs : List Bytes) :
    joined ((x ++ ascii "," ++ v) :: vs) = joined (x :: v :: vs) := by
  cases vs with
  | nil => simp [joined, List.intercalate]
  | cons w ws => simp [joined, List.intercalate]

theorem updated_getElem? (opts : Map) (name v k : Bytes) :
    (updated opts name v)[k]? =
      if name = k then joined (opts[k]?.toList ++ [v]) else opts[k]? := by
  unfold updated
  by_cases hk : name = k
  · subst hk
    cases ho : opts[name]? with
    | none => simp [joined]
    | some x => simp [joined, List.intercalate]
  · cases ho : opts[name]? with
    | none => simp [ExtTreeMap.getElem?_insert, hk]
    | some x => simp [ExtTreeMap.getElem?_insert, hk]

/-- A name that takes no value is mapped by its flags only. -/
theorem record_flag {k : Bytes} : ∀ (its : List Item) (opts : Map),
    (∀ v, Item.value k v ∉ its) →
      (its.foldl record opts)[k]? = if Item.flag k ∈ its then some [] else opts[k]?
  | [], opts, _ => by simp
  | it :: its, opts, hv => by
    have hrest := record_flag its (record opts it) fun v hmem => hv v (List.mem_cons_of_mem _ hmem)
    rw [List.foldl_cons, hrest]
    by_cases hmem : Item.flag k ∈ its
    · simp [hmem]
    · rw [if_neg hmem]
      cases it with
      | param s => simp [record, hmem]
      | flag name =>
        by_cases hk : name = k
        · simp [record, hk]
        · simp [record, ExtTreeMap.getElem?_insert, hk, Ne.symm hk, hmem]
      | value name v =>
        have hk : name ≠ k := fun hk => hv v (by rw [hk]; exact List.mem_cons_self)
        rw [record, updated_getElem?, if_neg hk]
        simp [hmem]

/-- A name that is no flag is mapped to the join of what it had and its values. -/
theorem record_value {k : Bytes} : ∀ (its : List Item) (opts : Map), Item.flag k ∉ its →
    (its.foldl record opts)[k]? =
      joined (opts[k]?.toList ++ its.filterMap (Item.valueOf k))
  | [], opts, _ => by
    cases ho : opts[k]? <;> simp [ho, joined, List.intercalate]
  | it :: its, opts, hf => by
    have hrest := record_value its (record opts it) fun hmem => hf (List.mem_cons_of_mem _ hmem)
    rw [List.foldl_cons, hrest]
    cases it with
    | param s => simp [record, List.filterMap_cons, Item.valueOf]
    | flag name =>
      have hk : name ≠ k := fun hk => hf (by rw [hk]; exact List.mem_cons_self)
      simp [record, List.filterMap_cons, Item.valueOf, ExtTreeMap.getElem?_insert, hk]
    | value name v =>
      by_cases hk : name = k
      · subst hk
        rw [record, updated_getElem?, if_pos rfl]
        cases ho : opts[name]? with
        | none => simp [joined, Item.valueOf]
        | some x =>
          have hmerge := joined_merge x v (its.filterMap (Item.valueOf name))
          simpa [joined, Item.valueOf, List.intercalate] using hmerge
      · rw [record, updated_getElem?, if_neg hk]
        simp [Item.valueOf, hk]

/-! ## One argument -/

/-- Between `st` and `st'` the outputs grew by the items, and the scanner is in
the given stage. -/
structure Did (st st' : State) (its : List Item) (stage : Stage) : Prop where
  opts : st'.opts = its.foldl record st.opts
  params : st'.params = st.params ++ its.filterMap Item.param?
  stage : st'.stage = stage
  leave : st'.isLeaveParam = false

theorem Did.trans {st st₁ st₂ : State} {its its' : List Item} {stage stage' : Stage}
    (h : Did st st₁ its stage) (h' : Did st₁ st₂ its' stage') :
    Did st st₂ (its ++ its') stage' where
  opts := by rw [h'.opts, h.opts, List.foldl_append]
  params := by rw [h'.params, h.params, List.filterMap_append, List.append_assoc]
  stage := h'.stage
  leave := h'.leave

/-- A configuration in which the lookups that go astray find nothing, and that
leaves no option among the parameters. -/
structure Plain (p : OptParse) : Prop where
  noDash : p.shortOpts[(0x2d : UInt8)]? = none
  noNul : p.shortOpts[(0 : UInt8)]? = none
  noEmpty : p.longOpts[([] : Bytes)]? = none
  noLeave : p.leaveInParams = ∅

/-- What an argument `s`, read as the given option, does to the scanner. -/
inductive Scans (p : OptParse) (s : CStr) (st st' : State) : Option (Bytes × Option Bytes) → Prop
  | param (h : Did st st' [.param s] .option) : Scans p s st st' none
  | flag {name : Bytes} {attached : Option Bytes} (hw : p.optWithParams.contains name = false)
      (h : Did st st' [.flag name] .option) : Scans p s st st' (some (name, attached))
  | value {name v : Bytes} (hw : p.optWithParams.contains name = true)
      (h : Did st st' [.value name v] .option) : Scans p s st st' (some (name, some v))
  | pending {name : Bytes} (hw : p.optWithParams.contains name = true)
      (h : Did st st' [] .optParam) (hn : st'.name = name) : Scans p s st st' (some (name, none))

section Argument

variable {p : OptParse} {s : CStr} {st st' : State}

theorem pushBack_did (hst : st.stage = .option) (hl : st.isLeaveParam = false)
    (h : pushBack s st = .ok () st') : Did st st' [.param s] .option := by
  obtain ⟨-, rfl⟩ := EStateM.Result.ok.inj h
  exact ⟨rfl, rfl, hst, hl⟩

theorem parseShort_scans (hleave : p.leaveInParams = ∅) (hst : st.stage = .option)
    (hl : st.isLeaveParam = false) {len : Nat} (h : parseShort p s len st = .ok () st') :
    Scans p s st st' ((p.shortOpts[s.get 1]?).map fun name =>
      (name, if len > 2 then some (s.drop 2).bytes else none)) := by
  unfold parseShort at h
  cases hs : p.shortOpts[s.get 1]? with
  | none =>
    rw [hs] at h
    exact .param (pushBack_did hst hl h)
  | some name =>
    rw [hs, hleave] at h
    show Scans p s st st' (some (name, _))
    cases hw : p.optWithParams.contains name with
    | false =>
      simp only [hw] at h
      obtain ⟨-, rfl⟩ := EStateM.Result.ok.inj h
      exact .flag hw ⟨rfl, (List.append_nil _).symm, hst, rfl⟩
    | true =>
      simp only [hw] at h
      by_cases hlen : len > 2
      · simp only [hlen] at h
        rw [if_pos hlen]
        obtain ⟨-, rfl⟩ := EStateM.Result.ok.inj h
        exact .value hw ⟨rfl, (List.append_nil _).symm, hst, rfl⟩
      · simp only [hlen] at h
        rw [if_neg hlen]
        obtain ⟨-, rfl⟩ := EStateM.Result.ok.inj h
        exact .pending hw ⟨rfl, (List.append_nil _).symm, rfl, rfl⟩ rfl

theorem parseLong_scans (hleave : p.leaveInParams = ∅) (hst : st.stage = .option)
    (hl : st.isLeaveParam = false) (h : parseLong p s st = .ok () st') :
    Scans p s st st' ((p.longOpts[(s.bytes.drop 2).takeWhile (· != 0x3d)]?).map fun name =>
      (name, ((s.bytes.drop 2).dropWhile (· != 0x3d)).tail?)) := by
  unfold parseLong at h
  cases hq : (s.drop 2).strchr 0x3d with
  | none =>
    have hdrop := CStr.strchr_eq_none hq
    rw [CStr.drop_bytes] at hdrop
    have hkey : (s.bytes.drop 2).takeWhile (· != 0x3d) = (s.drop 2).bytes := by
      have hsplit := List.takeWhile_append_dropWhile (p := (· != 0x3d)) (l := s.bytes.drop 2)
      rw [hdrop, List.append_nil] at hsplit
      exact hsplit
    rw [hdrop, hkey]
    simp only [hq] at h
    cases hlong : p.longOpts[(s.drop 2).bytes]? with
    | none =>
      rw [hlong] at h
      obtain ⟨-, rfl⟩ := EStateM.Result.ok.inj h
      exact .param ⟨rfl, rfl, hst, hl⟩
    | some name =>
      rw [hlong, hleave] at h
      show Scans p s st st' (some (name, none))
      cases hw : p.optWithParams.contains name with
      | false =>
        simp only [hw] at h
        obtain ⟨-, rfl⟩ := EStateM.Result.ok.inj h
        exact .flag hw ⟨rfl, (List.append_nil _).symm, hst, rfl⟩
      | true =>
        simp only [hw] at h
        obtain ⟨-, rfl⟩ := EStateM.Result.ok.inj h
        exact .pending hw ⟨rfl, (List.append_nil _).symm, rfl, rfl⟩ rfl
  | some q =>
    obtain ⟨hdrop, hkey, hne⟩ := CStr.strchr_eq_some hq
    rw [CStr.drop_bytes] at hdrop hkey
    have htail : q.bytes.tail? = some (q.drop 1).bytes := by
      obtain ⟨b, bs, hb⟩ := List.exists_cons_of_ne_nil hne
      rw [CStr.drop_bytes, hb]
      rfl
    rw [← hdrop, htail]
    simp only [hq, CStr.drop_bytes, hkey] at h
    cases hlong : p.longOpts[(s.bytes.drop 2).takeWhile (· != 0x3d)]? with
    | none =>
      rw [hlong] at h
      obtain ⟨-, rfl⟩ := EStateM.Result.ok.inj h
      exact .param ⟨rfl, rfl, hst, hl⟩
    | some name =>
      rw [hlong, hleave] at h
      show Scans p s st st' (some (name, some (q.drop 1).bytes))
      cases hw : p.optWithParams.contains name with
      | false =>
        -- a flag with a parameter is the error of `parse_long`
        simp only [hw] at h
        have herr : EStateM.Result.error (unexpectedParam name q) _ = .ok () st' := h
        exact absurd herr (by simp)
      | true =>
        simp only [hw] at h
        obtain ⟨-, rfl⟩ := EStateM.Result.ok.inj h
        exact .value hw ⟨rfl, (List.append_nil _).symm, hst, rfl⟩

/-- The two branches of `parse_option` read the option that `readOption` reads. -/
theorem parseOption_scans (hp : Plain p) (hs : s.bytes ≠ []) (hst : st.stage = .option)
    (hl : st.isLeaveParam = false) (h : parseOption p s s.len st = .ok () st') :
    Scans p s st st' (p.readOption s.bytes) := by
  unfold parseOption at h
  have hnul := s.noNul
  obtain ⟨b, text, hb⟩ := List.exists_cons_of_ne_nil hs
  have hget : s.get 0 = b := by rw [CStr.get, hb]; rfl
  by_cases hdash : b = 0x2d
  · rw [if_pos (hget.trans hdash)] at h
    subst hdash
    cases text with
    | nil =>
      rw [if_neg (by simp [CStr.len, hb])] at h
      have hshort := parseShort_scans hp.noLeave hst hl h
      rw [show s.get 1 = 0 by rw [CStr.get, hb]; rfl, hp.noNul] at hshort
      rw [hb]
      exact hshort
    | cons c text =>
      have hc : s.get 1 = c := by rw [CStr.get, hb]; rfl
      by_cases hlong : s.len > 2 ∧ s.get 1 = 0x2d
      · rw [if_pos hlong] at h
        have hscan := parseLong_scans hp.noLeave hst hl h
        obtain rfl : c = 0x2d := hc.symm.trans hlong.2
        rw [hb] at hscan ⊢
        exact hscan
      · rw [if_neg hlong] at h
        have hscan := parseShort_scans hp.noLeave hst hl h
        rw [hc] at hscan
        by_cases hcd : c = 0x2d
        · -- the argument is `--`
          subst hcd
          obtain rfl : text = [] := by
            have hlen : ¬ s.len > 2 := fun hlen => hlong ⟨hlen, hc⟩
            rw [CStr.len, hb] at hlen
            cases text with
            | nil => rfl
            | cons d text => exact absurd (by simp) hlen
          rw [hp.noDash] at hscan
          rw [hb]
          show Scans p s st st' ((p.longOpts[([] : Bytes)]?).map _)
          rw [hp.noEmpty]
          exact hscan
        · have hread : p.readOption s.bytes = (p.shortOpts[c]?).map fun name =>
              (name, if text = [] then none else some text) := by
            rw [hb]
            unfold OptParse.readOption
            split
            · next heq => simp at heq; exact absurd heq.1 hcd
            · next heq => simp at heq; rw [heq.1, heq.2]
            · next hno => exact absurd rfl (hno c text)
          have hlen : (if s.len > 2 then some (s.drop 2).bytes else none) =
              if text = [] then none else some text := by
            rw [CStr.len, CStr.drop_bytes, hb]
            cases text <;> simp
          rw [hread]
          rw [hlen] at hscan
          exact hscan
  · rw [if_neg (by rw [hget]; exact hdash)] at h
    have hread : p.readOption s.bytes = none := by
      rw [hb]
      unfold OptParse.readOption
      split
      · next heq => simp at heq; exact absurd heq.1 hdash
      · next heq => simp at heq; exact absurd heq.1 hdash
      · rfl
    rw [hread]
    exact .param (pushBack_did hst hl h)

/-- The argument after an option that waits for its value. -/
theorem parseOptParam_did (hl : st.isLeaveParam = false)
    (h : parseOptParam s s.len st = .ok () st') :
    Did st st' [.value st.name s.bytes] .option := by
  unfold parseOptParam at h
  split at h
  · have herr : EStateM.Result.error _ st = .ok () st' := h
    exact absurd herr (by simp)
  · have hrun : (do
        if st.isLeaveParam then pushBack s
        setStage .option : ParseM Unit)
          { st with opts := updated st.opts st.name s.bytes } = .ok () st' := h
    rw [hl] at hrun
    obtain ⟨-, rfl⟩ := EStateM.Result.ok.inj hrun
    exact ⟨rfl, (List.append_nil _).symm, rfl, rfl⟩

end Argument

/-! ## Whole command lines -/

section Run

variable {p : OptParse}

theorem forEach_cons {v : CStr} {argv : List CStr} {st st' : State}
    (h : forEach p (v :: argv) st = .ok () st') :
    ∃ st₁, process p v st = .ok () st₁ ∧ forEach p argv st₁ = .ok () st' := by
  have hrun : (process p v >>= fun _ => forEach p argv).run st = .ok () st' := h
  rw [EStateM.run_bind] at hrun
  split at hrun
  · next a st₁ h₁ => exact ⟨st₁, h₁, hrun⟩
  · exact absurd hrun (by simp)

/-- An empty argument is skipped. -/
theorem process_empty {s : CStr} {st : State} (hs : s.bytes = []) :
    process p s st = .ok () st := by
  unfold process
  rw [if_pos (by rw [CStr.len, hs]; rfl)]
  rfl

/-- Skipping the empty arguments beforehand changes no run. -/
theorem forEach_filter (argv : List CStr) (st : State) :
    forEach p (argv.filter fun v => !v.bytes.isEmpty) st = forEach p argv st := by
  induction argv generalizing st with
  | nil => rfl
  | cons v argv ih =>
    have hcons : ∀ (w : List CStr), forEach p (v :: w) st =
        (process p v >>= fun _ => forEach p w) st := fun _ => rfl
    cases hv : v.bytes with
    | nil =>
      rw [List.filter_cons_of_neg (by simp [hv]), ih, hcons]
      show _ = EStateM.bind (process p v) _ st
      rw [EStateM.bind, process_empty hv]
    | cons b bs =>
      rw [List.filter_cons_of_pos (by simp [hv]), hcons, hcons]
      show EStateM.bind (process p v) _ st = EStateM.bind (process p v) _ st
      rw [EStateM.bind, EStateM.bind]
      cases process p v st with
      | ok a st₁ => exact ih st₁
      | error e st₁ => rfl

theorem process_eq_option {s : CStr} (hs : s.bytes ≠ []) {st : State} (hst : st.stage = .option) :
    process p s st = parseOption p s s.len st := by
  unfold process
  rw [if_neg (by rw [CStr.len, List.length_eq_zero_iff]; exact hs)]
  obtain ⟨opts, params, stage, name, isLeaveParam⟩ := st
  obtain rfl := hst
  rfl

theorem process_eq_optParam {s : CStr} (hs : s.bytes ≠ []) {st : State}
    (hst : st.stage = .optParam) : process p s st = parseOptParam s s.len st := by
  unfold process
  rw [if_neg (by rw [CStr.len, List.length_eq_zero_iff]; exact hs)]
  obtain ⟨opts, params, stage, name, isLeaveParam⟩ := st
  obtain rfl := hst
  rfl

/-- From the option stage the scanner does what the items of the arguments say. -/
theorem forEach_did (hp : Plain p) : ∀ (argv : List CStr) {st st' : State},
    (∀ v ∈ argv, v.bytes ≠ []) → st.stage = .option → st.isLeaveParam = false →
      forEach p argv st = .ok () st' → ∃ stage, Did st st' (p.items argv) stage
  | [], st, st', _, _, hl, h => by
    obtain ⟨-, rfl⟩ := EStateM.Result.ok.inj h
    exact ⟨st.stage, by unfold OptParse.items; exact ⟨rfl, (List.append_nil _).symm, rfl, hl⟩⟩
  | s :: rest, st, st', hne, hst, hl, h => by
    obtain ⟨st₁, h₁, h₂⟩ := forEach_cons h
    have hs : s.bytes ≠ [] := hne s List.mem_cons_self
    have hscan := parseOption_scans hp hs hst hl ((process_eq_option hs hst).symm.trans h₁)
    have hne' : ∀ v ∈ rest, v.bytes ≠ [] := fun v hv => hne v (List.mem_cons_of_mem _ hv)
    unfold OptParse.items
    cases hread : p.readOption s.bytes with
    | none =>
      rw [hread] at hscan
      obtain ⟨hd⟩ := hscan
      obtain ⟨stage, hrest⟩ := forEach_did hp rest hne' hd.stage hd.leave h₂
      exact ⟨stage, hd.trans hrest⟩
    | some o =>
      obtain ⟨name, attached⟩ := o
      rw [hread] at hscan
      cases hscan with
      | flag hw hd =>
        obtain ⟨stage, hrest⟩ := forEach_did hp rest hne' hd.stage hd.leave h₂
        simp only [hw]
        exact ⟨stage, hd.trans hrest⟩
      | value hw hd =>
        obtain ⟨stage, hrest⟩ := forEach_did hp rest hne' hd.stage hd.leave h₂
        simp only [hw]
        exact ⟨stage, hd.trans hrest⟩
      | pending hw hd hn =>
        simp only [hw]
        cases rest with
        | nil =>
          obtain ⟨-, rfl⟩ := EStateM.Result.ok.inj h₂
          exact ⟨_, hd⟩
        | cons v rest' =>
          -- the next argument is the value, whatever it looks like
          obtain ⟨st₂, h₃, h₄⟩ := forEach_cons h₂
          have hval := parseOptParam_did hd.leave
            ((process_eq_optParam (hne' v List.mem_cons_self) hd.stage).symm.trans h₃)
          rw [hn] at hval
          obtain ⟨stage, hrest⟩ := forEach_did hp rest'
            (fun w hw => hne' w (List.mem_cons_of_mem _ hw)) hval.stage hval.leave h₄
          exact ⟨stage, (hd.trans hval).trans hrest⟩

/-- A flag takes no value, a value belongs to a name that takes one. -/
def Item.Fits (p : OptParse) : Item → Prop
  | .param _ => True
  | .flag name => p.optWithParams.contains name = false
  | .value name _ => p.optWithParams.contains name = true

theorem items_fit (argv : List CStr) : ∀ it ∈ p.items argv, it.Fits p := by
  induction argv using OptParse.items.induct p with
  | case1 => simp [OptParse.items]
  | case2 s rest hread ih =>
    unfold OptParse.items
    simp only [hread]
    exact List.forall_mem_cons.mpr ⟨trivial, ih⟩
  | case3 s rest name hw v hread ih =>
    unfold OptParse.items
    simp only [hread, hw]
    exact List.forall_mem_cons.mpr ⟨hw, ih⟩
  | case4 s name hw hread =>
    unfold OptParse.items
    simp [hread, hw]
  | case5 s name hw v rest' hread ih =>
    unfold OptParse.items
    simp only [hread, hw]
    exact List.forall_mem_cons.mpr ⟨hw, ih⟩
  | case6 s rest name attached hread hw ih =>
    have hw' : p.optWithParams.contains name = false := eq_false_of_ne_true hw
    unfold OptParse.items
    simp only [hread, hw']
    exact List.forall_mem_cons.mpr ⟨hw', ih⟩

theorem mem_valuesOf {k : Bytes} {its : List Item} :
    its.filterMap (Item.valueOf k) ≠ [] ↔ ∃ v, Item.value k v ∈ its := by
  constructor
  · intro hne
    obtain ⟨v, hv⟩ := List.exists_mem_of_ne_nil _ hne
    obtain ⟨it, hit, hval⟩ := List.mem_filterMap.mp hv
    cases it with
    | param s => exact absurd hval (by simp [Item.valueOf])
    | flag n => exact absurd hval (by simp [Item.valueOf])
    | value n w =>
      by_cases hn : n = k
      · subst hn
        exact ⟨w, hit⟩
      · exact absurd hval (by simp [Item.valueOf, hn])
  · rintro ⟨v, hv⟩
    exact List.ne_nil_of_mem (a := v) (List.mem_filterMap.mpr ⟨_, hv, by simp [Item.valueOf]⟩)

theorem valueJoin_isSome {k : Bytes} {its : List Item} :
    (valueJoin k its).isSome = true ↔ ∃ v, Item.value k v ∈ its := by
  rw [← mem_valuesOf]
  unfold valueJoin
  cases its.filterMap (Item.valueOf k) <;> simp [joined]

/-- A name that takes a value is no flag. -/
theorem not_flag {k : Bytes} {its : List Item} (hfit : ∀ it ∈ its, it.Fits p)
    (hk : p.optWithParams.contains k = true) : Item.flag k ∉ its := by
  intro hmem
  have hcontra : p.optWithParams.contains k = false := hfit _ hmem
  rw [hk] at hcontra
  exact absurd hcontra (by simp)

/-- A name that takes no value gets none. -/
theorem not_value {k : Bytes} {its : List Item} (hfit : ∀ it ∈ its, it.Fits p)
    (hk : p.optWithParams.contains k = false) : ¬ ∃ v, Item.value k v ∈ its := by
  rintro ⟨v, hmem⟩
  have hcontra : p.optWithParams.contains k = true := hfit _ hmem
  rw [hk] at hcontra
  exact absurd hcontra (by simp)

/-- **What `parse` returns.** With nothing left among the parameters, and from
empty outputs, a normal return gives: as parameters the parameter arguments in
order; as keys the flags and the names that got a value; for a flag the empty
string; and for a name that got values their comma-join, in order. -/
theorem parse_meets_spec (hp : Plain p) {argv : List CStr} {rc : Int32} {opts : Map}
    {params : List CStr} (h : p.parse argv ∅ [] = (.ok rc, opts, params)) :
    let its := p.items (argv.filter fun v => !v.bytes.isEmpty)
    rc = 0 ∧
    params = its.filterMap Item.param? ∧
    (∀ k, k ∈ opts ↔ Item.flag k ∈ its ∨ ∃ v, Item.value k v ∈ its) ∧
    (∀ k, Item.flag k ∈ its → opts[k]? = some []) ∧
    (∀ k, p.optWithParams.contains k = true → opts[k]? = valueJoin k its) := by
  intro its
  unfold OptParse.parse at h
  split at h
  next st hrun =>
    obtain ⟨hrc, rfl, rfl⟩ : (0 : Int32) = rc ∧ st.opts = opts ∧ st.params = params := by
      simpa using h
    have hargs : ∀ v ∈ argv.filter fun v => !v.bytes.isEmpty, v.bytes ≠ [] := by
      intro v hv
      simpa using (List.mem_filter.mp hv).2
    obtain ⟨stage, hd⟩ := forEach_did hp _ hargs rfl rfl ((forEach_filter argv _).trans hrun)
    have hfit : ∀ it ∈ its, it.Fits p := items_fit _
    have hflag : ∀ k, p.optWithParams.contains k = false →
        st.opts[k]? = if Item.flag k ∈ its then some [] else none := by
      intro k hk
      rw [hd.opts, record_flag its _ fun v hv => not_value hfit hk ⟨v, hv⟩]
      simp
    have hvalue : ∀ k, p.optWithParams.contains k = true → st.opts[k]? = valueJoin k its := by
      intro k hk
      rw [hd.opts, record_value its _ (not_flag hfit hk)]
      simp [valueJoin]
    refine ⟨hrc.symm, hd.params, fun k => ?_, fun k hmem => ?_, hvalue⟩
    · rw [ExtTreeMap.mem_iff_isSome_getElem?]
      cases hk : p.optWithParams.contains k with
      | false =>
        have hnoval := not_value hfit hk
        rw [hflag k hk]
        by_cases hmem : Item.flag k ∈ its
        · simp [hmem]
        · simp [hmem, hnoval]
      | true =>
        rw [hvalue k hk, valueJoin_isSome]
        simp [not_flag hfit hk]
    · have hk : p.optWithParams.contains k = false := hfit _ hmem
      rw [hflag k hk, if_pos hmem]
  next => exact absurd h (by simp)

/-- `-o`, `-v`, an empty argument, an unknown option, `--opt=3` and `-o4`. -/
def demoArgv : List CStr :=
  [⟨ascii "-o", by decide⟩, ⟨ascii "1", by decide⟩, ⟨ascii "-v", by decide⟩, ⟨[], by decide⟩,
    ⟨ascii "-x", by decide⟩, ⟨ascii "--opt=3", by decide⟩, ⟨ascii "-o4", by decide⟩]

def demoParse : OptParse :=
  .mkOptParse [(0x6f, ascii "options"), (0x76, ascii "o-wo-param")]
    [(ascii "opt", ascii "options")] [ascii "options"] []

theorem parse_meets_spec_demo :
    ∃ opts params, demoParse.parse demoArgv ∅ [] = (.ok 0, opts, params) ∧
      params.map CStr.bytes = [ascii "-x"] ∧ opts[ascii "o-wo-param"]? = some [] ∧
      opts[ascii "options"]? = some (ascii "1,3,4") := by
  have hok : (demoParse.parse demoArgv ∅ []).1.isOk = true := by decide +kernel
  cases h : demoParse.parse demoArgv ∅ [] with
  | mk res outputs =>
  cases res with
  | error e =>
    rw [h] at hok
    exact absurd hok (by simp [Except.isOk, Except.toBool])
  | ok rc =>
  obtain ⟨opts, params⟩ := outputs
  obtain ⟨rfl, hparams, -, hflag, hvalue⟩ :=
    parse_meets_spec ⟨by decide, by decide, by decide, by decide⟩ h
  refine ⟨opts, params, rfl, ?_, hflag _ (by decide), ?_⟩
  · rw [hparams]
    decide
  · rw [hvalue (ascii "options") (by decide)]
    decide

end Run

end Cor.Options

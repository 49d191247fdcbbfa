import Mathlib.Data.List.Nodup
import Mathlib.Tactic.ByContra
import Cor.Util.Handle

/-!
# `Handle<TraitsT>`: the conservation law and what move-assignment leaks

`step_balance` is the conservation law of one member function: for every valid
value, the number of times it was given is the number of objects that hold it
plus the number of times it was closed, released or overwritten. At the end of a
run that destroys all objects nothing is held any more, so a value given once
was closed once, released once, or overwritten.

The only operation that overwrites is move-assignment: unlike `reset` it does not
close the value of its target first. `handles_settled_iff` is the resulting
condition on a run, in both directions.
-/

namespace Cor.Handle

open Cor.Lib

variable {τ T : Type} [DecidableEq T] {tr : Traits τ T}

/-- How many live objects hold `v`. -/
def State.held (s : State τ T) (v : T) : Nat := s.objs.tally Obj.v v

/-- How often `v` was passed to `close_`. -/
def State.closedCount (s : State τ T) (v : T) : Nat := (s.closed.map Prod.snd).count v

/-- Every time `v` was given is accounted for. -/
def Balance (s : State τ T) (v : T) : Prop :=
  s.given.count v = s.held v + s.closedCount v + s.released.count v + s.overwritten.count v

/-- An object that holds no resource contributes to no valid value. -/
theorem unit_of_invalid {v : T} {h : Obj τ T} (hv : tr.isValid v = true)
    (hh : tr.isValid h.v = false) : Pool.unit Obj.v v h = 0 := by
  refine Pool.unit_of_ne fun he => ?_
  rw [he, hv] at hh
  exact absurd hh (by simp)

@[simp] theorem unit_invalid {v : T} {t : τ} (hv : tr.isValid v = true) :
    Pool.unit Obj.v v (⟨t, tr.invalid⟩ : Obj τ T) = 0 :=
  unit_of_invalid hv tr.invalid_not_valid

/-- A value given or overwritten counts as much as an object that holds it. -/
theorem count_valids {v w : T} {t : τ} (hv : tr.isValid v = true) :
    (tr.valids w).count v = Pool.unit Obj.v v (⟨t, w⟩ : Obj τ T) := by
  unfold Traits.valids
  split
  · exact Pool.count_singleton (f := Obj.v) (a := (⟨t, w⟩ : Obj τ T)) v
  · next hw => exact (unit_of_invalid hv (by simpa using hw)).symm

/-! ## `close` -/

section Close

variable {s : State τ T} {o : Nat} {h : Obj τ T} {v : T}

/-- `close` moves the value from the object to the closed ones. -/
theorem close_balance (hv : tr.isValid v = true) (ho : s.objs.lookup o = some h) :
    (close tr s o h).held v + (close tr s o h).closedCount v = s.held v + s.closedCount v := by
  unfold close
  split
  · have ht := Pool.tally_insert_old (f := Obj.v) (a := { h with v := tr.invalid }) v ho
    rw [unit_invalid hv] at ht
    have hcount := Pool.count_singleton (f := Obj.v) (a := h) v
    simp only [State.held, State.closedCount, State.set, List.map_append, List.map_singleton,
      List.count_append]
    omega
  · rfl

end Close

/-- **The conservation law of one member function.** -/
theorem step_balance {s s' : State τ T} {op : Op τ T} {v : T} (hv : tr.isValid v = true)
    (hB : Balance s v) (h : step tr s op = some s') : Balance s' v := by
  unfold Balance at hB ⊢
  cases step_cases h with
  | refused => exact hB
  | @constructed o traits w option ho =>
    have ht := Pool.tally_insert_new (f := Obj.v) (a := (⟨traits, w⟩ : Obj τ T)) v ho
    have hw := count_valids (t := traits) (w := w) hv
    simp only [State.held, State.closedCount, List.count_append] at hB ⊢
    omega
  | @constructDefault o traits ho =>
    have ht := Pool.tally_insert_new (f := Obj.v) (a := (⟨traits, tr.invalid⟩ : Obj τ T)) v ho
    rw [unit_invalid hv] at ht
    simp only [State.held, State.closedCount] at hB ⊢
    omega
  | @moveConstruct o src traits f ho hsrc =>
    have hne : src ≠ o := fun he => by rw [he, ho] at hsrc; exact absurd hsrc (by simp)
    have hsrc' : (s.objs.insert o ⟨traits, f.v⟩).lookup src = some f := by
      rw [Finmap.lookup_insert_of_ne _ hne, hsrc]
    have ht := Pool.tally_insert_new (f := Obj.v) (a := (⟨traits, f.v⟩ : Obj τ T)) v ho
    have ht' := Pool.tally_insert_old (f := Obj.v) (a := { f with v := tr.invalid }) v hsrc'
    rw [unit_invalid hv] at ht'
    have hsame : Pool.unit (β := T) Obj.v v ⟨traits, f.v⟩ = Pool.unit Obj.v v f := rfl
    simp only [State.held, State.closedCount, State.set] at hB ⊢
    omega
  | @moveAssign o src d f ho hsrc =>
    -- whether or not the two objects coincide, the source now holds `f.v`
    obtain ⟨x, hx, hxv⟩ : ∃ x, (s.objs.insert o { d with v := f.v }).lookup src = some x ∧
        x.v = f.v := by
      by_cases he : src = o
      · exact ⟨{ d with v := f.v }, by rw [he, Finmap.lookup_insert], rfl⟩
      · exact ⟨f, by rw [Finmap.lookup_insert_of_ne _ he, hsrc], rfl⟩
    have ht := Pool.tally_insert_old (f := Obj.v) (a := { d with v := f.v }) v ho
    have ht' := Pool.tally_insert_old (f := Obj.v) (a := { f with v := tr.invalid }) v hx
    rw [unit_invalid hv] at ht'
    have hsame : Pool.unit (β := T) Obj.v v x = Pool.unit Obj.v v { d with v := f.v } := by
      simp only [Pool.unit, hxv]
    have hw := count_valids (t := d.traits) (w := d.v) hv
    have hd : Pool.unit (β := T) Obj.v v ⟨d.traits, d.v⟩ = Pool.unit Obj.v v d := rfl
    simp only [State.held, State.closedCount, State.set, List.count_append] at hB ⊢
    omega
  | @close o d ho =>
    obtain ⟨hg, hr, hw⟩ := close_frame tr s o d
    have hc := close_balance hv ho
    rw [hg, hr, hw]
    omega
  | @reset o w d ho =>
    obtain ⟨-, hr, hw⟩ := close_frame tr s o d
    have hc := close_balance hv ho
    obtain ⟨d', hd', hinv⟩ := close_lookup tr ho
    have ht := Pool.tally_insert_old (f := Obj.v) (a := { d with v := w }) v hd'
    rw [unit_of_invalid hv hinv] at ht
    have hval := count_valids (t := d.traits) (w := w) hv
    simp only [State.held, State.closedCount, State.set, List.count_append] at hB hc ⊢
    rw [hr, hw]
    omega
  | @release o d ho =>
    have ht := Pool.tally_insert_old (f := Obj.v) (a := { d with v := tr.invalid }) v ho
    rw [unit_invalid hv] at ht
    have hd := Pool.count_singleton (f := Obj.v) (a := d) v
    simp only [State.held, State.closedCount, State.set, List.count_append] at hB ⊢
    omega
  | @destroy o d ho =>
    obtain ⟨hg, hr, hw⟩ := close_frame tr s o d
    have hc := close_balance hv ho
    obtain ⟨d', hd', hinv⟩ := close_lookup tr ho
    have ht := Pool.tally_erase (f := Obj.v) v hd'
    rw [unit_of_invalid hv hinv] at ht
    simp only [State.held, State.closedCount] at hB hc ⊢
    rw [hg, hr, hw]
    omega

/-! ## Whole runs -/

/-- The values given by an operation. -/
def Op.gives : Op τ T → List T
  | .construct _ _ v _ => [v]
  | .reset _ v => [v]
  | _ => []

/-- A valid value given to a constructor or to `reset` is one that was never
given before. -/
def GivesFresh (tr : Traits τ T) (s : State τ T) (op : Op τ T) : Prop :=
  ∀ v ∈ op.gives, tr.isValid v = true → v ∉ s.given

instance (tr : Traits τ T) (s : State τ T) (op : Op τ T) : Decidable (GivesFresh tr s op) :=
  inferInstanceAs (Decidable (∀ v ∈ op.gives, tr.isValid v = true → v ∉ s.given))

/-- A move-assignment finds no valid value in the object it assigns to, which for
a self-assignment is also the object it assigns from. -/
def AssignsToEmpty (tr : Traits τ T) (s : State τ T) (op : Op τ T) : Prop :=
  ∀ o src, op = .moveAssign o src →
    ∀ h, s.objs.lookup o = some h → tr.isValid h.v = false

omit [DecidableEq T] in
/-- What an operation adds to the given and to the overwritten values. -/
theorem step_history {s s' : State τ T} {op : Op τ T} (h : step tr s op = some s') :
    (s'.given = s.given ∨ ∃ v ∈ op.gives, tr.isValid v = true ∧ s'.given = s.given ++ [v]) ∧
    (s'.overwritten = s.overwritten ∨
      ∃ o src d, op = .moveAssign o src ∧ s.objs.lookup o = some d ∧
        s'.overwritten = s.overwritten ++ tr.valids d.v) := by
  have hgiven : ∀ {v : T}, v ∈ op.gives → (s.given ++ tr.valids v = s.given ∨
      ∃ w ∈ op.gives, tr.isValid w = true ∧ s.given ++ tr.valids v = s.given ++ [w]) := by
    intro v hmem
    unfold Traits.valids
    split
    · next hv => exact Or.inr ⟨v, hmem, hv, rfl⟩
    · exact Or.inl (List.append_nil _)
  cases step_cases h with
  | refused => exact ⟨Or.inl rfl, Or.inl rfl⟩
  | constructed ho => exact ⟨hgiven (List.mem_singleton_self _), Or.inl rfl⟩
  | constructDefault ho => exact ⟨Or.inl rfl, Or.inl rfl⟩
  | moveConstruct ho hsrc => exact ⟨Or.inl rfl, Or.inl rfl⟩
  | @moveAssign o src d f ho hsrc => exact ⟨Or.inl rfl, Or.inr ⟨o, src, d, rfl, ho, rfl⟩⟩
  | @close o d ho =>
    obtain ⟨hg, -, hw⟩ := close_frame tr s o d
    exact ⟨Or.inl hg, Or.inl hw⟩
  | @reset o v d ho =>
    exact ⟨hgiven (List.mem_singleton_self v), Or.inl (close_frame tr s o d).2.2⟩
  | release ho => exact ⟨Or.inl rfl, Or.inl rfl⟩
  | @destroy o d ho =>
    obtain ⟨hg, -, hw⟩ := close_frame tr s o d
    exact ⟨Or.inl hg, Or.inl hw⟩

/-- What holds along a run that gives only fresh values. -/
structure Inv (tr : Traits τ T) (s : State τ T) : Prop where
  balance : ∀ v, tr.isValid v = true → Balance s v
  valid : ∀ v ∈ s.given, tr.isValid v = true
  nodup : s.given.Nodup

theorem init_inv : Inv tr (init : State τ T) where
  balance := fun _ _ => rfl
  valid := by simp [init]
  nodup := List.nodup_nil

theorem step_inv (s : State τ T) (op : Op τ T) (s' : State τ T) (hI : Inv tr s)
    (hF : GivesFresh tr s op) (h : step tr s op = some s') : Inv tr s' := by
  have hgiven := (step_history h).1
  refine ⟨fun v hv => step_balance hv (hI.balance v hv) h, ?_, ?_⟩
  · intro v hv
    rcases hgiven with hg | ⟨w, -, hw, hg⟩
    · exact hI.valid v (hg ▸ hv)
    · rw [hg, List.mem_append, List.mem_singleton] at hv
      rcases hv with hv | rfl
      · exact hI.valid v hv
      · exact hw
  · rcases hgiven with hg | ⟨w, hmem, hw, hg⟩
    · rw [hg]; exact hI.nodup
    · rw [hg, List.nodup_append]
      refine ⟨hI.nodup, by simp, ?_⟩
      intro a ha b hb hab
      rw [List.mem_singleton] at hb
      exact hF w hmem hw (hb ▸ hab ▸ ha)

omit [DecidableEq T] in
/-- Only a move-assignment onto a valid value overwrites anything. -/
theorem assignsToEmpty_overwritten (s : State τ T) (op : Op τ T) (s' : State τ T)
    (ho : s.overwritten = []) (hC : AssignsToEmpty tr s op) (h : step tr s op = some s') :
    s'.overwritten = [] := by
  rcases (step_history h).2 with hw | ⟨o, src, d, hop, hd, hw⟩
  · rw [hw, ho]
  · have hinv := hC o src hop d hd
    rw [hw, ho, Traits.valids, if_neg (by rw [hinv]; simp)]
    rfl

/-- The valid values overwritten so far, at least one. -/
def Lost (tr : Traits τ T) (s : State τ T) : Prop :=
  ∃ v ∈ s.overwritten, tr.isValid v = true

omit [DecidableEq T] in
theorem lost_step (s : State τ T) (op : Op τ T) (s' : State τ T) (hL : Lost tr s)
    (h : step tr s op = some s') : Lost tr s' := by
  obtain ⟨v, hv, hvalid⟩ := hL
  refine ⟨v, ?_, hvalid⟩
  rcases (step_history h).2 with hw | ⟨o, src, d, -, -, hw⟩
  · rw [hw]; exact hv
  · rw [hw]; exact List.mem_append_left _ hv

omit [DecidableEq T] in
theorem lost_of_not_assignsToEmpty {s s' : State τ T} {op : Op τ T}
    (hC : ¬ AssignsToEmpty tr s op) (h : step tr s op = some s') : Lost tr s' := by
  simp only [AssignsToEmpty, not_forall] at hC
  obtain ⟨o, src, rfl, d, hd, hvalid⟩ := hC
  have hvalid' : tr.isValid d.v = true := by simpa using hvalid
  cases step_cases h with
  | moveAssign ho hsrc =>
    obtain rfl := Option.some.inj (hd.symm.trans ho)
    exact ⟨d.v, List.mem_append_right _ (by simp [Traits.valids, hvalid']), hvalid'⟩

/-- **What becomes of the resources.** Take any run of operations that gives only
fresh valid values and ends with all handles destroyed. Every value given has
been passed to `close_` exactly once or returned by `release` exactly once, if
and only if every move-assignment of the run was into a handle that held no
valid value. -/
theorem handles_settled_iff {ops : List (Op τ T)} {s : State τ T}
    (h : run (step tr) init ops = some s) (hF : Along (step tr) (GivesFresh tr) init ops)
    (hend : s.objs = ∅) :
    (∀ v ∈ s.given, s.closedCount v + s.released.count v = 1) ↔
      Along (step tr) (AssignsToEmpty tr) init ops := by
  have hI : Inv tr s := run_inv_along step_inv ops h hF init_inv
  have hsum : ∀ v ∈ s.given,
      s.closedCount v + s.released.count v + s.overwritten.count v = 1 := by
    intro v hv
    have hB := hI.balance v (hI.valid v hv)
    have hheld : s.held v = 0 := by rw [State.held, hend, Pool.tally_empty]
    rw [Balance, List.count_eq_one_of_mem hI.nodup hv, hheld] at hB
    omega
  constructor
  · intro hsettled
    by_contra hA
    obtain ⟨pre, op, post, m, m', -, -, hstep, hC, hpost⟩ := not_along ops h hA
    obtain ⟨v, hmem, hv⟩ : Lost tr s :=
      run_inv lost_step post hpost (lost_of_not_assignsToEmpty hC hstep)
    -- an overwritten value was given, so it must not be missing from the others
    have hpos : 0 < s.overwritten.count v := List.count_pos_iff.mpr hmem
    have hgiven : v ∈ s.given := by
      have hB := hI.balance v hv
      rw [Balance] at hB
      exact List.count_pos_iff.mp (by omega)
    have h1 := hsum v hgiven
    have h2 := hsettled v hgiven
    omega
  · intro hA v hv
    have hnone : s.overwritten = [] :=
      run_inv_along (I := fun t => t.overwritten = []) assignsToEmpty_overwritten ops h hA rfl
    have h1 := hsum v hv
    rw [hnone, List.count_nil] at h1
    omega

/-- Two descriptors, the second handle move-assigned to the first, both destroyed:
descriptor 3 is never closed. -/
def leakRun : List (Op Unit Int32) :=
  [.construct 0 () 3 .allowInvalidHandle, .construct 1 () 4 .allowInvalidHandle,
   .moveAssign 0 1, .destroy 0, .destroy 1]

/-- A run of fresh values that ends with all handles destroyed and leaks one. -/
theorem moveAssign_leaks :
    ¬ ∀ (ops : List (Op Unit Int32)) (s : State Unit Int32),
      run (step fdTraits) init ops = some s → Along (step fdTraits) (GivesFresh fdTraits) init ops →
      s.objs = ∅ → ∀ v ∈ s.given, s.closedCount v + s.released.count v = 1 := by
  intro hall
  have hleak := hall leakRun _ rfl (by decide) rfl 3 (by decide)
  exact absurd hleak (by decide)

/-- The same descriptors, the target closed before the assignment and the result
released before it is destroyed. -/
def closedRun : List (Op Unit Int32) :=
  [.construct 0 () 3 .allowInvalidHandle, .construct 1 () 4 .allowInvalidHandle,
   .close 0, .moveAssign 0 1, .release 0, .destroy 0, .destroy 1]

theorem handles_settled_demo :
    ∃ s : State Unit Int32, run (step fdTraits) init closedRun = some s ∧
      s.given = [3, 4] ∧ s.closed = [((), 3)] ∧ s.released = [4] ∧
      Along (step fdTraits) (AssignsToEmpty fdTraits) init closedRun := by
  refine ⟨_, rfl, by decide, by decide, by decide, ?_⟩
  have hiff := handles_settled_iff
    (show run (step fdTraits) init closedRun = some _ from rfl) (by decide) rfl
  refine hiff.mp fun v hv => ?_
  have hv' : v = 3 ∨ v = 4 := by simpa using (show v ∈ [(3 : Int32), 4] from hv)
  rcases hv' with rfl | rfl
  · rfl
  · rfl

end Cor.Handle

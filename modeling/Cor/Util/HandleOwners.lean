import Mathlib.Data.List.Nodup
import Cor.Util.HandleRuns

/-!
# `Handle<TraitsT>`: one owner for each value

A valid value may be given to a constructor or to `reset` again once no object
holds it any more. Along a run that keeps to that, every valid value has at most
one owner (`Owned.unique`), because an operation that is not given the value only
moves it between objects or lets it go: what is let go was held (`step_letGo`),
and who held it does not hold it afterwards (`step_held`).

`close_` is called in one place and only on the value of the object at hand, so
two calls for one value, or a call after `release`, need a second owner and hence
a second acquisition in between (`unique_ownership`).
-/

namespace Cor.Handle

open Cor.Lib

variable {τ T : Type} {tr : Traits τ T}

/-! ## What a member function lets go -/

/-- What `close` adds to the closed values: the one the object held, if it was valid. -/
theorem close_closed (tr : Traits τ T) (s : State τ T) (o : Nat) (h : Obj τ T) :
    (close tr s o h).closed = s.closed ∨ tr.isValid h.v = true ∧
      (close tr s o h).closed = s.closed ++ [(h.traits, h.v)] := by
  unfold close
  split
  · next hv => exact .inr ⟨hv, rfl⟩
  · exact .inl rfl

/-- What a call adds to the closed and to the released values: nothing, or what one object
held. -/
inductive LetsGo (tr : Traits τ T) (s s' : State τ T) : Prop
  | nothing (hc : s'.closed = s.closed) (hr : s'.released = s.released)
  | closed {o : Nat} {h : Obj τ T} (ho : s.objs.lookup o = some h) (hv : tr.isValid h.v = true)
      (hc : s'.closed = s.closed ++ [(h.traits, h.v)]) (hr : s'.released = s.released)
  | released {o : Nat} {h : Obj τ T} (ho : s.objs.lookup o = some h)
      (hc : s'.closed = s.closed) (hr : s'.released = s.released ++ [h.v])

theorem step_letsGo {s s' : State τ T} {op : Op τ T} (h : step tr s op = some s') :
    LetsGo tr s s' := by
  have hclose : ∀ {o : Nat} {d : Obj τ T}, s.objs.lookup o = some d →
      (∀ {t : State τ T}, t.closed = (close tr s o d).closed →
        t.released = (close tr s o d).released → LetsGo tr s t) := by
    intro o d ho t hc hr
    obtain ⟨-, hr', -⟩ := close_frame tr s o d
    rcases close_closed tr s o d with hsame | ⟨hv, hadd⟩
    · exact .nothing (hc.trans hsame) (hr.trans hr')
    · exact .closed ho hv (hc.trans hadd) (hr.trans hr')
  cases step_cases h with
  | refused => exact .nothing rfl rfl
  | constructed ho => exact .nothing rfl rfl
  | constructDefault ho => exact .nothing rfl rfl
  | moveConstruct ho hsrc => exact .nothing rfl rfl
  | moveAssign ho hsrc => exact .nothing rfl rfl
  | close ho => exact hclose ho rfl rfl
  | reset ho => exact hclose ho rfl rfl
  | release ho => exact .released ho rfl rfl
  | destroy ho => exact hclose ho rfl rfl

variable [DecidableEq T]

/-- How often `v` was closed or released. -/
def State.letGo (s : State τ T) (v : T) : Nat := s.closedCount v + s.released.count v

theorem held_pos {s : State τ T} {o : Nat} {h : Obj τ T} (ho : s.objs.lookup o = some h) :
    0 < s.held h.v := by
  have ht := Pool.tally_erase (f := Obj.v) h.v ho
  rw [Pool.unit, if_pos rfl] at ht
  unfold State.held
  omega

/-- Two objects that hold one value count twice. -/
theorem two_le_held {s : State τ T} {o o' : Nat} {h h' : Obj τ T}
    (ho : s.objs.lookup o = some h) (ho' : s.objs.lookup o' = some h') (hne : o ≠ o')
    (hv : h.v = h'.v) : 2 ≤ s.held h.v := by
  have herase : (s.objs.erase o).lookup o' = some h' := by
    rw [Finmap.lookup_erase_ne (Ne.symm hne), ho']
  have ht := Pool.tally_erase (f := Obj.v) h.v ho
  have ht' := Pool.tally_erase (f := Obj.v) h.v herase
  rw [Pool.unit, if_pos rfl] at ht
  rw [Pool.unit, if_pos hv] at ht'
  unfold State.held
  omega

/-- What is let go was held. -/
theorem step_letGo {s s' : State τ T} {op : Op τ T} (v : T) (h : step tr s op = some s') :
    s.letGo v ≤ s'.letGo v ∧ s'.letGo v ≤ s.letGo v + s.held v := by
  unfold State.letGo State.closedCount
  cases step_letsGo h with
  | nothing hc hr =>
    rw [hc, hr]
    omega
  | @closed o d ho hv hc hr =>
    have hpos := held_pos ho
    rw [hc, hr, List.map_append, List.count_append, List.map_singleton, List.count_singleton]
    by_cases hd : d.v = v
    · subst hd
      simp only [beq_self_eq_true, if_true]
      omega
    · simp only [beq_iff_eq, hd, if_false]
      omega
  | @released o d ho hc hr =>
    have hpos := held_pos ho
    rw [hc, hr, List.count_append, List.count_singleton]
    by_cases hd : d.v = v
    · subst hd
      simp only [beq_self_eq_true, if_true]
      omega
    · simp only [beq_iff_eq, hd, if_false]
      omega

/-! ## The owners of a value along a run -/

/-- A valid value given to a constructor or to `reset` is held by no object. -/
def GivesUnowned (tr : Traits τ T) (s : State τ T) (op : Op τ T) : Prop :=
  ∀ v ∈ op.gives, tr.isValid v = true → s.held v = 0

instance (tr : Traits τ T) (s : State τ T) (op : Op τ T) : Decidable (GivesUnowned tr s op) :=
  inferInstanceAs (Decidable (∀ v ∈ op.gives, tr.isValid v = true → s.held v = 0))

/-- What holds along a run that gives only values without an owner. -/
structure Owned (tr : Traits τ T) (s : State τ T) : Prop where
  balance : ∀ v, tr.isValid v = true → Balance s v
  unique : ∀ v, tr.isValid v = true → s.held v ≤ 1

theorem init_owned : Owned tr (init : State τ T) where
  balance := fun _ _ => rfl
  unique := fun _ _ => Nat.zero_le 1

theorem overwritten_le {s s' : State τ T} {op : Op τ T} (v : T) (h : step tr s op = some s') :
    s.overwritten.count v ≤ s'.overwritten.count v := by
  rcases (step_history h).2 with hw | ⟨o, src, d, -, -, hw⟩
  · rw [hw]
  · rw [hw, List.count_append]
    omega

/-- An operation that is not given the value only moves it or lets it go. -/
theorem step_held {s s' : State τ T} {op : Op τ T} {v : T} (hv : tr.isValid v = true)
    (hB : Balance s v) (hgives : v ∉ op.gives) (h : step tr s op = some s') :
    s'.held v + s'.letGo v ≤ s.held v + s.letGo v := by
  have hB' := step_balance hv hB h
  have hmore := overwritten_le v h
  have hsame : s'.given.count v = s.given.count v := by
    rcases (step_history h).1 with hg | ⟨w, hw, -, hg⟩
    · rw [hg]
    · have hne : w ≠ v := by
        rintro rfl
        exact hgives hw
      rw [hg, List.count_append, List.count_singleton]
      simp [hne]
  unfold Balance at hB hB'
  unfold State.letGo
  omega

theorem step_owned (s : State τ T) (op : Op τ T) (s' : State τ T) (hO : Owned tr s)
    (hU : GivesUnowned tr s op) (h : step tr s op = some s') : Owned tr s' := by
  refine ⟨fun v hv => step_balance hv (hO.balance v hv) h, fun v hv => ?_⟩
  by_cases hgives : v ∈ op.gives
  · -- nobody held it, and it is given once
    have hzero := hU v hgives hv
    have hB := hO.balance v hv
    have hB' := step_balance hv hB h
    have honce : s'.given.count v ≤ s.given.count v + 1 := by
      rcases (step_history h).1 with hg | ⟨w, -, -, hg⟩
      · rw [hg]
        omega
      · rw [hg, List.count_append, List.count_singleton]
        split <;> omega
    have hlet := (step_letGo v h).1
    have hmore := overwritten_le v h
    unfold Balance at hB hB'
    unfold State.letGo at hlet
    omega
  · have hheld := step_held hv (hO.balance v hv) hgives h
    have hlet := (step_letGo v h).1
    have hone := hO.unique v hv
    omega

/-- While a value is not given again, its owner and what let it go add up to what there
was. -/
theorem run_held {v : T} (hv : tr.isValid v = true) :
    ∀ (ops : List (Op τ T)) {s s' : State τ T}, run (step tr) s ops = some s' → Balance s v →
      (∀ op ∈ ops, v ∉ op.gives) →
        s.letGo v ≤ s'.letGo v ∧ s'.held v + s'.letGo v ≤ s.held v + s.letGo v
  | [], s, s', h, _, _ => by
    rw [run_nil, Option.some.injEq] at h
    rw [h]
    exact ⟨Nat.le_refl _, Nat.le_refl _⟩
  | op :: ops, s, s', h, hB, hgives => by
    obtain ⟨s₁, h₁, h₂⟩ := run_cons_some.mp h
    have hone := step_held hv hB (hgives op List.mem_cons_self) h₁
    have hlet := (step_letGo v h₁).1
    have hrest := run_held hv ops h₂ (step_balance hv hB h₁) fun a ha =>
      hgives a (List.mem_cons_of_mem _ ha)
    omega

/-! ## The three guarantees -/

/-- No valid value is held by two handles. -/
def State.OneOwner (tr : Traits τ T) (s : State τ T) : Prop :=
  ∀ (o o' : Nat) (h h' : Obj τ T), s.objs.lookup o = some h → s.objs.lookup o' = some h' →
    tr.isValid h.v = true → h.v = h'.v → o = o'

/-- What is closed between two states was held by a handle in the first. -/
def ClosesOwned (s s' : State τ T) : Prop :=
  ∀ c ∈ s'.closed.drop s.closed.length, ∃ (o : Nat) (h : Obj τ T),
    s.objs.lookup o = some h ∧ c = (h.traits, h.v)

theorem Owned.oneOwner {s : State τ T} (hO : Owned tr s) : s.OneOwner tr := by
  intro o o' h h' ho ho' hv heq
  by_contra hne
  have htwo := two_le_held ho ho' hne heq
  have hone := hO.unique h.v hv
  omega

omit [DecidableEq T] in
theorem step_closesOwned {s s' : State τ T} {op : Op τ T} (h : step tr s op = some s') :
    ClosesOwned s s' := by
  intro c hc
  cases step_letsGo h with
  | nothing hsame _ =>
    rw [hsame, List.drop_length] at hc
    exact absurd hc (by simp)
  | @closed o d ho hv hadd _ =>
    rw [hadd, List.drop_left, List.mem_singleton] at hc
    exact ⟨o, d, ho, hc⟩
  | released ho hsame _ =>
    rw [hsame, List.drop_length] at hc
    exact absurd hc (by simp)

/-- What is closed is valid and has an owner. -/
theorem closed_owner {s s' : State τ T} {op : Op τ T} {v : T} (h : step tr s op = some s')
    (hv : s.closedCount v < s'.closedCount v) : tr.isValid v = true ∧ 0 < s.held v := by
  unfold State.closedCount at hv
  cases step_letsGo h with
  | nothing hc _ =>
    rw [hc] at hv
    omega
  | @closed o d ho hvalid hc _ =>
    rw [hc, List.map_append, List.count_append, List.map_singleton, List.count_singleton] at hv
    by_cases hd : d.v = v
    · subst hd
      exact ⟨hvalid, held_pos ho⟩
    · simp only [beq_iff_eq, hd, if_false] at hv
      omega
  | released ho hc _ =>
    rw [hc] at hv
    omega

/-- Between an operation that closes or releases a value and a later one that closes it,
the value was acquired. -/
theorem acquired_between {s₀ s₁ s₂ s₃ : State τ T} {op op' : Op τ T} {mid : List (Op τ T)} {v : T}
    (hO : Owned tr s₀) (hU : GivesUnowned tr s₀ op) (h : step tr s₀ op = some s₁)
    (hmid : run (step tr) s₁ mid = some s₂) (h' : step tr s₂ op' = some s₃)
    (hlet : s₀.letGo v < s₁.letGo v) (hclose : s₂.closedCount v < s₃.closedCount v) :
    ∃ a ∈ mid, v ∈ a.gives := by
  by_contra hno
  have hgives : ∀ a ∈ mid, v ∉ a.gives := fun a ha hva => hno ⟨a, ha, hva⟩
  obtain ⟨hv, howner⟩ := closed_owner h' hclose
  have hone := hO.unique v hv
  have hheld := (step_letGo v h).2
  -- the first operation is not given the value: somebody held it
  have hfirst : v ∉ op.gives := fun hmem => by
    have hzero := hU v hmem hv
    omega
  have hflow := step_held hv (hO.balance v hv) hfirst h
  have hrest := run_held hv mid hmid (step_balance hv (hO.balance v hv) h) hgives
  omega

theorem run_owned {ops : List (Op τ T)} {s : State τ T} (h : run (step tr) init ops = some s)
    (hU : Along (step tr) (GivesUnowned tr) init ops) : Owned tr s :=
  run_inv_along step_owned ops h hU init_owned

/-- **Unique ownership and no double close.** Take any run in which every valid value given
to a constructor or to `reset` is held by nobody at that time. At its end no valid value
is held by two handles. Every call of `close_` in it is on the value of a handle. And a
value closed or released, and later closed, was acquired again in between. -/
theorem unique_ownership {ops : List (Op τ T)} {s : State τ T}
    (h : run (step tr) init ops = some s)
    (hU : Along (step tr) (GivesUnowned tr) init ops) :
    s.OneOwner tr ∧
    (∀ (pre : List (Op τ T)) (op : Op τ T) (post : List (Op τ T)) (s₀ s₁ : State τ T),
      ops = pre ++ op :: post → run (step tr) init pre = some s₀ → step tr s₀ op = some s₁ →
        ClosesOwned s₀ s₁) ∧
    (∀ (pre : List (Op τ T)) (op : Op τ T) (mid : List (Op τ T)) (op' : Op τ T)
      (post : List (Op τ T)) (s₀ s₁ s₂ s₃ : State τ T) (v : T),
      ops = pre ++ op :: (mid ++ op' :: post) → run (step tr) init pre = some s₀ →
        step tr s₀ op = some s₁ → run (step tr) s₁ mid = some s₂ → step tr s₂ op' = some s₃ →
          s₀.letGo v < s₁.letGo v → s₂.closedCount v < s₃.closedCount v →
            ∃ a ∈ mid, v ∈ a.gives) := by
  refine ⟨(run_owned h hU).oneOwner, ?_, ?_⟩
  · intro pre op post s₀ s₁ _ _ hop
    exact step_closesOwned hop
  · intro pre op mid op' post s₀ s₁ s₂ s₃ v hops hpre hop hmid hop' hlet hclose
    rw [hops, along_append pre hpre] at hU
    obtain ⟨hbefore, hthere, -⟩ := hU
    exact acquired_between (run_owned hpre hbefore) hthere hop hmid hop' hlet hclose

/-- Descriptor 3 is moved to a second handle and released by it, then given to a third one,
moved to the first and closed there. -/
def movesRun : List (Op Unit Int32) :=
  [.construct 0 () 3 .onlyValidHandle, .moveConstruct 1 0, .release 1, .constructDefault 2,
   .reset 2 3, .moveAssign 0 2, .destroy 0, .destroy 2, .destroy 1]

theorem unique_ownership_demo :
    ∃ s : State Unit Int32, run (step fdTraits) init movesRun = some s ∧ s.given = [3, 3] ∧
      s.released = [3] ∧ s.closed = [((), 3)] ∧ s.OneOwner fdTraits :=
  ⟨_, rfl, by decide, by decide, by decide,
    (unique_ownership (show run (step fdTraits) init movesRun = some _ from rfl) (by decide)).1⟩

end Cor.Handle

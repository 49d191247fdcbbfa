import Mathlib.Data.List.Basic

/-!
# Runs of a labelled machine

A machine is a partial step function `step : σ → α → Option σ`: the state after
the action, `none` when the action is not enabled. All nondeterminism (which
thread moves, what the environment does) is in the choice of the actions, so an
interleaving is a list of actions and a run is a fold over it.

Two ways to carry a property along a run:

* `run_inv`: what every step preserves holds at the end of every run;
* `run_inv_along`: the same when only the steps that meet a side condition
  preserve it, for the runs all of whose steps meet it (`Along`).

`not_along` finds the first offending step of a run that is not `Along`, and
`run_rel` is about two machines that take their steps together.
-/

namespace Cor.Lib

variable {σ α : Type}

/-- The state after the actions `as`, in order; `none` once one of them is not
enabled. -/
def run (step : σ → α → Option σ) (s : σ) (as : List α) : Option σ :=
  as.foldlM step s

variable {step : σ → α → Option σ}

@[simp] theorem run_nil {s : σ} : run step s [] = some s := rfl

theorem run_cons {s : σ} {a : α} {as : List α} :
    run step s (a :: as) = (step s a).bind fun s₁ => run step s₁ as := rfl

/-- A nonempty run is a first step and a run from its target. -/
theorem run_cons_some {s s' : σ} {a : α} {as : List α} :
    run step s (a :: as) = some s' ↔ ∃ s₁, step s a = some s₁ ∧ run step s₁ as = some s' := by
  rw [run_cons, Option.bind_eq_some_iff]

/-- A run may be cut anywhere. -/
theorem run_append_some {s s' : σ} {as bs : List α} :
    run step s (as ++ bs) = some s' ↔ ∃ m, run step s as = some m ∧ run step m bs = some s' := by
  unfold run
  rw [List.foldlM_append]
  exact Option.bind_eq_some_iff

/-- Some interleaving leads from `s` to `s'`. -/
def Reachable (step : σ → α → Option σ) (s s' : σ) : Prop :=
  ∃ as, run step s as = some s'

/-- **Induction along a run.** What every step preserves holds at the end. -/
theorem run_inv {I : σ → Prop} (hstep : ∀ s a s', I s → step s a = some s' → I s') :
    ∀ (as : List α) {s s' : σ}, run step s as = some s' → I s → I s'
  | [], s, s', h, hI => by
    rw [run_nil, Option.some.injEq] at h
    exact h ▸ hI
  | a :: as, s, s', h, hI => by
    obtain ⟨s₁, h₁, h₂⟩ := run_cons_some.mp h
    exact run_inv hstep as h₂ (hstep s a s₁ hI h₁)

theorem Reachable.inv {I : σ → Prop} {s s' : σ} (h : Reachable step s s')
    (hstep : ∀ s a s', I s → step s a = some s' → I s') (hI : I s) : I s' := by
  obtain ⟨as, has⟩ := h
  exact run_inv hstep as has hI

/-- Every step of the run `as` from `s` meets the condition `C`, read at the
state the step starts from. -/
def Along (step : σ → α → Option σ) (C : σ → α → Prop) : σ → List α → Prop
  | _, [] => True
  | s, a :: as => C s a ∧ ∀ s₁, step s a = some s₁ → Along step C s₁ as

/-- A condition that can be tested at a step can be tested along a run. -/
instance decidableAlong {C : σ → α → Prop} [∀ s a, Decidable (C s a)] :
    ∀ (s : σ) (as : List α), Decidable (Along step C s as)
  | _, [] => isTrue trivial
  | s, a :: as =>
    match h : step s a with
    | none => decidable_of_iff (C s a) ⟨fun hC => ⟨hC, fun s₁ hs => by simp [h] at hs⟩, And.left⟩
    | some s₁ =>
      have : Decidable (Along step C s₁ as) := decidableAlong s₁ as
      decidable_of_iff (C s a ∧ Along step C s₁ as)
        ⟨fun hC => ⟨hC.1, fun t ht => by rw [h, Option.some.injEq] at ht; exact ht ▸ hC.2⟩,
          fun hC => ⟨hC.1, hC.2 s₁ h⟩⟩

/-- A run along which every step meets `C`, and what goes on from its end. -/
theorem along_append {C : σ → α → Prop} {bs : List α} :
    ∀ (as : List α) {s s' : σ}, run step s as = some s' →
      (Along step C s (as ++ bs) ↔ Along step C s as ∧ Along step C s' bs)
  | [], s, s', h => by
    rw [run_nil, Option.some.injEq] at h
    subst h
    exact ⟨fun hC => ⟨trivial, hC⟩, And.right⟩
  | a :: as, s, s', h => by
    obtain ⟨s₁, h₁, h₂⟩ := run_cons_some.mp h
    have ih : Along step C s₁ (as ++ bs) ↔ Along step C s₁ as ∧ Along step C s' bs :=
      along_append as h₂
    constructor
    · intro hC
      obtain ⟨has, hbs⟩ := ih.mp (hC.2 s₁ h₁)
      refine ⟨⟨hC.1, fun t ht => ?_⟩, hbs⟩
      rw [h₁, Option.some.injEq] at ht
      exact ht ▸ has
    · intro hC
      refine ⟨hC.1.1, fun t ht => ?_⟩
      rw [h₁, Option.some.injEq] at ht
      subst ht
      exact ih.mpr ⟨hC.1.2 s₁ h₁, hC.2⟩

/-- Two conditions on the steps of a run. -/
theorem along_and {C D : σ → α → Prop} : ∀ {as : List α} {s : σ},
    Along step (fun s a => C s a ∧ D s a) s as ↔ Along step C s as ∧ Along step D s as
  | [], _ => ⟨fun _ => ⟨trivial, trivial⟩, fun _ => trivial⟩
  | a :: as, s => by
    constructor
    · rintro ⟨⟨hC, hD⟩, hrest⟩
      exact ⟨⟨hC, fun t ht => (along_and.mp (hrest t ht)).1⟩,
        hD, fun t ht => (along_and.mp (hrest t ht)).2⟩
    · rintro ⟨⟨hC, hrestC⟩, hD, hrestD⟩
      exact ⟨⟨hC, hD⟩, fun t ht => along_and.mpr ⟨hrestC t ht, hrestD t ht⟩⟩

/-- Induction along a run whose steps all meet `C`. -/
theorem run_inv_along {I : σ → Prop} {C : σ → α → Prop}
    (hstep : ∀ s a s', I s → C s a → step s a = some s' → I s') :
    ∀ (as : List α) {s s' : σ}, run step s as = some s' → Along step C s as → I s → I s'
  | [], s, s', h, _, hI => by
    rw [run_nil, Option.some.injEq] at h
    exact h ▸ hI
  | a :: as, s, s', h, hC, hI => by
    obtain ⟨s₁, h₁, h₂⟩ := run_cons_some.mp h
    exact run_inv_along hstep as h₂ (hC.2 s₁ h₁) (hstep s a s₁ hI hC.1 h₁)

/-- A run that is not `Along` has a step at which the condition fails. -/
theorem not_along {C : σ → α → Prop} :
    ∀ (as : List α) {s s' : σ}, run step s as = some s' → ¬ Along step C s as →
      ∃ pre a post m m', as = pre ++ a :: post ∧ run step s pre = some m ∧
        step m a = some m' ∧ ¬ C m a ∧ run step m' post = some s'
  | [], _, _, _, hC => absurd trivial hC
  | a :: as, s, s', h, hC => by
    obtain ⟨s₁, h₁, h₂⟩ := run_cons_some.mp h
    by_cases ha : C s a
    · have htail : ¬ Along step C s₁ as := fun ht =>
        hC ⟨ha, fun t hst => by rw [h₁, Option.some.injEq] at hst; exact hst ▸ ht⟩
      obtain ⟨pre, b, post, m, m', has, hpre, hb, hCb, hpost⟩ := not_along as h₂ htail
      exact ⟨a :: pre, b, post, m, m', by rw [has, List.cons_append],
        run_cons_some.mpr ⟨s₁, h₁, hpre⟩, hb, hCb, hpost⟩
    · exact ⟨[], a, as, s, s₁, rfl, rfl, h₁, ha, h₂⟩

/-- Two machines whose steps are enabled together and lead to related states have runs
together, with related ends. -/
theorem run_rel {ρ : Type} {step' : ρ → α → Option ρ} {R : σ → ρ → Prop}
    (hstep : ∀ s t a, R s t → Option.Rel R (step s a) (step' t a)) :
    ∀ (as : List α) {s : σ} {t : ρ}, R s t → Option.Rel R (run step s as) (run step' t as)
  | [], _, _, hR => .some hR
  | a :: as, s, t, hR => by
    have ha := hstep s t a hR
    rw [run_cons, run_cons]
    generalize step s a = next at ha
    generalize step' t a = next' at ha
    cases ha with
    | some hnext => exact run_rel hstep as hnext
    | none => exact .none

end Cor.Lib

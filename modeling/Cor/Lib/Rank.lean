import Mathlib.Algebra.BigOperators.Ring.Finset
import Cor.Lib.Run

/-!
# Amortised runs

How long the runs of a machine can be. Every state has a rank, the work that is
still owed there, and every action has a price, what the environment pays when it
asks for more. If a step never raises the rank by as much as it was paid
(`rank s' + 1 ≤ rank s + price a`), the length of a run is bounded by the rank it
starts from and the prices paid along it (`run_paid`). Actions that cost nothing
then run dry: some run of them ends where none is enabled (`exists_stuck`), and no
run of them is longer than the rank (`run_free`).

Where the rank is a sum over the threads of the machine, `sum_moved` is what one
thread's step does to it.
-/

namespace Cor.Lib

variable {σ α : Type} {step : σ → α → Option σ}

/-- What a step of the machine must do to the rank, for the actions `C` allows at a
state that meets `I`. -/
structure Paid (step : σ → α → Option σ) (I : σ → Prop) (C : α → Prop) (rank : σ → Nat)
    (price : α → Nat) : Prop where
  keeps : ∀ s a s', I s → C a → step s a = some s' → I s'
  pays : ∀ s a s', I s → C a → step s a = some s' → rank s' + 1 ≤ rank s + price a

variable {I : σ → Prop} {C : α → Prop} {rank : σ → Nat} {price : α → Nat}

/-- **Every step is paid for**: a run is no longer than the rank it starts from and
the prices paid along it. -/
theorem Paid.run_paid (hP : Paid step I C rank price) :
    ∀ (as : List α) {s s' : σ}, run step s as = some s' → (∀ a ∈ as, C a) → I s →
      I s' ∧ as.length + rank s' ≤ rank s + (as.map price).sum
  | [], s, s', h, _, hI => by
    rw [run_nil, Option.some.injEq] at h
    subst h
    refine ⟨hI, ?_⟩
    rw [List.map_nil, List.sum_nil, List.length_nil]
    omega
  | a :: as, s, s', h, hC, hI => by
    obtain ⟨s₁, h₁, h₂⟩ := run_cons_some.mp h
    have ha : C a := hC a List.mem_cons_self
    have hpay := hP.pays s a s₁ hI ha h₁
    obtain ⟨hI', hrest⟩ := hP.run_paid as h₂ (fun b hb => hC b (List.mem_cons_of_mem a hb))
      (hP.keeps s a s₁ hI ha h₁)
    refine ⟨hI', ?_⟩
    rw [List.map_cons, List.sum_cons, List.length_cons]
    omega

/-- No action of `P` is enabled. -/
def Stuck (step : σ → α → Option σ) (P : α → Prop) (s : σ) : Prop :=
  ∀ a, P a → step s a = none

/-- The actions that cost nothing can be taken at most `rank s` times. -/
theorem Paid.run_free (hP : Paid step I C rank price) (hfree : ∀ a, C a → price a = 0)
    {as : List α} {s s' : σ} (h : run step s as = some s') (hC : ∀ a ∈ as, C a) (hI : I s) :
    as.length ≤ rank s := by
  have hle := (hP.run_paid as h hC hI).2
  have hsum : (as.map price).sum = 0 := by
    refine List.sum_eq_zero fun n hn => ?_
    obtain ⟨a, ha, rfl⟩ := List.mem_map.mp hn
    exact hfree a (hC a ha)
  omega

/-- **The actions that cost nothing run dry.** From every state there is a run of them
to one where none is enabled. -/
theorem Paid.exists_stuck (hP : Paid step I C rank price) (hfree : ∀ a, C a → price a = 0)
    {s : σ} (hI : I s) :
    ∃ as s', run step s as = some s' ∧ (∀ a ∈ as, C a) ∧ Stuck step C s' := by
  induction hn : rank s using Nat.strong_induction_on generalizing s with
  | _ n ih =>
    by_cases hstuck : Stuck step C s
    · exact ⟨[], s, rfl, fun a ha => absurd ha List.not_mem_nil, hstuck⟩
    · simp only [Stuck, not_forall] at hstuck
      obtain ⟨a, ha, hsome⟩ := hstuck
      obtain ⟨s₁, h₁⟩ := Option.ne_none_iff_exists'.mp hsome
      have hpay := hP.pays s a s₁ hI ha h₁
      rw [hfree a ha] at hpay
      obtain ⟨as, s', hrun, hC, hend⟩ := ih (rank s₁) (by omega) (hP.keeps s a s₁ hI ha h₁) rfl
      refine ⟨a :: as, s', run_cons_some.mpr ⟨s₁, h₁, hrun⟩, ?_, hend⟩
      rintro b hb
      rcases List.mem_cons.mp hb with rfl | hb
      · exact ha
      · exact hC b hb

/-- One thread moves: the sum over all of them changes by what its own term does. -/
theorem sum_moved {ι : Type} [DecidableEq ι] {t : Finset ι} {f g : ι → Nat} {i : ι} (hi : i ∈ t)
    (hoth : ∀ j, j ≠ i → g j = f j) : t.sum g + f i = t.sum f + g i := by
  have hg : (t.erase i).sum g + g i = t.sum g := Finset.sum_erase_add t g hi
  have hf : (t.erase i).sum f + f i = t.sum f := Finset.sum_erase_add t f hi
  have hrest : (t.erase i).sum g = (t.erase i).sum f :=
    Finset.sum_congr rfl fun j hj => hoth j (Finset.ne_of_mem_erase hj)
  omega

end Cor.Lib

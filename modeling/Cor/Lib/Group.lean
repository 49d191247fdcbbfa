import Mathlib.Data.List.Basic
import Std.Data.ExtTreeMap

/-!
# A map built item by item, keyed by a group

`group` runs through items that each belong to a group and puts each into the
entry of its group, a new entry starting from a default. Where a later item
overwrites what an earlier one of its group has put, the entry shows the last
item of the group only (`getElem?_group`). Which item that is depends on the
order of the list; in a list sorted by its items it is the greatest
(`lastOf_greatest`).
-/

namespace Cor.Lib

open Std (ExtTreeMap TransCmp LawfulEqCmp)

variable {α β κ : Type} [DecidableEq κ] {cmp : κ → κ → Ordering}

/-- The last item of a group. -/
def lastOf (k : κ) : List (α × κ) → Option α
  | [] => none
  | e :: items => (lastOf k items).or (if e.2 = k then some e.1 else none)

/-- `for (auto e : items) put(m[e.2], e.1)`. -/
def group [TransCmp cmp] (put : α → β → β) (start : β) (items : List (α × κ))
    (m : ExtTreeMap κ β cmp) : ExtTreeMap κ β cmp :=
  items.foldl (fun m e => m.insert e.2 (put e.1 (m[e.2]?.getD start))) m

section Last

variable {k : κ} {a : α} {items : List (α × κ)}

theorem lastOf_cons (k : κ) (e : α × κ) (items : List (α × κ)) :
    lastOf k (e :: items) = (lastOf k items).or (if e.2 = k then some e.1 else none) := rfl

theorem mem_of_lastOf (h : lastOf k items = some a) : (a, k) ∈ items := by
  induction items with
  | nil => exact absurd h (by simp [lastOf])
  | cons e items ih =>
    rw [lastOf_cons] at h
    cases hrest : lastOf k items with
    | some b =>
      rw [hrest, Option.some_or] at h
      exact List.mem_cons_of_mem _ (ih (hrest.trans h))
    | none =>
      rw [hrest, Option.none_or] at h
      split at h
      next hk =>
        obtain rfl := Option.some.inj h
        subst hk
        exact List.mem_cons_self
      next => exact absurd h (by simp)

theorem lastOf_isSome (h : (a, k) ∈ items) : ∃ b, lastOf k items = some b := by
  induction items with
  | nil => exact absurd h (by simp)
  | cons e items ih =>
    rw [lastOf_cons]
    rcases List.mem_cons.mp h with rfl | hmem
    · cases hrest : lastOf k items with
      | some b => exact ⟨b, rfl⟩
      | none => exact ⟨a, by simp⟩
    · obtain ⟨b, hb⟩ := ih hmem
      exact ⟨b, by rw [hb, Option.some_or]⟩

/-- In a sorted list the last item of a group is the greatest. -/
theorem lastOf_greatest {r : α → α → Prop} (hsorted : items.Pairwise fun e e' => r e.1 e'.1)
    (h : lastOf k items = some a) {b : α} (hb : (b, k) ∈ items) : b = a ∨ r b a := by
  induction items with
  | nil => exact absurd hb (by simp)
  | cons e items ih =>
    obtain ⟨hhead, htail⟩ := List.pairwise_cons.mp hsorted
    rw [lastOf_cons] at h
    cases hrest : lastOf k items with
    | some x =>
      rw [hrest, Option.some_or] at h
      have hlast : lastOf k items = some a := hrest.trans h
      rcases List.mem_cons.mp hb with rfl | hmem
      · exact Or.inr (hhead _ (mem_of_lastOf hlast))
      · exact ih htail hlast hmem
    | none =>
      rw [hrest, Option.none_or] at h
      split at h
      next hk =>
        obtain rfl := Option.some.inj h
        rcases List.mem_cons.mp hb with rfl | hmem
        · exact Or.inl rfl
        · -- the head would not be the last of its group
          obtain ⟨c, hc⟩ := lastOf_isSome hmem
          rw [hrest] at hc
          exact absurd hc (by simp)
      next => exact absurd h (by simp)

end Last

variable [TransCmp cmp] [LawfulEqCmp cmp]

/-- Where the last item put wins, the entry of a group is its last item. -/
theorem getElem?_group {put : α → β → β} (hput : ∀ a b x, put a (put b x) = put a x)
    (start : β) (items : List (α × κ)) (m : ExtTreeMap κ β cmp) (k : κ) :
    (group put start items m)[k]? =
      match lastOf k items with
      | some a => some (put a (m[k]?.getD start))
      | none => m[k]? := by
  induction items generalizing m with
  | nil => rfl
  | cons e items ih =>
    have hone : ∀ k', (m.insert e.2 (put e.1 (m[e.2]?.getD start)))[k']? =
        if e.2 = k' then some (put e.1 (m[k']?.getD start)) else m[k']? := by
      intro k'
      rw [ExtTreeMap.getElem?_insert]
      by_cases hk : e.2 = k'
      · rw [if_pos (by simp [hk]), if_pos hk, hk]
      · rw [if_neg (by simp [hk]), if_neg hk]
    show (group put start items (m.insert e.2 (put e.1 (m[e.2]?.getD start))))[k]? = _
    rw [ih, hone]
    rw [lastOf_cons]
    cases hrest : lastOf k items with
    | some a =>
      by_cases hk : e.2 = k
      · simp [hk, hput]
      · simp [hk]
    | none =>
      by_cases hk : e.2 = k
      · simp [hk]
      · simp [hk]

end Cor.Lib

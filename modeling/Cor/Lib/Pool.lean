import Mathlib.Data.Finmap
import Mathlib.Data.Multiset.Count

/-!
# A pool of live objects

Objects with an identity, created, overwritten and destroyed one at a time: a
finite map from identities to contents. What an ownership argument needs of it
is the multiset of the contents, and how the three updates change it. Each law
is stated as an equation between multisets with the old content on one side and
the new one on the other, so that counting an element in it gives a conservation
law that `omega` can use.
-/

namespace Cor.Lib

/-- The live objects, by identity. -/
abbrev Pool (α : Type) := Finmap (fun _ : Nat => α)

namespace Pool

variable {α : Type} {p : Pool α} {o : Nat} {a b : α}

/-- What the live objects hold, with multiplicity. -/
def contents (p : Pool α) : Multiset α := p.entries.map Sigma.snd

theorem contents_insert_new (h : p.lookup o = none) :
    contents (p.insert o a) = a ::ₘ contents p := by
  have hmem : o ∉ p := Finmap.lookup_eq_none.mp h
  rw [contents, Finmap.entries_insert_of_notMem hmem, Multiset.map_cons]
  rfl

/-- Overwriting an object is destroying it and creating it anew. -/
theorem insert_erase : (p.erase o).insert o a = p.insert o a := by
  apply Finmap.ext_lookup
  intro x
  by_cases hx : x = o
  · rw [hx, Finmap.lookup_insert, Finmap.lookup_insert]
  · rw [Finmap.lookup_insert_of_ne _ hx, Finmap.lookup_insert_of_ne _ hx,
      Finmap.lookup_erase_ne hx]

/-- An object that is overwritten and then destroyed is destroyed. -/
theorem erase_insert : (p.insert o a).erase o = p.erase o := by
  apply Finmap.ext_lookup
  intro x
  by_cases hx : x = o
  · rw [hx, Finmap.lookup_erase, Finmap.lookup_erase]
  · rw [Finmap.lookup_erase_ne hx, Finmap.lookup_erase_ne hx, Finmap.lookup_insert_of_ne _ hx]

theorem insert_lookup (h : p.lookup o = some b) : p.insert o b = p := by
  apply Finmap.ext_lookup
  intro x
  by_cases hx : x = o
  · rw [hx, Finmap.lookup_insert, h]
  · rw [Finmap.lookup_insert_of_ne _ hx]

theorem contents_erase (h : p.lookup o = some b) :
    b ::ₘ contents (p.erase o) = contents p := by
  rw [← contents_insert_new (Finmap.lookup_erase o p), insert_erase, insert_lookup h]

theorem contents_insert_old (h : p.lookup o = some b) :
    b ::ₘ contents (p.insert o a) = a ::ₘ contents p := by
  rw [← insert_erase, contents_insert_new (Finmap.lookup_erase o p), Multiset.cons_swap,
    contents_erase h]

/-- What is live after an object was created or overwritten. -/
theorem lookup_insert_some {x : Nat} (h : (p.insert o a).lookup x = some b) :
    (x = o ∧ b = a) ∨ (x ≠ o ∧ p.lookup x = some b) := by
  by_cases hx : x = o
  · rw [hx, Finmap.lookup_insert, Option.some.injEq] at h
    exact Or.inl ⟨hx, h.symm⟩
  · rw [Finmap.lookup_insert_of_ne _ hx] at h
    exact Or.inr ⟨hx, h⟩

/-- What is live after an object was destroyed. -/
theorem lookup_erase_some {x : Nat} (h : (p.erase o).lookup x = some b) :
    x ≠ o ∧ p.lookup x = some b := by
  have hx : x ≠ o := by
    rintro rfl
    rw [Finmap.lookup_erase] at h
    exact nomatch h
  rw [Finmap.lookup_erase_ne hx] at h
  exact ⟨hx, h⟩

/-- What holds of every live object still does after one was created or overwritten. -/
theorem forall_insert {P : α → Prop} (h : ∀ x b, p.lookup x = some b → P b) (ha : P a) :
    ∀ x b, (p.insert o a).lookup x = some b → P b := by
  intro x b hx
  rcases lookup_insert_some hx with ⟨-, rfl⟩ | ⟨-, hold⟩
  · exact ha
  · exact h x b hold

/-- And after one was destroyed. -/
theorem forall_erase {P : α → Prop} (h : ∀ x b, p.lookup x = some b → P b) :
    ∀ x b, (p.erase o).lookup x = some b → P b := by
  intro x b hx
  exact h x b (lookup_erase_some hx).2

section Tally

variable {β : Type} [DecidableEq β] {f : α → β}

/-- How many live objects have `v` as their `f`. -/
def tally (f : α → β) (p : Pool α) (v : β) : Nat := ((contents p).map f).count v

/-- What one object contributes to the tally of `v`. -/
def unit (f : α → β) (v : β) (a : α) : Nat := if v = f a then 1 else 0

theorem unit_of_ne {v : β} (h : f a ≠ v) : unit f v a = 0 := if_neg (Ne.symm h)

theorem count_singleton (v : β) : [f a].count v = unit f v a := by
  rw [unit, List.count_singleton]
  simp only [beq_iff_eq, eq_comm (a := v)]

@[simp] theorem tally_empty (v : β) : tally f (∅ : Pool α) v = 0 := rfl

theorem tally_insert_new (v : β) (h : p.lookup o = none) :
    tally f (p.insert o a) v = tally f p v + unit f v a := by
  rw [tally, contents_insert_new h, Multiset.map_cons, Multiset.count_cons]
  rfl

theorem tally_insert_old (v : β) (h : p.lookup o = some b) :
    tally f (p.insert o a) v + unit f v b = tally f p v + unit f v a := by
  have hc := congrArg (fun m => (m.map f).count v) (contents_insert_old (a := a) h)
  simp only [Multiset.map_cons, Multiset.count_cons] at hc
  exact hc

theorem tally_erase (v : β) (h : p.lookup o = some b) :
    tally f (p.erase o) v + unit f v b = tally f p v := by
  have hc := congrArg (fun m => (m.map f).count v) (contents_erase h)
  simp only [Multiset.map_cons, Multiset.count_cons] at hc
  exact hc

/-- What is counted is there. -/
theorem exists_of_tally_pos {v : β} (h : 0 < tally f p v) :
    ∃ o a, p.lookup o = some a ∧ f a = v := by
  obtain ⟨a, ha, hfa⟩ := Multiset.mem_map.mp (Multiset.count_pos.mp h)
  obtain ⟨⟨o, b⟩, hmem, hb⟩ := Multiset.mem_map.mp ha
  obtain rfl : b = a := hb
  exact ⟨o, b, Finmap.mem_lookup_iff.mpr hmem, hfa⟩

/-- What every object of one kind is of another, is not counted less there. -/
theorem tally_le {γ : Type} [DecidableEq γ] {g : α → γ} {v : β} {w : γ}
    (h : ∀ o a, p.lookup o = some a → f a = v → g a = w) : tally f p v ≤ tally g p w := by
  unfold tally
  rw [Multiset.count_map, Multiset.count_map]
  refine Multiset.card_le_card (Multiset.le_filter.mpr ⟨Multiset.filter_le _ _, ?_⟩)
  intro a ha
  obtain ⟨hmem, hv⟩ := Multiset.mem_filter.mp ha
  obtain ⟨⟨o, b⟩, hob, rfl⟩ := Multiset.mem_map.mp hmem
  exact (h o b (Finmap.mem_lookup_iff.mpr hob) hv.symm).symm

end Tally

/-- In a history to which nothing is added twice each entry counts once at most. -/
theorem count_fresh {β : Type} [BEq β] [LawfulBEq β] {history : List β} {v w : β}
    (hfresh : w = v → v ∉ history) :
    history.count v ≤ (history ++ [w]).count v ∧
      (history.count v ≤ 1 → (history ++ [w]).count v ≤ 1) := by
  rw [List.count_append, List.count_singleton]
  by_cases hw : w = v
  · rw [List.count_eq_zero.mpr (hfresh hw), if_pos (beq_iff_eq.mpr hw)]
    omega
  · rw [if_neg (fun he => hw (beq_iff_eq.mp he))]
    exact ⟨Nat.le_refl _, id⟩

end Pool

end Cor.Lib

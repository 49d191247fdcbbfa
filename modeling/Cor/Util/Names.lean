import Cor.Base.Bytes

/-!
# `id_from_name` and `name_index`

Both go through an array from its front and compare with `strcmp`. `id_from_name`
stops at the entry whose name is null. `name_index` is told the length, which it
converts to an `int`: it looks at as many entries as the result says, which is none
where the conversion gives a negative number.
-/

namespace Cor.Names

/-- `name_id`, with a name. -/
structure NameId where
  id : Int32
  name : CStr
deriving DecidableEq

/-- `id_from_name(from, name)`, for the entries of `from` before the one without a name. -/
def idFromName : List NameId → CStr → Int32
  | [], _ => -1
  | entry :: rest, name => if name = entry.name then entry.id else idFromName rest name

/-- `(int)len`. -/
def asInt (len : UInt64) : Int32 := Int32.ofNat len.toNat

/-- The loop of `name_index` from `pos` on. There is no result if it reads behind the array. -/
def nameIndexFrom (name : CStr) (names : List CStr) (len : Int32) (pos : Nat) : Option Int32 :=
  if _h : (pos : Int) < len.toInt then
    match names[pos]? with
    | none => none
    | some entry =>
      if name = entry then some (Int32.ofNat pos) else nameIndexFrom name names len (pos + 1)
  else some (-1)
termination_by (len.toInt - pos).toNat
decreasing_by
  show (len.toInt - (pos + 1 : Nat)).toNat < (len.toInt - pos).toNat
  omega

/-- `name_index(name, names, len)`. -/
def nameIndex (name : CStr) (names : List CStr) (len : UInt64) : Option Int32 :=
  nameIndexFrom name names (asInt len) 0

/-! ## `id_from_name` -/

/-- The id of the first entry of that name. -/
theorem idFromName_eq (table : List NameId) (name : CStr) :
    idFromName table name = ((table.find? (name = ·.name)).map NameId.id).getD (-1) := by
  induction table with
  | nil => rfl
  | cons entry rest ih =>
    rw [idFromName, List.find?_cons]
    by_cases h : name = entry.name
    · rw [if_pos h, decide_eq_true h]
      rfl
    · rw [if_neg h, decide_eq_false h]
      exact ih

/-- Where no name occurs twice each entry is found by its name. -/
theorem idFromName_of_mem {table : List NameId} (hnodup : (table.map NameId.name).Nodup)
    {entry : NameId} (h : entry ∈ table) : idFromName table entry.name = entry.id := by
  induction table with
  | nil => exact nomatch h
  | cons first rest ih =>
    obtain ⟨hfirst, hrest⟩ := List.nodup_cons.mp (List.map_cons ▸ hnodup)
    rw [idFromName]
    rcases List.mem_cons.mp h with rfl | h
    · rw [if_pos rfl]
    · have hne : entry.name ≠ first.name := by
        intro heq
        exact hfirst (heq ▸ List.mem_map_of_mem h)
      rw [if_neg hne]
      exact ih hrest h

/-! ## `name_index` -/

/-- What the loop answers, if no entry before `pos` has the name. -/
theorem nameIndexFrom_spec {name : CStr} {names : List CStr} {len : Int32} {pos : Nat}
    (hlen : len.toInt ≤ names.length) (hbefore : ∀ j < pos, names[j]? ≠ some name) :
    (∃ i, nameIndexFrom name names len pos = some (Int32.ofNat i) ∧ (i : Int) < len.toInt ∧
      names[i]? = some name ∧ ∀ j < i, names[j]? ≠ some name) ∨
    (nameIndexFrom name names len pos = some (-1) ∧
      ∀ j : Nat, (j : Int) < len.toInt → names[j]? ≠ some name) := by
  induction hn : (len.toInt - pos).toNat generalizing pos with
  | zero =>
    have hend : ¬ (pos : Int) < len.toInt := by omega
    rw [nameIndexFrom, dif_neg hend]
    exact .inr ⟨rfl, fun j hj => hbefore j (by omega)⟩
  | succ n ih =>
    have hlt : (pos : Int) < len.toInt := by omega
    have hin : pos < names.length := by omega
    obtain ⟨entry, hget⟩ : ∃ entry, names[pos]? = some entry := ⟨_, List.getElem?_eq_getElem hin⟩
    rw [nameIndexFrom, dif_pos hlt, hget]
    by_cases heq : name = entry
    · subst heq
      simp only [if_true]
      exact .inl ⟨pos, rfl, hlt, hget, hbefore⟩
    · simp only [if_neg heq]
      refine ih (fun j hj => ?_) (by omega)
      rcases Nat.lt_succ_iff_lt_or_eq.mp hj with hj | rfl
      · exact hbefore j hj
      · rw [hget]
        exact fun h => heq (Option.some.inj h).symm

/-- Below 2^31 the conversion keeps the length. -/
theorem asInt_of_lt {len : UInt64} (h : len.toNat < 2147483648) : (asInt len).toInt = len.toNat :=
  Int32.toInt_ofNat_of_lt h

/-- **`name_index` finds the first entry of that name**, and answers -1 if there is none. -/
theorem nameIndex_spec {name : CStr} {names : List CStr} {len : UInt64}
    (hint : len.toNat < 2147483648) (hlen : len.toNat ≤ names.length) :
    (∃ i : Nat, ∃ res : Int32, nameIndex name names len = some res ∧ res.toInt = i ∧
      i < len.toNat ∧ names[i]? = some name ∧ ∀ j < i, names[j]? ≠ some name) ∨
    (nameIndex name names len = some (-1) ∧ name ∉ names.take len.toNat) := by
  have hlimit := asInt_of_lt hint
  have hbefore : ∀ j < 0, names[j]? ≠ some name := fun j hj => absurd hj (Nat.not_lt_zero j)
  rcases @nameIndexFrom_spec name names (asInt len) 0 (by omega) hbefore with
    ⟨i, hres, hi, hname, hfirst⟩ | ⟨hres, hnone⟩
  · refine .inl ⟨i, _, hres, Int32.toInt_ofNat_of_lt (by omega), by omega, hname, hfirst⟩
  · refine .inr ⟨hres, fun hmem => ?_⟩
    obtain ⟨j, hj⟩ := List.mem_iff_getElem?.mp hmem
    rw [List.getElem?_take] at hj
    split at hj
    · exact hnone j (by omega) hj
    · exact nomatch hj

/-- A length that is negative as an `int` is taken for an empty array. -/
theorem nameIndex_of_neg {name : CStr} {names : List CStr} {len : UInt64}
    (h : (asInt len).toInt < 0) : nameIndex name names len = some (-1) := by
  rw [nameIndex, nameIndexFrom, dif_neg (by omega)]

end Cor.Names

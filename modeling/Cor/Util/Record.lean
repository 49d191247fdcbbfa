import Cor.Util.Split
import Cor.Util.Tuple

/-!
# `Record`

A record is a tuple whose positions go by the values of an enumeration, from 0 to
`Last_`. `Last_` is `n` here, so there are `n + 1` fields and no record is empty.

`RecordDump<N>` writes the field `Last_ - N` with a comma behind it and goes on with
`RecordDump<N - 1>`; `RecordDump<0>` writes the field `Last_` and no comma.
`put_eq_join` says that the text between the parentheses is what `join` makes of the
fields in their order. What `<<` writes for a value is a parameter, which may be
`put` of another record.
-/

namespace Cor.Records

open Cor.Operations

variable {n : Nat} {α : Fin (n + 1) → Type}

/-- `Record<FieldsT, ElementsT...>`. -/
structure Record (α : Fin (n + 1) → Type) where
  data : Tuple α

/-- `get<Id>()`. -/
def Record.get (v : Record α) (id : Fin (n + 1)) : α id := v.data id

/-- `name<id>()` of `RecordTraits`, and what `<<` writes for the value of a field. -/
structure RecordTraits (α : Fin (n + 1) → Type) where
  name : Fin (n + 1) → Bytes
  shown : (id : Fin (n + 1)) → α id → Bytes

/-- `name << "=" << r`. -/
def RecordTraits.field (t : RecordTraits α) (v : Record α) (id : Fin (n + 1)) : Bytes :=
  t.name id ++ ascii "=" ++ t.shown id (v.get id)

/-- `RecordDump<N>::out(d, v)`. -/
def dump (t : RecordTraits α) (v : Record α) : (N : Nat) → N ≤ n → Bytes → Bytes
  | 0, _, d => d ++ t.field v (Fin.last n)
  | N + 1, h, d =>
    dump t v N (Nat.le_of_succ_le h)
      (d ++ t.field v ⟨n - (N + 1), by omega⟩ ++ ascii ", ")

/-- `dst << v`. -/
def put (t : RecordTraits α) (dst : Bytes) (v : Record α) : Bytes :=
  dump t v n (Nat.le_refl n) (dst ++ ascii "(") ++ ascii ")"

/-! ## The text of a record -/

/-- The fields, in the order of the enumeration. -/
def fields (t : RecordTraits α) (v : Record α) : List Bytes :=
  (List.finRange (n + 1)).map (t.field v)

theorem length_fields (t : RecordTraits α) (v : Record α) : (fields t v).length = n + 1 := by
  rw [fields, List.length_map, List.length_finRange]

theorem drop_fields (t : RecordTraits α) (v : Record α) (i : Fin (n + 1)) :
    (fields t v).drop i = t.field v i :: (fields t v).drop (i + 1) := by
  have hlt : i.val < (fields t v).length := by
    rw [length_fields]
    exact i.isLt
  rw [List.drop_eq_getElem_cons hlt]
  simp [fields]

/-- From the field `Last_ - N` on. -/
theorem dump_eq_join (t : RecordTraits α) (v : Record α) (N : Nat) (h : N ≤ n) (d : Bytes) :
    dump t v N h d = d ++ Split.join ((fields t v).drop (n - N)) (ascii ", ") := by
  induction N generalizing d with
  | zero =>
    have hlast : (fields t v).drop (n + 1) = [] := by
      rw [List.drop_eq_nil_iff, length_fields]
    rw [dump, Nat.sub_zero, show (fields t v).drop n = _ from drop_fields t v (Fin.last n),
      Fin.val_last, hlast, Split.join_eq]
    simp
  | succ N ih =>
    have hdrop := drop_fields t v ⟨n - (N + 1), by omega⟩
    have hnext : n - (N + 1) + 1 = n - N := by omega
    have hne : (fields t v).drop (n - N) ≠ [] := by
      intro hnil
      rw [List.drop_eq_nil_iff, length_fields] at hnil
      omega
    simp only [hnext] at hdrop
    rw [dump, ih, hdrop, Split.join_eq, Split.join_eq, List.intercalate_cons_of_ne_nil hne]
    simp

/-- **A record is written as its fields joined by commas.** -/
theorem put_eq_join (t : RecordTraits α) (dst : Bytes) (v : Record α) :
    put t dst v = dst ++ ascii "(" ++ Split.join (fields t v) (ascii ", ") ++ ascii ")" := by
  rw [put, dump_eq_join, Nat.sub_self, List.drop_zero]

end Cor.Records

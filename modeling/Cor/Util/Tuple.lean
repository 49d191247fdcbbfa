import Mathlib.Data.List.FinRange
import Mathlib.Logic.Function.Basic
import Cor.Lib.Emit
import Cor.Lib.Operands

/-!
# `apply_if_changed`, `copy_apply_if_changed` and `apply`

A tuple of `n` elements is a function that gives each position its element, of a
type of its own. The recursion over the selectors runs from the first position to
the last, at compile time; what is left at run time is a nested sum, and which
operand of each `+` is evaluated first is an argument here (`Order`).

An action sees the new value of its field and, when it takes two arguments, the old
one. What else it reads and writes is the world, and it may throw. The tuples are
not part of the world. Copying an element neither throws nor has another effect.

Each call of an action is recorded, and so is each that returned; no function reads
the records.
-/

namespace Cor.Operations

open Cor.Lib

variable {n : Nat} {α : Fin n → Type} {ε ω : Type}

/-- `std::tuple<Args...>`. -/
abbrev Tuple (α : Fin n → Type) := (i : Fin n) → α i

/-! ## Selectors -/

/-- `TupleSelector<N, P>`. The positions are counted from 1. -/
structure TupleSelector (n : Nat) where
  p : Nat
  one_le : 1 ≤ p
  le_size : p ≤ n

namespace TupleSelector

/-- `pos`, which `std::get` counts from 0. -/
def pos (s : TupleSelector n) : Fin n := ⟨s.p - 1, by
  have hone := s.one_le
  have hsize := s.le_size
  omega⟩

/-- `next()`, of a selector that is not `TupleSelector<N, N>`. -/
def next (s : TupleSelector n) (h : s.p ≠ n) : TupleSelector n :=
  ⟨s.p + 1, Nat.le_add_left 1 s.p, by
    have hsize := s.le_size
    omega⟩

/-- `get(v)`. -/
def get (s : TupleSelector n) (v : Tuple α) : α s.pos := v s.pos

end TupleSelector

/-- `selector(v)`, for a tuple that is not empty. -/
def selector (h : 1 ≤ n) : TupleSelector n := ⟨1, Nat.le_refl 1, h⟩

/-! ## Actions -/

/-- The function for one field, by its arity (`function_traits`). -/
inductive Action (ε ω β : Type) where
  | arity1 (fn : β → EStateM ε ω Unit)
  | arity2 (fn : β → β → EStateM ε ω Unit)

/-- What an action was called with. -/
inductive Args (β : Type) where
  | one (current : β)
  | two (current before : β)
deriving DecidableEq

namespace Action

variable {β : Type}

/-- `fn(v1)` or `fn(v1, v2)`. -/
def invoke : Action ε ω β → β → β → EStateM ε ω Unit
  | arity1 fn, v1, _ => fn v1
  | arity2 fn, v1, v2 => fn v1 v2

def args : Action ε ω β → β → β → Args β
  | arity1 _, v1, _ => .one v1
  | arity2 _, v1, v2 => .two v1 v2

end Action

/-- `ActionsT`, a tuple with an action for each field. -/
abbrev Actions (ε ω : Type) (α : Fin n → Type) := (i : Fin n) → Action ε ω (α i)

/-- A call of the action of one field. -/
abbrev Call (α : Fin n → Type) := (i : Fin n) × Args (α i)

/-- The first tuple, the world, and the record of the calls and of those that returned. -/
structure Fields (α : Fin n → Type) (ω : Type) where
  values : Tuple α
  world : ω
  calls : List (Call α)
  completed : List (Fin n)

/-- Which operand of the `+` at each selector is evaluated first. -/
abbrev Order (n : Nat) := TupleSelector n → Bool

/-! ## The operations -/

section

variable [∀ i, DecidableEq (α i)] (current : Tuple α) (actions : Actions ε ω α)

end

section

variable [∀ i, DecidableEq (α i)] (current : Tuple α) (actions : Actions ε ω α)

end

/-! ## `apply` -/

/-- `apply_(values, actions, selector)`. The actions take one argument. -/
def apply_ (values : Tuple α) (actions : (i : Fin n) → α i → EStateM ε ω Unit)
    (s : TupleSelector n) : EStateM ε ω Unit :=
  actions s.pos (s.get values)

/-- `Operations::apply(values, actions, selector)`. -/
def applyFrom (values : Tuple α) (actions : (i : Fin n) → α i → EStateM ε ω Unit)
    (s : TupleSelector n) : EStateM ε ω Unit :=
  if h : s.p = n then apply_ values actions s
  else do
    apply_ values actions s
    applyFrom values actions (s.next h)
termination_by n - s.p
decreasing_by
  have hsize := s.le_size
  show n - (s.p + 1) < n - s.p
  omega

/-- `apply(values, actions)`. -/
def apply (h : 1 ≤ n) (values : Tuple α) (actions : (i : Fin n) → α i → EStateM ε ω Unit) :
    EStateM ε ω Unit :=
  applyFrom values actions (selector h)

/-! ## The order in which the fields are visited -/

/-- The positions from a selector on, in the order of their evaluation. -/
def visits (order : Order n) (s : TupleSelector n) : List (Fin n) :=
  if h : s.p = n then [s.pos]
  else Operands.place (order s) s.pos (visits order (s.next h))
termination_by n - s.p
decreasing_by
  have hsize := s.le_size
  show n - (s.p + 1) < n - s.p
  omega

/-- The positions from a selector on. -/
theorem drop_pos (s : TupleSelector n) : (List.finRange n).drop (s.p - 1) =
    s.pos :: (List.finRange n).drop s.p := by
  have hone := s.one_le
  have hlt : s.p - 1 < (List.finRange n).length := by
    rw [List.length_finRange]
    exact s.pos.isLt
  rw [List.drop_eq_getElem_cons hlt, List.getElem_finRange, Nat.sub_add_cancel hone]
  rfl

/-- From a selector on, `apply` is a loop over the positions that are left. -/
theorem applyFrom_eq_forM {values : Tuple α} {actions : (i : Fin n) → α i → EStateM ε ω Unit}
    (s : TupleSelector n) :
    applyFrom values actions s =
      ((List.finRange n).drop (s.p - 1)).forM fun i => actions i (values i) := by
  induction s using applyFrom.induct with
  | case1 s h =>
    have hdrop : (List.finRange n).drop s.p = [] := by
      rw [List.drop_eq_nil_iff, List.length_finRange]
      exact Nat.le_of_eq h.symm
    rw [applyFrom, dif_pos h, drop_pos, hdrop]
    exact bind_pure_unit.symm
  | case2 s h ih =>
    rw [applyFrom, dif_neg h, drop_pos, ih]
    rfl

/-- `apply` calls the actions from the first field to the last. -/
theorem apply_eq_forM {h : 1 ≤ n} {values : Tuple α}
    {actions : (i : Fin n) → α i → EStateM ε ω Unit} :
    apply h values actions = (List.finRange n).forM fun i => actions i (values i) :=
  applyFrom_eq_forM (selector h)

/-! ## One field -/

/-- The call that a field gives rise to. -/
def callOf (current : Tuple α) (actions : Actions ε ω α) (values : Tuple α) (i : Fin n) : Call α :=
  ⟨i, (actions i).args (current i) (values i)⟩

section

variable [∀ i, DecidableEq (α i)] (current : Tuple α) (actions : Actions ε ω α)

end

end Cor.Operations

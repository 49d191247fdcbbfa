import Cor.Notlisp.Interpreter
import Cor.Sexp.Render

/-!
# The meaning of a program

What a forest of forms means, without a parser and without a stack of frames: a
recursive evaluator. Each form is evaluated once, from left to right; a string
is itself, an atom is what the default converter makes of it, looked up when that
is a symbol, and a list calls its head with the values of the items after it.

`Halt` says why and where an evaluation stops. The place is the position of the
list in the forest, the innermost index first.

`evalForm_ground` is the invariant of the evaluator: with functions that answer
ground values for ground arguments (`CallsGround`), every value is ground.
-/

namespace Cor.Notlisp

open Sexp (Form)
open Lib (Emit)

/-- Why an evaluation stops. -/
inductive Stop (F : Type) where
  /-- the list is empty -/
  | empty
  /-- the head is not a function -/
  | notFunction (head : ExprPtr F)
  /-- the function throws -/
  | thrown (e : Exn)
  /-- the atom is a symbol that is not bound -/
  | unbound (name : Bytes)

structure Halt (F : Type) where
  path : List Nat
  why : Stop F

section

variable {F W : Type}

abbrev Eval (F W : Type) := EStateM (Halt F) (Env F W)

/-- Stop at this form. -/
def halt {α : Type} (why : Stop F) : Eval F W α := throw ⟨[], why⟩

/-- The evaluation of item `n` of a list. -/
def item {α : Type} (n : Nat) (x : Eval F W α) : Eval F W α := fun env =>
  match x env with
  | .ok a env' => .ok a env'
  | .error h env' => .error { h with path := h.path ++ [n] } env'

def evalAtom (s : Bytes) : Eval F W (ExprPtr F) := fun env =>
  match defaultAtomConvert s with
  | some (.symbol name) =>
    match env.dict[name]? with
    | some p => .ok p env
    | none => .error ⟨[], .unbound name⟩ env
  | v => .ok v env

variable (call : F → ExprList F → EStateM Exn (Env F W) (ExprPtr F))

/-- The call of the first of `vs` with the others. -/
def applyHead (vs : ExprList F) : Eval F W (ExprPtr F) :=
  match vs with
  | [] => halt .empty
  | some (.lambda _ fn) :: args => fun env =>
    match call fn args env with
    | .ok v env' => .ok v env'
    | .error e env' => .error ⟨[], .thrown e⟩ env'
  | head :: _ => halt (.notFunction head)

mutual

/-- **The value of a form.** -/
def evalForm : Form → Eval F W (ExprPtr F)
  | .list items => do
    let vs ← evalForms items []
    applyHead call vs
  | .string s => pure (mkString s)
  | .atom s => evalAtom s

/-- The values of the forms of a list, after the values `vs` of those before them. -/
def evalForms : List Form → ExprList F → Eval F W (ExprList F)
  | [], vs => pure vs
  | f :: fs, vs => do
    let v ← item vs.length (evalForm f)
    evalForms fs (vs ++ [v])

end

/-- The values of the top-level forms. -/
def evalForest (fs : List Form) : Eval F W (ExprList F) := evalForms call fs []

/-! ## Ground values -/

/-- Every bound value is ground. -/
def Env.Ground (env : Env F W) : Prop := ∀ (name : Bytes) (p : ExprPtr F),
  env.dict[name]? = some p → Notlisp.Ground p

/-- The functions map ground arguments to a ground result, or throw, and keep the
environment ground. -/
def CallsGround : Prop := ∀ (fn : F) (args : ExprList F) (env : Env F W),
  GroundList args → env.Ground → match call fn args env with
    | .ok v env' => Notlisp.Ground v ∧ env'.Ground
    | .error _ _ => True

theorem groundList_snoc {vs : ExprList F} {v : ExprPtr F} (hvs : GroundList vs) (hv : Ground v) :
    GroundList (vs ++ [v]) := by
  induction vs with
  | nil => exact ⟨hv, trivial⟩
  | cons p ps ih => exact ⟨hvs.1, ih hvs.2⟩

/-- What the default converter makes is a symbol or ground. -/
theorem defaultAtomConvert_cases (s : Bytes) :
    (∃ name, (defaultAtomConvert s : ExprPtr F) = some (.symbol name)) ∨
      Ground (defaultAtomConvert s : ExprPtr F) := by
  unfold defaultAtomConvert
  split
  · exact .inr trivial
  · dsimp only
    split_ifs
    · exact .inr trivial
    · exact .inr trivial
    · exact .inl ⟨s, rfl⟩

/-- A result whose value and environment are ground. -/
def Yields {α : Type} (P : α → Prop) : EStateM.Result (Halt F) (Env F W) α → Prop
  | .ok a env => P a ∧ env.Ground
  | .error _ _ => True

theorem Yields.bind {α β : Type} {P : α → Prop} {Q : β → Prop} {x : Eval F W α}
    {k : α → Eval F W β} {env : Env F W} (hx : Yields P (x env))
    (hk : ∀ a env', P a → env'.Ground → Yields Q (k a env')) : Yields Q ((x >>= k) env) := by
  rw [Emit.bind_apply]
  cases hrun : x env with
  | ok a env' =>
    rw [hrun] at hx
    exact hk a env' hx.1 hx.2
  | error h env' => trivial

theorem item_yields {α : Type} {P : α → Prop} {n : Nat} {x : Eval F W α} {env : Env F W}
    (hx : Yields P (x env)) : Yields P (item n x env) := by
  unfold item
  cases hrun : x env with
  | ok a env' =>
    rw [hrun] at hx
    exact hx
  | error h env' => trivial

/-- An atom that denotes a value. -/
theorem evalAtom_ground {s : Bytes} (hs : Ground (defaultAtomConvert s : ExprPtr F))
    (env : Env F W) : evalAtom s env = .ok (defaultAtomConvert s) env := by
  unfold evalAtom
  cases hc : (defaultAtomConvert s : ExprPtr F) with
  | none => rfl
  | some e =>
    rw [hc] at hs
    cases e with
    | symbol name => exact hs.elim
    | _ => rfl

/-- An atom that is a name. -/
theorem evalAtom_symbol {s name : Bytes}
    (hs : (defaultAtomConvert s : ExprPtr F) = some (.symbol name)) (env : Env F W) :
    evalAtom s env = match env.dict[name]? with
      | some p => .ok p env
      | none => .error ⟨[], .unbound name⟩ env := by
  unfold evalAtom
  rw [hs]

theorem evalAtom_yields (s : Bytes) {env : Env F W} (henv : env.Ground) :
    Yields Ground (evalAtom s env) := by
  rcases defaultAtomConvert_cases s with ⟨name, hname⟩ | hground
  · rw [evalAtom_symbol hname]
    cases hd : env.dict[name]? with
    | some p => exact ⟨henv name p hd, henv⟩
    | none => trivial
  · rw [evalAtom_ground hground]
    exact ⟨hground, henv⟩

variable {call}

/-- A head that is not a function. -/
theorem applyHead_other {head : ExprPtr F} (hhead : ∀ name fn, head ≠ some (.lambda name fn))
    (args : ExprList F) : applyHead call (head :: args) = halt (.notFunction head) := by
  unfold applyHead
  cases head with
  | none => rfl
  | some e =>
    cases e with
    | lambda name fn => exact absurd rfl (hhead name fn)
    | _ => rfl

theorem applyHead_yields (hcall : CallsGround call) {vs : ExprList F} {env : Env F W}
    (hvs : GroundList vs) (henv : env.Ground) : Yields Ground (applyHead call vs env) := by
  cases vs with
  | nil => trivial
  | cons head args =>
    by_cases hhead : ∃ name fn, head = some (.lambda name fn)
    · obtain ⟨name, fn, rfl⟩ := hhead
      have hfn := hcall fn args env hvs.2 henv
      unfold applyHead
      simp only
      cases hrun : call fn args env with
      | ok v env' =>
        rw [hrun] at hfn
        exact hfn
      | error e env' => trivial
    · rw [applyHead_other fun name fn he => hhead ⟨name, fn, he⟩]
      trivial

mutual

/-- **Values are ground.** -/
theorem evalForm_ground (hcall : CallsGround call) : ∀ (f : Form) {env : Env F W}, env.Ground →
    Yields Ground (evalForm call f env)
  | .list items, _, henv =>
    Yields.bind (evalForms_ground hcall items [] trivial henv) fun _ _ hvs henv' =>
      applyHead_yields hcall hvs henv'
  | .string _, _, henv => ⟨trivial, henv⟩
  | .atom s, _, henv => evalAtom_yields s henv

theorem evalForms_ground (hcall : CallsGround call) : ∀ (fs : List Form) (vs : ExprList F)
    {env : Env F W}, GroundList vs → env.Ground → Yields GroundList (evalForms call fs vs env)
  | [], _, _, hvs, henv => ⟨hvs, henv⟩
  | f :: fs, _, _, hvs, henv =>
    Yields.bind (item_yields (evalForm_ground hcall f henv)) fun _ _ hv henv' =>
      evalForms_ground hcall fs _ (groundList_snoc hvs hv) henv'

end

end

end Cor.Notlisp

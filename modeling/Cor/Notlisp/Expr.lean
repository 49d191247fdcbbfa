import Cor.Base.Strto

/-!
# Expressions of the interpreter and their evaluation

The objects of the classes under `Expr` are one inductive type, with one
constructor for each concrete class, so the type tag (`Expr.type`) is computed from the
class. An `expr_ptr` is an `Option`: it may be null.

Modelling notes:

* an expression is a value: sharing is not visible, since nothing here changes an
  expression after it is built, and a bound function does not change the items of a
  `List` that it is given;
* `F` stands for the functions that a `LambdaExpr` may hold;
* `Env` has the dictionary of the source and, as `world`, whatever else the
  functions and the atom converter read and write;
* evaluating a symbol is `env->dict[value()]`, which adds a null entry for a name
  that is not bound.
-/

namespace Cor.Notlisp

open Std (ExtTreeMap)

/-- `Expr::Type`. -/
inductive ExprType where
  | symbol
  | keyword
  | string
  | function
  | nil
  | object
  | integer
  | real
deriving DecidableEq, Repr

/-- The value of the enumerator. -/
def ExprType.toNat : ExprType → Nat
  | symbol => 0
  | keyword => 1
  | string => 2
  | function => 3
  | nil => 4
  | object => 5
  | integer => 6
  | real => 7

/-- The `T` of a `BasicExpr<T>` made from a string: `BasicExpr<Nil>` has no such
constructor. -/
abbrev BasicType := { t : ExprType // t ≠ .nil }

/-- An expression, by its class. -/
inductive Expr (F : Type) where
  /-- `BasicExpr<T>` -/
  | basic (t : BasicType) (s : Bytes)
  /-- `Nil` -/
  | nil
  /-- `PodExpr` of a `long` -/
  | integer (i : Int64)
  /-- `PodExpr` of a `double` -/
  | real (r : Float)
  /-- `SymbolExpr` -/
  | symbol (s : Bytes)
  /-- `LambdaExpr` -/
  | lambda (name : Bytes) (fn : F)
  /-- `ObjectExpr` -/
  | object (s : Bytes)
  /-- `List` -/
  | list (items : List (Option (Expr F)))

/-- `expr_ptr`. -/
abbrev ExprPtr (F : Type) := Option (Expr F)

/-- `expr_list_type`. -/
abbrev ExprList (F : Type) := List (ExprPtr F)

section

variable {F W : Type}

def Expr.type : Expr F → ExprType
  | basic t _ => t
  | nil => .nil
  | integer _ => .integer
  | real _ => .real
  | symbol _ => .symbol
  | lambda _ _ => .function
  | object _ => .object
  | list _ => .object

def Expr.value : Expr F → Bytes
  | basic _ s => s
  | nil => []
  | integer _ => []
  | real _ => []
  | symbol s => s
  | lambda name _ => name
  | object s => s
  | list _ => ascii "list"

def mkString (s : Bytes) : ExprPtr F := some (.basic ⟨.string, by decide⟩ s)

def mkKeyword (s : Bytes) : ExprPtr F := some (.basic ⟨.keyword, by decide⟩ s)

def mkNil : ExprPtr F := some .nil

def mkSymbol (s : Bytes) : ExprPtr F := some (.symbol s)

/-- `default_atom_convert`. The end of the text is compared with `endptr`, so a
NUL in it makes it a symbol. -/
def defaultAtomConvert (s : Bytes) : ExprPtr F :=
  match s with
  | 58 :: name => mkKeyword name  -- :
  | _ =>
    let (i, n) := Strto.strtol (cStr s)
    if n = s.length then some (.integer i)
    else
      let (f, n) := Strto.strtod (cStr s)
      if n = s.length then some (.real f) else mkSymbol s

/-! ## Evaluation -/

structure Env (F W : Type) where
  dict : ExtTreeMap Bytes (ExprPtr F)
  world : W

/-- `env->dict[name]`. -/
def Env.lookup (env : Env F W) (name : Bytes) : ExprPtr F × Env F W :=
  match env.dict[name]? with
  | some p => (p, env)
  | none => (none, { env with dict := env.dict.insert name none })

mutual

/-- The virtual `do_eval`. -/
def Expr.doEval (env : Env F W) : Expr F → ExprPtr F × Env F W
  | .symbol s => env.lookup s
  | .list items =>
    let (res, env) := evalList env items
    (some (.list res), env)
  | .basic t s => (some (.basic t s), env)
  | .nil => (some .nil, env)
  | .integer i => (some (.integer i), env)
  | .real r => (some (.real r), env)
  | .lambda name fn => (some (.lambda name fn), env)
  | .object s => (some (.object s), env)

/-- `eval(env, src)`. -/
def eval (env : Env F W) : ExprPtr F → ExprPtr F × Env F W
  | some src => src.doEval env
  | none => (mkNil, env)

/-- The overload for a list, in the order of its elements. -/
def evalList (env : Env F W) : ExprList F → ExprList F × Env F W
  | [] => ([], env)
  | p :: ps =>
    let (v, env) := eval env p
    let (vs, env) := evalList env ps
    (v :: vs, env)

end

/-! ## Values that evaluate to themselves -/

mutual

/-- A value in which there is no null, and in which each symbol is bound to itself. -/
def Expr.Settled (env : Env F W) : Expr F → Prop
  | .symbol s => env.dict[s]? = some (some (.symbol s))
  | .list items => SettledList env items
  | .basic _ _ => True
  | .nil => True
  | .integer _ => True
  | .real _ => True
  | .lambda _ _ => True
  | .object _ => True

def Settled (env : Env F W) : ExprPtr F → Prop
  | some e => e.Settled env
  | none => False

def SettledList (env : Env F W) : ExprList F → Prop
  | [] => True
  | p :: ps => Settled env p ∧ SettledList env ps

end

mutual

theorem Expr.Settled.doEval {env : Env F W} : ∀ {e : Expr F}, e.Settled env →
    e.doEval env = (some e, env)
  | .symbol s, h => by
    have hbound : env.dict[s]? = some (some (.symbol s)) := h
    show env.lookup s = _
    unfold Env.lookup
    rw [hbound]
  | .list items, h => by
    have hitems : SettledList env items := h
    unfold Expr.doEval
    rw [hitems.evalList]
  | .basic _ _, _ => rfl
  | .nil, _ => rfl
  | .integer _, _ => rfl
  | .real _, _ => rfl
  | .lambda _ _, _ => rfl
  | .object _, _ => rfl

theorem Settled.eval {env : Env F W} : ∀ {p : ExprPtr F}, Settled env p →
    Notlisp.eval env p = (p, env)
  | some _, h => Expr.Settled.doEval h
  | none, h => h.elim

theorem SettledList.evalList {env : Env F W} : ∀ {ps : ExprList F}, SettledList env ps →
    Notlisp.evalList env ps = (ps, env)
  | [], _ => rfl
  | p :: ps, h => by
    obtain ⟨hp, hps⟩ : Settled env p ∧ SettledList env ps := h
    unfold Notlisp.evalList
    rw [hp.eval]
    show ((p :: (Notlisp.evalList env ps).1, (Notlisp.evalList env ps).2) :
      ExprList F × Env F W) = _
    rw [hps.evalList]

end

mutual

theorem Expr.settled_of_doEval {env : Env F W} : ∀ {e : Expr F},
    (e.doEval env).1 = some e → e.Settled env
  | .symbol s, h => by
    have hlookup : (env.lookup s).1 = some (.symbol s) := h
    unfold Env.lookup at hlookup
    show env.dict[s]? = some (some (.symbol s))
    cases hd : env.dict[s]? with
    | none =>
      rw [hd] at hlookup
      exact nomatch hlookup
    | some p =>
      rw [hd] at hlookup
      rw [show p = some (.symbol s) from hlookup]
  | .list items, h => by
    have hitems : (evalList env items).1 = items := by
      unfold Expr.doEval at h
      exact Expr.list.inj (Option.some.inj h)
    exact settledList_of_evalList hitems
  | .basic _ _, _ => trivial
  | .nil, _ => trivial
  | .integer _, _ => trivial
  | .real _, _ => trivial
  | .lambda _ _, _ => trivial
  | .object _, _ => trivial

theorem settled_of_eval {env : Env F W} : ∀ {p : ExprPtr F}, (eval env p).1 = p → Settled env p
  | some _, h => Expr.settled_of_doEval h
  | none, h => nomatch h

theorem settledList_of_evalList {env : Env F W} : ∀ {ps : ExprList F},
    (evalList env ps).1 = ps → SettledList env ps
  | [], _ => trivial
  | p :: ps, h => by
    have hcons : (eval env p).1 :: (evalList (eval env p).2 ps).1 = p :: ps := by
      unfold evalList at h
      exact h
    obtain ⟨hp, hps⟩ := List.cons.inj hcons
    have hsettled := settled_of_eval hp
    -- a settled item leaves the environment to the items after it as it is
    rw [hsettled.eval] at hps
    exact ⟨hsettled, settledList_of_evalList hps⟩

end

/-- **A value evaluates to itself** exactly when it is settled. -/
theorem eval_eq_iff {env : Env F W} {p : ExprPtr F} : (eval env p).1 = p ↔ Settled env p :=
  ⟨settled_of_eval, fun h => by rw [h.eval]⟩

/-! ## Ground values -/

mutual

/-- A value in which no symbol and no null is left. -/
def Expr.Ground : Expr F → Prop
  | .symbol _ => False
  | .list items => GroundList items
  | .basic _ _ => True
  | .nil => True
  | .integer _ => True
  | .real _ => True
  | .lambda _ _ => True
  | .object _ => True

def Ground : ExprPtr F → Prop
  | some e => e.Ground
  | none => False

def GroundList : ExprList F → Prop
  | [] => True
  | p :: ps => Ground p ∧ GroundList ps

end

mutual

theorem Expr.Ground.settled (env : Env F W) : ∀ {e : Expr F}, e.Ground → e.Settled env
  | .symbol _, h => h.elim
  | .list items, h => by
    have hitems : GroundList items := h
    exact hitems.settled env
  | .basic _ _, _ => trivial
  | .nil, _ => trivial
  | .integer _, _ => trivial
  | .real _, _ => trivial
  | .lambda _ _, _ => trivial
  | .object _, _ => trivial

theorem Ground.settled (env : Env F W) : ∀ {p : ExprPtr F}, Ground p → Settled env p
  | some _, h => Expr.Ground.settled env h
  | none, h => h.elim

theorem GroundList.settled (env : Env F W) : ∀ {ps : ExprList F}, GroundList ps →
    SettledList env ps
  | [], _ => trivial
  | p :: ps, h => by
    obtain ⟨hp, hps⟩ : Ground p ∧ GroundList ps := h
    exact ⟨hp.settled env, hps.settled env⟩

end

/-- A ground value evaluates to itself and leaves the environment alone. -/
theorem eval_ground (env : Env F W) {p : ExprPtr F} (h : Ground p) : eval env p = (p, env) :=
  (h.settled env).eval

theorem evalList_ground (env : Env F W) {ps : ExprList F} (h : GroundList ps) :
    evalList env ps = (ps, env) :=
  (h.settled env).evalList

end

end Cor.Notlisp

import Cor.Notlisp.Accessor
import Cor.Notlisp.Refine

/-!
# What the type tag of an expression promises

Three pieces of code go by `type()` alone. `on_list_end` casts an expression with the
tag `Function` to `FunctionExpr` without a check, `to_long` and `to_double` read the
number of one with the tag `Integer` or `Real`, and a name is looked up by the
`do_eval` of `SymbolExpr`. `BasicExpr<T>` takes any tag but `Nil` and a string: its
object is no `FunctionExpr`, its number is not written, and it evaluates to itself.
So the tag keeps its promise for every object but those of `BasicExpr<T>` with one of
these four tags (`tagOk_iff`).

The cast is a matter of whole programs too. `Castable` says that there is no
`BasicExpr<Function>` in a value; evaluation, functions and the converter keep to
such values if they are given such, and then no program reaches the cast with
anything else (`parse_casts`).
-/

namespace Cor.Notlisp

open Std (ExtTreeMap)
open Sexp (Callback CharSign Fault Handler parse)
open Lib (Emit)

variable {F W : Type}

/-! ## One object -/

/-- An object of `BasicExpr<T>` whose tag stands for what only another class has. -/
def Expr.Mislabelled (e : Expr F) : Prop :=
  ∃ t s, e = .basic t s ∧
    (t.1 = .function ∨ t.1 = .integer ∨ t.1 = .real ∨ t.1 = .symbol)

/-- What the tag of an object promises to the code that goes by it. -/
structure Expr.TagOk (e : Expr F) : Prop where
  /-- The object is a `FunctionExpr`. -/
  function : e.type = .function → ∃ name fn, e = .lambda name fn
  /-- `to_long` reads a number that was written. -/
  integer : e.type = .integer → ∃ i, Notlisp.toLong (some e) = .ok (some i)
  real : e.type = .real → ∃ r, Notlisp.toDouble (some e) = .ok (some r)
  /-- Evaluation looks the name up. -/
  symbol : e.type = .symbol → ∀ (V : Type) (env : Env F V), e.doEval env = env.lookup e.value

/-- An object that evaluates to itself does not look its name up. -/
theorem lookup_ne_self {e : Expr F} (he : ∀ env : Env F Unit, e.doEval env = (some e, env)) :
    ¬ ∀ env : Env F Unit, e.doEval env = env.lookup e.value := by
  intro hall
  have hempty := hall ⟨∅, ()⟩
  rw [he] at hempty
  have hnone : (Env.lookup (⟨∅, ()⟩ : Env F Unit) e.value).1 = none := by
    unfold Env.lookup
    simp
  rw [← hempty] at hnone
  exact nomatch hnone

theorem mustHaveType_ok {e : Expr F} {t : ExprType} (ht : e.type = t) (failureMsg : String) :
    mustHaveType (some e) t failureMsg = .ok e := by
  unfold mustHaveType
  dsimp only
  rw [if_neg (not_not_intro ht)]
  rfl

theorem toLong_tagged {e : Expr F} (ht : e.type = .integer) :
    Notlisp.toLong (some e) = .ok e.toLong := by
  unfold Notlisp.toLong
  rw [mustHaveType_ok ht]
  rfl

theorem toDouble_tagged {e : Expr F} (ht : e.type = .real) :
    Notlisp.toDouble (some e) = .ok e.toDouble := by
  unfold Notlisp.toDouble
  rw [mustHaveType_ok ht]
  rfl

/-- **The tag keeps its promise** for the objects that are not mislabelled, and for no
others. -/
theorem tagOk_iff (e : Expr F) : e.TagOk ↔ ¬ e.Mislabelled := by
  constructor
  · intro hok hbad
    obtain ⟨t, s, rfl, ht⟩ := hbad
    rcases ht with ht | ht | ht | ht
    · obtain ⟨name, fn, heq⟩ := hok.function ht
      exact nomatch heq
    · obtain ⟨i, hi⟩ := hok.integer ht
      have hread := toLong_tagged (show (Expr.basic t s : Expr F).type = .integer from ht)
      rw [hread] at hi
      exact nomatch hi
    · obtain ⟨r, hr⟩ := hok.real ht
      have hread := toDouble_tagged (show (Expr.basic t s : Expr F).type = .real from ht)
      rw [hread] at hr
      exact nomatch hr
    · exact lookup_ne_self (fun _ => rfl) (hok.symbol ht Unit)
  · intro hgood
    cases e with
    | basic t s =>
      refine ⟨?_, ?_, ?_, ?_⟩
      · intro ht
        exact absurd ⟨t, s, rfl, Or.inl ht⟩ hgood
      · intro ht
        exact absurd ⟨t, s, rfl, Or.inr (Or.inl ht)⟩ hgood
      · intro ht
        exact absurd ⟨t, s, rfl, Or.inr (Or.inr (Or.inl ht))⟩ hgood
      · intro ht
        exact absurd ⟨t, s, rfl, Or.inr (Or.inr (Or.inr ht))⟩ hgood
    | integer i =>
      exact ⟨fun h => (nomatch h), fun _ => ⟨i, rfl⟩, fun h => (nomatch h),
        fun h => (nomatch h)⟩
    | real r =>
      exact ⟨fun h => (nomatch h), fun h => (nomatch h), fun _ => ⟨r, rfl⟩,
        fun h => (nomatch h)⟩
    | symbol s =>
      exact ⟨fun h => (nomatch h), fun h => (nomatch h), fun h => (nomatch h),
        fun _ _ _ => rfl⟩
    | lambda name fn =>
      exact ⟨fun _ => ⟨name, fn, rfl⟩, fun h => (nomatch h), fun h => (nomatch h),
        fun h => (nomatch h)⟩
    | nil | object s | list items =>
      exact ⟨fun h => (nomatch h), fun h => (nomatch h), fun h => (nomatch h),
        fun h => (nomatch h)⟩

/-! ## Values without a `BasicExpr<Function>` -/

mutual

/-- What `on_list_end` can cast if it has the tag, and what is in it. -/
def Expr.Castable : Expr F → Prop
  | .basic t _ => t.1 ≠ .function
  | .list items => CastableList items
  | .nil => True
  | .integer _ => True
  | .real _ => True
  | .symbol _ => True
  | .lambda _ _ => True
  | .object _ => True

def Castable : ExprPtr F → Prop
  | some e => e.Castable
  | none => True

def CastableList : ExprList F → Prop
  | [] => True
  | p :: ps => Castable p ∧ CastableList ps

end

/-- Every value of the dictionary is. -/
def Env.Castable (env : Env F W) : Prop :=
  ∀ (name : Bytes) (p : ExprPtr F), env.dict[name]? = some p → Notlisp.Castable p

/-- The functions and the converter keep to castable values, given such. -/
structure Lang.Castable (L : Lang F W) : Prop where
  call : ∀ fn args env, CastableList args → env.Castable →
    match L.call fn args env with
    | .ok v env' => Notlisp.Castable v ∧ env'.Castable
    | .error _ _ => True
  convertAtom : ∀ s env, env.Castable →
    match L.convertAtom s env with
    | .ok v env' => Notlisp.Castable v ∧ env'.Castable
    | .error _ _ => True

/-- A castable object with the tag of a function is a `FunctionExpr`. -/
theorem Expr.Castable.lambda {e : Expr F} (he : e.Castable) (ht : e.type = .function) :
    ∃ name fn, e = .lambda name fn := by
  cases e with
  | lambda name fn => exact ⟨name, fn, rfl⟩
  | basic t s => exact absurd ht he
  | nil => exact nomatch ht
  | integer i => exact nomatch ht
  | real r => exact nomatch ht
  | symbol s => exact nomatch ht
  | object s => exact nomatch ht
  | list items => exact nomatch ht

theorem castableList_snoc {ps : ExprList F} {p : ExprPtr F} (hps : CastableList ps)
    (hp : Castable p) : CastableList (ps ++ [p]) := by
  induction ps with
  | nil => exact ⟨hp, trivial⟩
  | cons q qs ih => exact ⟨hps.1, ih hps.2⟩

theorem lookup_castable {env : Env F W} (henv : env.Castable) (name : Bytes) :
    Castable (env.lookup name).1 ∧ (env.lookup name).2.Castable := by
  unfold Env.lookup
  cases hd : env.dict[name]? with
  | some p => exact ⟨henv name p hd, henv⟩
  | none =>
    refine ⟨trivial, ?_⟩
    intro k p hk
    change (env.dict.insert name none)[k]? = some p at hk
    rw [ExtTreeMap.getElem?_insert] at hk
    split at hk
    next =>
      obtain rfl := Option.some.inj hk
      trivial
    next => exact henv k p hk

mutual

theorem Expr.Castable.doEval : ∀ {e : Expr F} {env : Env F W}, e.Castable → env.Castable →
    Notlisp.Castable (e.doEval env).1 ∧ (e.doEval env).2.Castable
  | .symbol s, _, _, henv => lookup_castable henv s
  | .list items, env, h, henv => by
    have hitems : CastableList items := h
    have hall := hitems.evalList henv
    unfold Expr.doEval
    exact hall
  | .basic _ _, _, h, henv => ⟨h, henv⟩
  | .nil, _, h, henv => ⟨h, henv⟩
  | .integer _, _, h, henv => ⟨h, henv⟩
  | .real _, _, h, henv => ⟨h, henv⟩
  | .lambda _ _, _, h, henv => ⟨h, henv⟩
  | .object _, _, h, henv => ⟨h, henv⟩

/-- Evaluation makes no `BasicExpr<Function>`. -/
theorem Castable.eval : ∀ {p : ExprPtr F} {env : Env F W}, Notlisp.Castable p → env.Castable →
    Notlisp.Castable (eval env p).1 ∧ (eval env p).2.Castable
  | some _, _, h, henv => Expr.Castable.doEval h henv
  | none, _, _, henv => ⟨trivial, henv⟩

theorem CastableList.evalList : ∀ {ps : ExprList F} {env : Env F W}, CastableList ps →
    env.Castable → CastableList (evalList env ps).1 ∧ (evalList env ps).2.Castable
  | [], _, _, henv => ⟨trivial, henv⟩
  | p :: ps, env, h, henv => by
    obtain ⟨hp, hps⟩ : Castable p ∧ CastableList ps := h
    obtain ⟨hv, henv₁⟩ := hp.eval henv
    obtain ⟨hvs, henv₂⟩ := hps.evalList henv₁
    unfold Notlisp.evalList
    exact ⟨⟨hv, hvs⟩, henv₂⟩

end

/-! ## Programs -/

/-- The environment and the frames of an interpreter are. -/
structure Interpreter.Castable (i : Interpreter F W) : Prop where
  env : i.env.Castable
  stack : ∀ t ∈ i.stack, CastableList t

/-- A callback that keeps to castable values and does not reach the cast with anything
else. -/
def Casts {α : Type} (res : EStateM.Result Abort (Interpreter F W) α) : Prop :=
  Emit.Meets Interpreter.Castable (· ≠ .undefined) res

section Callbacks

open Interpreter

variable {L : Lang F W} {i : Interpreter F W}

theorem pushBack_casts {p : ExprPtr F} (hp : Castable p) (hi : i.Castable) :
    Casts (pushBack p i) := by
  obtain ⟨env, stack⟩ := i
  cases stack with
  | nil => exact fun h => (nomatch h)
  | cons t ts =>
    refine ⟨hi.env, ?_⟩
    intro u hu
    rcases List.mem_cons.mp hu with rfl | hts
    · exact castableList_snoc (hi.stack t List.mem_cons_self) hp
    · exact hi.stack u (List.mem_cons_of_mem _ hts)

theorem onAtom_casts (hL : L.Castable) (s : Bytes) (hi : i.Castable) :
    Casts (onAtom L s i) := by
  obtain ⟨env, stack⟩ := i
  have hconvert := hL.convertAtom s env hi.env
  unfold onAtom
  rw [Emit.bind_apply]
  unfold foreign
  dsimp only
  cases hc : L.convertAtom s env with
  | error e env' => exact fun h => (nomatch h)
  | ok v env' =>
    rw [hc] at hconvert
    obtain ⟨hv, henv'⟩ := hconvert.1.eval hconvert.2
    exact pushBack_casts hv ⟨henv', hi.stack⟩

/-- The call of a function whose arguments are castable. -/
theorem call_casts (hL : L.Castable) {env : Env F W} {args rest : ExprList F} {fn : F}
    {ts : List (ExprList F)} (hargs : CastableList args) (henv : env.Castable)
    (hts : ∀ t ∈ ts, CastableList t) :
    Casts ((foreign (L.call fn args) sliced >>= fun res => do
      pop; pushBack res : M F W Unit) ⟨env, rest :: ts⟩) := by
  have hcall := hL.call fn args env hargs henv
  rw [Emit.bind_apply]
  unfold foreign
  dsimp only
  cases hc : L.call fn args env with
  | error e env' => exact fun h => (nomatch h)
  | ok v env' =>
    rw [hc] at hcall
    exact pushBack_casts (i := ⟨env', ts⟩) hcall.1 ⟨hcall.2, hts⟩

theorem gotNull_defined {env : Env F W} {expr : ExprPtr F} (hnull : (eval env expr).1 = none) :
    gotNull expr ≠ .undefined := by
  cases expr with
  | none => exact absurd hnull (Option.some_ne_none _)
  | some e =>
    intro h
    cases h

theorem onListEnd_casts (hL : L.Castable) (hi : i.Castable) : Casts (onListEnd L i) := by
  obtain ⟨env, stack⟩ := i
  cases stack with
  | nil => exact fun h => (nomatch h)
  | cons t ts =>
    have ht := hi.stack t List.mem_cons_self
    have hts : ∀ u ∈ ts, CastableList u := fun u hu => hi.stack u (List.mem_cons_of_mem _ hu)
    cases t with
    | nil => exact fun h => (nomatch h)
    | cons expr rest =>
      obtain ⟨hexpr, hrest⟩ : Castable expr ∧ CastableList rest := ht
      obtain ⟨hhead, henv₁⟩ := hexpr.eval hi.env
      cases hp : eval env expr with
      | mk p env₁ =>
        rw [hp] at hhead henv₁
        cases p with
        | none =>
          rw [onListEnd_head, hp]
          exact gotNull_defined (congrArg Prod.fst hp)
        | some p =>
          by_cases hfn : p.type = .function
          · obtain ⟨name, fn, rfl⟩ := Expr.Castable.lambda hhead hfn
            obtain ⟨hargs, henv₂⟩ := hrest.evalList henv₁
            rw [onListEnd_calls L hp]
            exact call_casts hL hargs henv₂ hts
          · rw [onListEnd_head, hp]
            dsimp only
            rw [if_pos hfn]
            exact fun h => (nomatch h)

/-- **One callback.** -/
theorem on_casts (hL : L.Castable) (w : Callback) (hi : i.Castable) :
    Casts ((handler L).on w i) := by
  cases w with
  | onListEnd => exact onListEnd_casts hL hi
  | onAtom s => exact onAtom_casts hL s hi
  | onString s =>
    have hstring : Castable (mkString s : ExprPtr F) := fun h => (nomatch h)
    exact pushBack_casts hstring hi
  | onListBegin =>
    refine ⟨hi.env, ?_⟩
    intro t ht
    rcases List.mem_cons.mp ht with rfl | hts
    · trivial
    · exact hi.stack t hts
  | onComment s => exact hi
  | onEof => exact hi

end Callbacks

/-- **No program miscasts** in an environment without a `BasicExpr<Function>`, with
functions and a converter that make none. -/
theorem parse_casts {L : Lang F W} (hL : L.Castable) {env : Env F W} (henv : env.Castable)
    (sg : CharSign) (src : Bytes) (i : Interpreter F W) :
    parse (Interpreter.handler L) sg src (.create env) ≠ .error (.handler .undefined) i := by
  have hstart : (Interpreter.create env).Castable := by
    refine ⟨henv, ?_⟩
    intro t ht
    obtain rfl := List.mem_singleton.mp ht
    trivial
  have hlisten : ∀ w (i : Interpreter F W), i.Castable →
      Emit.Meets Interpreter.Castable (· ≠ .handler .undefined)
        ((Interpreter.handler L).listen w i) := by
    intro w i hi
    have hone := on_casts hL w hi
    unfold Handler.listen
    cases hw : (Interpreter.handler L).on w i with
    | ok u i' =>
      rw [hw] at hone
      exact hone
    | error a i' =>
      rw [hw] at hone
      intro h
      exact hone (Fault.handler.inj h)
  have hrun := Emit.play_meets (Interpreter.handler L).listen Fault.error hlisten
    (fun e h => (nomatch h)) (Sexp.Lexer.scan sg src) (.create env) hstart
  rw [Sexp.parse_eq_play]
  unfold Handler.play
  intro hbad
  rw [hbad] at hrun
  exact hrun rfl

/-- **What a tag promises.** An object keeps the promise of its tag exactly when it is
not one of `BasicExpr<T>` with the tag of a function, a number or a symbol; and
without such functions among its values no program reaches the cast of `on_list_end`
with an object that is none. -/
theorem tag_guarantees_payload (F W : Type) :
    (∀ e : Expr F, e.TagOk ↔ ¬ e.Mislabelled) ∧
    (∀ (L : Lang F W) (env : Env F W), L.Castable → env.Castable →
      ∀ (sg : CharSign) (src : Bytes) (i : Interpreter F W),
        parse (Interpreter.handler L) sg src (.create env) ≠ .error (.handler .undefined) i) :=
  ⟨tagOk_iff, fun _ _ hL henv sg src i => parse_casts hL henv sg src i⟩

theorem defaultAtomConvert_castable (s : Bytes) : Castable (defaultAtomConvert s : ExprPtr F) := by
  unfold defaultAtomConvert
  split
  next => exact fun h => (nomatch h)
  next =>
    dsimp only
    split
    next => trivial
    next =>
      split
      next => trivial
      next => trivial

/-- `BasicExpr<Expr::Function>("f")`. -/
def plainFunction : Expr Unit := .basic ⟨.function, fun h => ExprType.noConfusion h⟩ (ascii "f")

/-- Bound to a name and called, it is cast to what it is not. -/
theorem plainFunction_miscast :
    ¬ plainFunction.TagOk ∧
    ∃ i, parse (Interpreter.handler (Lang.withDefault firstArg)) .signed (ascii "(f)")
      (.create (oneName (ascii "f") (some plainFunction))) = .error (.handler .undefined) i := by
  refine ⟨?_, _, by rfl⟩
  intro hok
  obtain ⟨name, fn, heq⟩ := hok.function rfl
  cases heq

theorem firstArg_castable : (Lang.withDefault firstArg).Castable where
  call := by
    intro fn args env hargs henv
    cases args with
    | nil => trivial
    | cons v vs => exact ⟨hargs.1, henv⟩
  convertAtom := fun s _ henv => ⟨defaultAtomConvert_castable s, henv⟩

theorem oneName_castable {F : Type} {name : Bytes} {p : ExprPtr F} (hp : Castable p) :
    (oneName name p).Castable := by
  intro k q hk
  change ((∅ : ExtTreeMap Bytes (ExprPtr F)).insert name p)[k]? = some q at hk
  rw [ExtTreeMap.getElem?_insert] at hk
  split at hk
  next =>
    obtain rfl := Option.some.inj hk
    exact hp
  next => exact absurd hk (by simp)

theorem tag_guarantees_payload_demo :
    (Expr.lambda (ascii "f") ()).TagOk ∧
    ∀ i, parse (Interpreter.handler (Lang.withDefault firstArg)) .signed (ascii "(f 1)")
      (.create (oneName (ascii "f") (some (.lambda (ascii "f") ())))) ≠
        .error (.handler .undefined) i := by
  obtain ⟨hobject, hprogram⟩ := tag_guarantees_payload Unit Unit
  have hlambda : Castable (some (.lambda (ascii "f") ()) : ExprPtr Unit) := trivial
  refine ⟨(hobject _).mpr ?_, ?_⟩
  · intro hbad
    obtain ⟨t, s, heq, -⟩ := hbad
    exact nomatch heq
  · exact hprogram _ _ firstArg_castable (oneName_castable hlambda) _ _

end Cor.Notlisp

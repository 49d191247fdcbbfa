import Cor.Notlisp.Refine

/-!
# Passing a form through a function

The items of a list are evaluated as they are read, and once more when the list is
closed, before the function is called. So a function does not get the value of a form, but
what that value evaluates to, and `(id E)` has the value of `E` only when the two are
the same: `pass_through_iff`.

A value evaluates to itself exactly when it is `Settled` (`eval_eq_iff`): there is no null in
it, which evaluates to nil, and each symbol in it is bound to itself. A form at the top
level is evaluated once, so its value need not be settled.

What the callbacks of a form do to the frame on top does not depend on what is in that
frame and below it (`form_framed`), which is what connects a form at the top level
with the same form in a list.
-/

namespace Cor.Notlisp

open Sexp (Form forestEvents receives_append receives_cons receives_one)

variable {F W : Type}

/-! ## A form and the frames below it -/

section Frames

variable (L : Lang F W)

/-- The callbacks of a form append a value to the frame on top, the same one whatever the
frames are, or throw whatever they are. -/
inductive FormRun (ws : List Sexp.Callback) (env : Env F W) : Prop
  | ok (v : ExprPtr F) (env' : Env F W) (h : ∀ t ts, (Interpreter.handler L).receives ws
      ⟨env, t :: ts⟩ = .ok () ⟨env', (t ++ [v]) :: ts⟩)
  | error (h : ∀ t ts, ∃ e i, (Interpreter.handler L).receives ws ⟨env, t :: ts⟩ = .error e i)

/-- The callbacks of the forms of a list append their values. -/
inductive FormsRun (ws : List Sexp.Callback) (env : Env F W) : Prop
  | ok (vs : ExprList F) (env' : Env F W) (h : ∀ t ts, (Interpreter.handler L).receives ws
      ⟨env, t :: ts⟩ = .ok () ⟨env', (t ++ vs) :: ts⟩)
  | error (h : ∀ t ts, ∃ e i, (Interpreter.handler L).receives ws ⟨env, t :: ts⟩ = .error e i)

theorem onAtom_framed (s : Bytes) (env : Env F W) : FormRun L [.onAtom s] env := by
  cases hconv : L.convertAtom s env with
  | ok v env₁ =>
    refine .ok (eval env₁ v).1 (eval env₁ v).2 fun t ts => Sexp.receives_one_ok ?_
    refine (Interpreter.onAtom_run L s env t ts).trans ?_
    rw [hconv]
  | error e env₁ =>
    refine .error fun t ts => ⟨_, ⟨env₁, t :: ts⟩, Sexp.receives_one_error (e := .thrown e) ?_⟩
    refine (Interpreter.onAtom_run L s env t ts).trans ?_
    rw [hconv]

/-- The closing parenthesis of a list with the values `vs` appends its result to the frame
below, the same one whatever that frame is. -/
theorem onListEnd_framed (vs : ExprList F) (env : Env F W) :
    (∃ v env', ∀ t ts, Interpreter.onListEnd L ⟨env, vs :: t :: ts⟩ =
      .ok () ⟨env', (t ++ [v]) :: ts⟩) ∨
    ∀ t ts, ∃ e i, Interpreter.onListEnd L ⟨env, vs :: t :: ts⟩ = .error e i := by
  cases vs with
  | nil => exact Or.inr fun t ts => ⟨_, _, Interpreter.onListEnd_run L env [] t ts⟩
  | cons expr rest =>
    have hrun := Interpreter.onListEnd_run L env (expr :: rest)
    dsimp only at hrun
    generalize eval env expr = r at hrun
    obtain ⟨p, env₁⟩ := r
    cases p with
    | none => exact Or.inr fun t ts => ⟨_, _, hrun t ts⟩
    | some p =>
      dsimp only at hrun
      by_cases hfn : p.type ≠ .function
      · simp only [if_pos hfn] at hrun
        exact Or.inr fun t ts => ⟨_, _, hrun t ts⟩
      · simp only [if_neg hfn] at hrun
        cases p with
        | lambda name fn =>
          dsimp only at hrun
          generalize L.call fn (evalList env₁ rest).1 (evalList env₁ rest).2 = res at hrun
          cases res with
          | ok v env₂ => exact Or.inl ⟨v, env₂, hrun⟩
          | error e env₂ => exact Or.inr fun t ts => ⟨_, _, hrun t ts⟩
        | _ => exact Or.inr fun t ts => ⟨_, _, hrun t ts⟩

mutual

/-- **The frames below a form** do not matter. -/
theorem form_framed : ∀ (f : Form) (env : Env F W), FormRun L f.events env
  | .string s, env => .ok (mkString s) env fun _ _ => rfl
  | .atom s, env => onAtom_framed L s env
  | .list items, env => by
    cases forms_framed items env with
    | ok vs env₁ hitems =>
      have hlist : ∀ t ts, (Interpreter.handler L).receives (Form.list items).events
          ⟨env, t :: ts⟩ =
            (Interpreter.handler L).receives [.onListEnd] ⟨env₁, vs :: t :: ts⟩ := by
        intro t ts
        show (Interpreter.handler L).receives (forestEvents items ++ [.onListEnd])
          ⟨env, [] :: t :: ts⟩ = _
        rw [receives_append, hitems [] (t :: ts)]
        rfl
      rcases onListEnd_framed L vs env₁ with ⟨v, env₂, hend⟩ | hend
      · exact .ok v env₂ fun t ts => (hlist t ts).trans (Sexp.receives_one_ok (hend t ts))
      · refine .error fun t ts => ?_
        obtain ⟨e, i, herr⟩ := hend t ts
        exact ⟨.handler e, i, (hlist t ts).trans (Sexp.receives_one_error herr)⟩
    | error hitems =>
      refine .error fun t ts => ?_
      obtain ⟨e, i, herr⟩ := hitems [] (t :: ts)
      refine ⟨e, i, ?_⟩
      show (Interpreter.handler L).receives (forestEvents items ++ [.onListEnd])
        ⟨env, [] :: t :: ts⟩ = _
      rw [receives_append, herr]

theorem forms_framed : ∀ (fs : List Form) (env : Env F W), FormsRun L (forestEvents fs) env
  | [], env => .ok [] env fun t ts => by
    rw [List.append_nil]
    rfl
  | f :: fs, env => by
    have hsplit : ∀ i, (Interpreter.handler L).receives (forestEvents (f :: fs)) i = _ :=
      fun i => receives_append (Interpreter.handler L) f.events (forestEvents fs) i
    cases form_framed f env with
    | ok v env₁ hf =>
      cases forms_framed fs env₁ with
      | ok vs env₂ hfs =>
        refine .ok (v :: vs) env₂ fun t ts => ?_
        rw [hsplit, hf t ts]
        show (Interpreter.handler L).receives (forestEvents fs) ⟨env₁, (t ++ [v]) :: ts⟩ = _
        rw [hfs, List.append_assoc, List.singleton_append]
      | error hfs =>
        refine .error fun t ts => ?_
        obtain ⟨e, i, herr⟩ := hfs (t ++ [v]) ts
        exact ⟨e, i, by rw [hsplit, hf t ts]; exact herr⟩
    | error hf =>
      refine .error fun t ts => ?_
      obtain ⟨e, i, herr⟩ := hf t ts
      exact ⟨e, i, by rw [hsplit, herr]⟩

end

end Frames

/-! ## The form as a parameter -/

section PassThrough

variable (L : Lang F W)

/-- Interpreting the form `f` on a fresh interpreter succeeds, leaves the interpreter `i` and has
the single result `v`. -/
def Interprets (env : Env F W) (f : Form) (i : Interpreter F W) (v : ExprPtr F) : Prop :=
  (Interpreter.handler L).receives (f.events ++ [.onEof]) (Interpreter.create env) = .ok () i ∧
    i.results = .ok [v]

/-- The symbol `id` is bound to a lambda that returns its first parameter. -/
structure BindsId (env : Env F W) : Prop where
  converts : L.convertAtom (ascii "id") env = .ok (mkSymbol (ascii "id")) env
  bound : ∃ name fn, env.dict[ascii "id"]? = some (some (.lambda name fn)) ∧
    ∀ p env', L.call fn [p] env' = .ok p env'

/-- `(id E)` -/
def passed (f : Form) : Form := .list [.atom (ascii "id"), f]

variable {L} {env : Env F W} {f : Form} {i : Interpreter F W} {v : ExprPtr F}

/-- A form that is interpreted at the top level is interpreted in the same way in a list. -/
theorem Interprets.framed (h : Interprets L env f i v) (t : ExprList F) (ts : List (ExprList F)) :
    (Interpreter.handler L).receives f.events ⟨env, t :: ts⟩ =
      .ok () ⟨i.env, (t ++ [v]) :: ts⟩ := by
  obtain ⟨hrun, hres⟩ := h
  rw [receives_append] at hrun
  cases form_framed L f env with
  | ok w env' hf =>
    rw [show (Interpreter.handler L).receives f.events (Interpreter.create env) = _
      from hf [] []] at hrun
    have hi : (⟨env', [[] ++ [w]]⟩ : Interpreter F W) = i := by
      injection hrun
    subst hi
    obtain rfl : w = v := (List.cons.inj (Except.ok.inj hres)).1
    exact hf t ts
  | error hf =>
    obtain ⟨e, i', herr⟩ := hf [] []
    rw [show (Interpreter.handler L).receives f.events (Interpreter.create env) = _
      from herr] at hrun
    exact nomatch hrun

/-- **The value of `(id E)`** is what the value of `E` evaluates to. -/
theorem Interprets.passed (h : Interprets L env f i v) (hid : BindsId L env) :
    (Interpreter.handler L).receives ((passed f).events ++ [.onEof]) (Interpreter.create env) =
      .ok () ⟨(eval i.env v).2, [[(eval i.env v).1]]⟩ := by
  obtain ⟨name, fn, hbound, hfn⟩ := hid.bound
  have hlookup : eval env (mkSymbol (ascii "id")) = (some (.lambda name fn), env) := by
    show env.lookup (ascii "id") = _
    unfold Env.lookup
    rw [hbound]
  have hatom : (Interpreter.handler L).receives [.onAtom (ascii "id")] ⟨env, [[], []]⟩ =
      .ok () ⟨env, [[some (.lambda name fn)], []]⟩ := by
    refine Sexp.receives_one_ok ((Interpreter.onAtom_run L _ env [] [[]]).trans ?_)
    rw [hid.converts]
    dsimp only
    rw [hlookup]
    rfl
  have hcall : L.call fn (evalList i.env [v]).1 (evalList i.env [v]).2 =
      .ok (eval i.env v).1 (eval i.env v).2 := hfn _ _
  have hend : (Interpreter.handler L).receives [.onListEnd]
      ⟨i.env, ([some (.lambda name fn)] ++ [v]) :: [[]]⟩ =
        .ok () ⟨(eval i.env v).2, [[(eval i.env v).1]]⟩ := by
    refine Sexp.receives_one_ok ?_
    show Interpreter.onListEnd L ⟨i.env, [some (.lambda name fn), v] :: [[]]⟩ = _
    rw [Interpreter.onListEnd_calls L rfl, Lib.Emit.bind_apply]
    unfold Interpreter.foreign
    dsimp only
    rw [hcall]
    rfl
  have hevents : (Notlisp.passed f).events ++ [.onEof] =
      [.onListBegin] ++ ([.onAtom (ascii "id")] ++ (f.events ++ ([.onListEnd] ++ [.onEof]))) := by
    simp [Notlisp.passed, Form.events, forestEvents]
  rw [hevents, receives_append]
  show (Interpreter.handler L).receives
    ([.onAtom (ascii "id")] ++ (f.events ++ ([.onListEnd] ++ [.onEof]))) ⟨env, [[], []]⟩ = _
  rw [receives_append, hatom]
  dsimp only
  rw [receives_append, h.framed]
  dsimp only
  rw [receives_append, hend]
  rfl

/-- **Passing a form through a function** that returns it keeps its value exactly when there is
no null in the value, and each symbol in it is bound to itself in the environment that
interpreting the form leaves. -/
theorem pass_through_iff (hid : BindsId L env) (h : Interprets L env f i v) :
    (∃ i', Interprets L env (passed f) i' v) ↔ Settled i.env v := by
  rw [← eval_eq_iff]
  constructor
  · rintro ⟨i', hrun, hres⟩
    rw [h.passed hid] at hrun
    have hi : (⟨(eval i.env v).2, [[(eval i.env v).1]]⟩ : Interpreter F W) = i' := by
      injection hrun
    subst hi
    exact (List.cons.inj (Except.ok.inj hres)).1
  · intro hv
    refine ⟨⟨(eval i.env v).2, [[(eval i.env v).1]]⟩, h.passed hid, ?_⟩
    rw [hv]
    rfl

/-- A text of a form, nested less deep than `level` can count, is interpreted as the form. -/
theorem parse_interprets {src : Bytes} (hsrc : Sexp.Renders [f] src)
    (hdepth : Sexp.forestDepth [f] < 2 ^ 32) (sg : Sexp.CharSign) :
    Interprets L env f i v ↔
      Sexp.parse (Interpreter.handler L) sg src (Interpreter.create env) = .ok () i ∧
        i.results = .ok [v] := by
  obtain ⟨ws, hws, hscan⟩ := Sexp.scan_renders hsrc hdepth sg
  have hone : forestEvents [f] = f.events := List.append_nil _
  unfold Interprets
  rw [Sexp.parse_receives hscan, receives_tokens L ws, hws, hone]

end PassThrough

/-! ## A name that nobody has bound -/

section Demo

/-- An environment with `id` and no other name. -/
def onlyId : Env Unit Unit := oneName (ascii "id") (some (.lambda (ascii "id") ()))

theorem onlyId_bindsId : BindsId (Lang.withDefault firstArg) onlyId where
  converts := rfl
  bound := ⟨_, _, Std.ExtTreeMap.getElem?_insert_self, fun _ _ => rfl⟩

/-- `(id "a")` has the value of `"a"`. -/
theorem pass_through_demo :
    ∃ i, Interprets (Lang.withDefault firstArg) onlyId (passed (.string (ascii "a"))) i
      (mkString (ascii "a")) :=
  (pass_through_iff onlyId_bindsId (i := ⟨onlyId, [[mkString (ascii "a")]]⟩) ⟨rfl, rfl⟩).mpr trivial

/-- `x` is null, and `(id x)` is nil. -/
theorem unbound_not_passed :
    ¬ ∀ (F W : Type) (L : Lang F W) (env : Env F W) (f : Form) (i : Interpreter F W)
      (v : ExprPtr F), BindsId L env → Interprets L env f i v →
        ∃ i', Interprets L env (passed f) i' v := by
  intro hall
  have hunbound : onlyId.dict[ascii "x"]? = none := by
    show ((∅ : Std.ExtTreeMap Bytes (ExprPtr Unit)).insert (ascii "id") _)[ascii "x"]? = none
    rw [Std.ExtTreeMap.getElem?_insert, if_neg (by decide)]
    exact Std.ExtTreeMap.getElem?_empty
  let env' : Env Unit Unit := { onlyId with dict := onlyId.dict.insert (ascii "x") none }
  have hlookup : eval onlyId (mkSymbol (ascii "x")) = (none, env') := by
    show onlyId.lookup (ascii "x") = _
    unfold Env.lookup
    rw [hunbound]
  have hconv : (Lang.withDefault firstArg).convertAtom (ascii "x") onlyId =
      .ok (mkSymbol (ascii "x")) onlyId := rfl
  have hx : Interprets (Lang.withDefault firstArg) onlyId (.atom (ascii "x")) ⟨env', [[none]]⟩
      none := by
    refine ⟨?_, rfl⟩
    show (Interpreter.handler _).receives ([.onAtom (ascii "x")] ++ [.onEof]) _ = _
    have hatom : (Interpreter.handler (Lang.withDefault firstArg)).receives [.onAtom (ascii "x")]
        (Interpreter.create onlyId) = .ok () ⟨env', [[none]]⟩ := by
      refine Sexp.receives_one_ok ((Interpreter.onAtom_run _ _ onlyId [] []).trans ?_)
      rw [hconv]
      dsimp only
      rw [hlookup]
      rfl
    rw [receives_append, hatom]
    rfl
  obtain ⟨i', hrun, hres⟩ := hall _ _ _ _ _ _ _ onlyId_bindsId hx
  rw [hx.passed onlyId_bindsId] at hrun
  injection hrun with _ hi
  rw [← hi] at hres
  exact nomatch hres

end Demo

end Cor.Notlisp

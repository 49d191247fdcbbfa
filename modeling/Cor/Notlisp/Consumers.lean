import Mathlib.Data.List.Basic
import Cor.Lib.Emit
import Cor.Notlisp.Accessor

/-!
# Reading the rest of the parameters

`optional(fn)` passes the next element to a function, and `rest`, `rest_casted`,
`push_rest` and `push_rest_casted` pass it all that are left, until it returns false or
throws. The element is taken before the call (`*cur++`), so one that is refused is not read
again.

The functions work on a state of their own. `restBy_reads` says how far the loop comes: to
the end, or through the first element that is refused. `pushRest_reads` is what follows for a
list whose elements are converted, and `restCasted_push` that the two ways to collect the
elements of one class are the same.
-/

namespace Cor.Notlisp

variable {F σ α : Type}

namespace ListAccessor

/-- Code that reads from an accessor, next to its own state. -/
abbrev Using (F σ α : Type) := EStateM Exn (ListAccessor F × σ) α

/-- `optional(fn)`. -/
def optionalBy (fn : ExprPtr F → EStateM Exn σ Bool) : Using F σ Bool := fun (src, s) =>
  match src.cur with
  | [] => .ok false (src, s)
  | v :: vs =>
    match fn v s with
    | .ok more s' => .ok more (⟨vs⟩, s')
    | .error e s' => .error e (⟨vs⟩, s')

theorem optionalBy_length {fn : ExprPtr F → EStateM Exn σ Bool} {st st' : ListAccessor F × σ}
    (h : optionalBy fn st = .ok true st') : st'.1.cur.length < st.1.cur.length := by
  obtain ⟨⟨cur⟩, s⟩ := st
  cases cur with
  | nil => cases h
  | cons v vs =>
    unfold optionalBy at h
    dsimp only at h
    cases hv : fn v s with
    | ok more s' =>
      rw [hv] at h
      injection h with _ hst
      rw [← hst]
      exact Nat.lt_succ_self _
    | error e s' =>
      rw [hv] at h
      cases h

/-- `rest(src, fn)`: `while (src.optional(fn)) {}`. -/
def restBy (fn : ExprPtr F → EStateM Exn σ Bool) (st : ListAccessor F × σ) :
    EStateM.Result Exn (ListAccessor F × σ) Unit :=
  match _h : optionalBy fn st with
  | .ok true st' => restBy fn st'
  | .ok false st' => .ok () st'
  | .error e st' => .error e st'
termination_by st.1.cur.length
decreasing_by exact optionalBy_length _h

/-- `throw Error("Can't be casted")` where `dynamic_pointer_cast` gives null. -/
def casted (cast : Expr F → Option α) (p : ExprPtr F) : Except Exn α :=
  match p.bind cast with
  | some res => .ok res
  | none => .error (error "Can't be casted")

/-- `rest_casted<T>(src, fn)`. -/
def restCasted (cast : Expr F → Option α) (fn : α → EStateM Exn σ Unit) : Using F σ Unit :=
  restBy fun p => do
    match casted cast p with
    | .error e => throw e
    | .ok res =>
      fn res
      return true

/-- `push_rest(src, dst, convert)`. The container is the state. -/
def pushRest (convert : ExprPtr F → Except Exn α) : Using F (List α) Unit :=
  restBy fun p => do
    match convert p with
    | .error e => throw e
    | .ok v =>
      modify (· ++ [v])
      return true

/-- `push_rest_casted(src, dst)`. -/
def pushRestCasted (cast : Expr F → Option α) : Using F (List α) Unit := pushRest (casted cast)

section Loop

variable {fn : ExprPtr F → EStateM Exn σ Bool}

/-- One turn of the loop. -/
theorem restBy_eq (st : ListAccessor F × σ) : restBy fn st = match optionalBy fn st with
    | .ok true st' => restBy fn st'
    | .ok false st' => .ok () st'
    | .error e st' => .error e st' := by
  rw [restBy]
  split <;> next h => rw [h]

theorem restBy_nil (s : σ) : restBy fn (⟨[]⟩, s) = .ok () (⟨[]⟩, s) := restBy_eq (⟨[]⟩, s)

theorem restBy_cons (v : ExprPtr F) (vs : ExprList F) (s : σ) :
    restBy fn (⟨v :: vs⟩, s) = match fn v s with
      | .ok true s' => restBy fn (⟨vs⟩, s')
      | .ok false s' => .ok () (⟨vs⟩, s')
      | .error e s' => .error e (⟨vs⟩, s') := by
  rw [restBy_eq]
  unfold optionalBy
  dsimp only
  cases fn v s with
  | ok more s' => cases more <;> rfl
  | error e s' => rfl

/-- The elements of `vs` are all accepted, one after the other. -/
inductive Accepted (fn : ExprPtr F → EStateM Exn σ Bool) : ExprList F → σ → σ → Prop
  | nil (s : σ) : Accepted fn [] s s
  | cons {v : ExprPtr F} {vs : ExprList F} {s s₁ s' : σ} (hv : fn v s = .ok true s₁)
      (hvs : Accepted fn vs s₁ s') : Accepted fn (v :: vs) s s'

/-- **How far `rest` comes.** All elements are accepted, or those before one at which the
function returns false or throws; that one has been read as well. -/
theorem restBy_reads : ∀ (params : ExprList F) (s : σ),
    (∃ s', Accepted fn params s s' ∧ restBy fn (⟨params⟩, s) = .ok () (⟨[]⟩, s')) ∨
    ∃ pre v post s₁, params = pre ++ v :: post ∧ Accepted fn pre s s₁ ∧
      ((∃ s', fn v s₁ = .ok false s' ∧ restBy fn (⟨params⟩, s) = .ok () (⟨post⟩, s')) ∨
        ∃ e s', fn v s₁ = .error e s' ∧ restBy fn (⟨params⟩, s) = .error e (⟨post⟩, s'))
  | [], s => .inl ⟨s, .nil s, restBy_nil s⟩
  | v :: vs, s => by
    rw [restBy_cons]
    cases hv : fn v s with
    | error e s' => exact .inr ⟨[], v, vs, s, rfl, .nil s, .inr ⟨e, s', hv, rfl⟩⟩
    | ok more s₁ =>
      cases more with
      | false => exact .inr ⟨[], v, vs, s, rfl, .nil s, .inl ⟨s₁, hv, rfl⟩⟩
      | true =>
        rcases restBy_reads vs s₁ with ⟨s', hvs, hrest⟩ | ⟨pre, w, post, s₂, rfl, hpre, hstop⟩
        · exact .inl ⟨s', .cons hv hvs, hrest⟩
        · exact .inr ⟨v :: pre, w, post, s₂, rfl, .cons hv hpre, hstop⟩

end Loop

/-! ## Containers -/

section Containers

variable {convert : ExprPtr F → Except Exn α}

theorem pushRest_cons (v : ExprPtr F) (vs : ExprList F) (dst : List α) :
    pushRest convert (⟨v :: vs⟩, dst) = match convert v with
      | .ok a => pushRest convert (⟨vs⟩, dst ++ [a])
      | .error e => .error e (⟨vs⟩, dst) := by
  show restBy _ (⟨v :: vs⟩, dst) = _
  rw [restBy_cons]
  cases convert v <;> rfl

/-- **`push_rest`** converts all elements, or those before the first one at which the
conversion throws; the exception leaves them in the container. -/
theorem pushRest_reads : ∀ (params : ExprList F) (dst : List α),
    (∃ vs, params.mapM convert = .ok vs ∧
      pushRest convert (⟨params⟩, dst) = .ok () (⟨[]⟩, dst ++ vs)) ∨
    ∃ pre p post vs e, params = pre ++ p :: post ∧ pre.mapM convert = .ok vs ∧
      convert p = .error e ∧ pushRest convert (⟨params⟩, dst) = .error e (⟨post⟩, dst ++ vs)
  | [], dst => by
    refine .inl ⟨[], rfl, ?_⟩
    rw [List.append_nil]
    exact restBy_nil dst
  | p :: ps, dst => by
    rw [pushRest_cons]
    cases hp : convert p with
    | error e =>
      refine .inr ⟨[], p, ps, [], e, rfl, rfl, hp, ?_⟩
      rw [List.append_nil]
    | ok a =>
      have hcons : ∀ {qs : ExprList F} {vs : List α}, qs.mapM convert = .ok vs →
          (p :: qs).mapM convert = .ok (a :: vs) := by
        intro qs vs hvs
        rw [List.mapM_cons, hp, hvs]
        rfl
      rcases pushRest_reads ps (dst ++ [a]) with
        ⟨vs, hvs, hrest⟩ | ⟨pre, q, post, vs, e, rfl, hvs, hq, hrest⟩
      · refine .inl ⟨a :: vs, hcons hvs, ?_⟩
        rw [List.append_assoc] at hrest
        exact hrest
      · refine .inr ⟨p :: pre, q, post, a :: vs, e, rfl, hcons hvs, hq, ?_⟩
        rw [List.append_assoc] at hrest
        exact hrest

/-- Collecting with `rest_casted` is `push_rest_casted`. -/
theorem restCasted_push (cast : Expr F → Option α) :
    restCasted cast (fun a => modify (· ++ [a])) = pushRestCasted cast := rfl

end Containers

end ListAccessor

end Cor.Notlisp

import Mathlib.Data.List.Basic
import Cor.Notlisp.Accessor

/-!
# `rest` with keyword arguments

`rest(src, arg, kwd_arg)` consumes what an accessor has left, one element a turn,
and keeps a keyword back until its value comes. Whether an element is a keyword
argument or the value of one is a matter of its place: `positional` says it of the
`i`-th element of a list by the elements before it, and `callAt` which call is made
when the element is read. The invariant of the loop (`restLoop_from`) is that after
`i` elements a keyword is kept back exactly if the next place is not positional.

The consumers are any two functions on a state of their own; they do not throw and
do not touch the accessor.
-/

namespace Cor.Notlisp

variable {F σ : Type}

/-- `v && v->type() == Expr::Keyword`. -/
def isKeyword (v : ExprPtr F) : Bool :=
  match v with
  | none => false
  | some e => e.type = .keyword

/-- `ListAccessor::optional` gives out the next element, if there is one. -/
theorem optional_cons (v : ExprPtr F) (vs : ExprList F) :
    ListAccessor.optional ⟨v :: vs⟩ = .ok (some v) ⟨vs⟩ := rfl

theorem optional_nil : ListAccessor.optional (⟨[]⟩ : ListAccessor F) = .ok none ⟨[]⟩ := rfl

theorem optional_length {src src' : ListAccessor F} {v : ExprPtr F}
    (h : ListAccessor.optional src = .ok (some v) src') :
    src'.cur.length < src.cur.length := by
  obtain ⟨cur⟩ := src
  cases cur with
  | nil => exact absurd h (by rw [optional_nil]; simp)
  | cons w ws =>
    rw [optional_cons] at h
    obtain ⟨-, rfl⟩ := EStateM.Result.ok.inj h
    exact Nat.lt_succ_self _

section Rest

variable (arg : ExprPtr F → σ → σ) (kwd_arg : ExprPtr F → ExprPtr F → σ → σ)

/-- The loop of `rest`, from where the keyword `k` is kept back, or none: the keyword that is
kept back in the end, with the accessor and what the consumers made. -/
def restLoop (k : ExprPtr F) (src : ListAccessor F) (out : σ) :
    Except Exn (ExprPtr F) × ListAccessor F × σ :=
  match _h : ListAccessor.optional src with
  | .error e src => (.error e, src, out)
  | .ok none src => (.ok k, src, out)
  | .ok (some v) src =>
    match k with
    | none =>
      if isKeyword v then restLoop v src out
      else restLoop none src (arg v out)
    | some k => restLoop none src (kwd_arg (some k) v out)
termination_by src.cur.length
decreasing_by all_goals exact optional_length _h

/-- `rest(src, arg, kwd_arg)`. -/
def rest (src : ListAccessor F) (out : σ) : Except Exn Unit × ListAccessor F × σ :=
  match restLoop arg kwd_arg none src out with
  | (.error e, src, out) => (.error e, src, out)
  | (.ok k, src, out) =>
    match k with
    | some _ => (.error (error "Orphaned keyword"), src, out)
    | none => (.ok (), src, out)

end Rest

/-! ## The places of a list -/

/-- Whether the `i`-th element is in positional place: it is not the value of a keyword. -/
def positional (l : ExprList F) : Nat → Bool
  | 0 => true
  | i + 1 => !(positional l i && isKeyword (l.getD i none))

/-- A call of a consumer. -/
inductive Call (F : Type) where
  | arg (v : ExprPtr F)
  | kwd (k v : ExprPtr F)

/-- The elements that a call uses. -/
def Call.elements : Call F → ExprList F
  | .arg v => [v]
  | .kwd k v => [k, v]

/-- What a call does. -/
def Call.apply (arg : ExprPtr F → σ → σ) (kwd_arg : ExprPtr F → ExprPtr F → σ → σ)
    (out : σ) : Call F → σ
  | .arg v => arg v out
  | .kwd k v => kwd_arg k v out

/-- The call made when the `i`-th element is read: none for a keyword in positional place,
its own for another element in positional place, and that of the keyword before it for the
value of a keyword. -/
def callAt (l : ExprList F) (i : Nat) : Option (Call F) :=
  if positional l i then
    if isKeyword (l.getD i none) then none else some (.arg (l.getD i none))
  else some (.kwd (l.getD (i - 1) none) (l.getD i none))

/-- The calls made for the first `n` elements, in order. -/
def callsUpTo (l : ExprList F) (n : Nat) : List (Call F) := (List.range n).filterMap (callAt l)

/-- The last element is a keyword in positional place. -/
def Orphaned (l : ExprList F) : Prop :=
  ∃ k, l.getLast? = some k ∧ isKeyword k = true ∧ positional l (l.length - 1) = true

theorem callsUpTo_succ (l : ExprList F) (n : Nat) :
    callsUpTo l (n + 1) = callsUpTo l n ++ (callAt l n).toList := by
  unfold callsUpTo
  rw [List.range_succ, List.filterMap_append, List.filterMap_cons, List.filterMap_nil]
  cases callAt l n <;> rfl

/-- The keyword kept back after `n` elements. -/
def keptBack (l : ExprList F) (n : Nat) : ExprList F :=
  if positional l n then [] else [l.getD (n - 1) none]

theorem not_positional_succ {l : ExprList F} {n : Nat} (h : positional l (n + 1) = false) :
    positional l n = true ∧ isKeyword (l.getD n none) = true := by
  simpa [positional] using h

/-- **Every element is used once**: those of the calls, and the one kept back. -/
theorem elements_callsUpTo (l : ExprList F) (n : Nat) (hn : n ≤ l.length) :
    (callsUpTo l n).flatMap Call.elements ++ keptBack l n = l.take n := by
  induction n with
  | zero => rfl
  | succ n ih =>
    have hlt : n < l.length := by omega
    have hget : l.getD n none = l[n] := by
      rw [List.getD_eq_getElem?_getD, List.getElem?_eq_getElem hlt]
      rfl
    have hrec := ih (by omega)
    rw [callsUpTo_succ, List.flatMap_append, List.take_add_one, List.getElem?_eq_getElem hlt,
      ← hrec]
    unfold keptBack callAt
    rw [positional, Nat.add_sub_cancel, hget]
    cases hpos : positional l n with
    | true => cases hkey : isKeyword l[n] <;> simp [Call.elements]
    | false => simp [Call.elements]

/-! ## The loop -/

/-- The keyword that the loop keeps back after `n` elements, null if there is none. -/
def keptKey (l : ExprList F) (n : Nat) : ExprPtr F :=
  if positional l n then none else l.getD (n - 1) none

theorem keyword_some {v : ExprPtr F} (h : isKeyword v = true) : ∃ e, v = some e := by
  cases v with
  | none => exact absurd h (by simp [isKeyword])
  | some e => exact ⟨e, rfl⟩

section Loop

variable (arg : ExprPtr F → σ → σ) (kwd_arg : ExprPtr F → ExprPtr F → σ → σ)

theorem restLoop_nil (k : ExprPtr F) (out : σ) :
    restLoop arg kwd_arg k ⟨[]⟩ out = (.ok k, ⟨[]⟩, out) := by
  rw [restLoop]
  rfl

theorem restLoop_cons (k v : ExprPtr F) (vs : ExprList F) (out : σ) :
    restLoop arg kwd_arg k ⟨v :: vs⟩ out =
      match k with
      | none =>
        if isKeyword v then restLoop arg kwd_arg v ⟨vs⟩ out
        else restLoop arg kwd_arg none ⟨vs⟩ (arg v out)
      | some k => restLoop arg kwd_arg none ⟨vs⟩ (kwd_arg (some k) v out) := by
  rw [restLoop]
  rfl

/-- **The invariant of the loop**: with `n` elements consumed the calls for them have been
made, and the keyword kept back is the one whose value comes next. -/
theorem restLoop_from (l : ExprList F) (out : σ) : ∀ (cur : ExprList F) (n : Nat),
    l.drop n = cur → n ≤ l.length →
      restLoop arg kwd_arg (keptKey l n) ⟨cur⟩
          ((callsUpTo l n).foldl (Call.apply arg kwd_arg) out) =
        (.ok (keptKey l l.length), ⟨[]⟩,
          (callsUpTo l l.length).foldl (Call.apply arg kwd_arg) out)
  | [], n, hcur, hn => by
    have hlen : n = l.length := by
      have := List.drop_eq_nil_iff.mp hcur
      omega
    rw [restLoop_nil, hlen]
  | v :: vs, n, hcur, hn => by
    have hlt : n < l.length := by
      by_contra hge
      rw [List.drop_eq_nil_of_le (by omega)] at hcur
      exact absurd hcur (by simp)
    obtain ⟨hv, hvs⟩ := List.cons.inj ((List.drop_eq_getElem_cons hlt).symm.trans hcur)
    have hget : l.getD n none = v := by
      rw [List.getD_eq_getElem?_getD, List.getElem?_eq_getElem hlt]
      exact hv
    have hrest := restLoop_from l out vs (n + 1) hvs hlt
    rw [callsUpTo_succ, List.foldl_append] at hrest
    rw [← hrest, restLoop_cons]
    unfold keptKey callAt
    rw [positional, Nat.add_sub_cancel, hget]
    cases hpos : positional l n with
    | true =>
      cases hkey : isKeyword v with
      | true => rfl
      | false => rfl
    | false =>
      -- the element before is the keyword of this one
      cases n with
      | zero => exact absurd hpos (by simp [positional])
      | succ m =>
        obtain ⟨k, hk⟩ := keyword_some (not_positional_succ hpos).2
        rw [Nat.add_sub_cancel, hk]
        rfl

theorem orphaned_iff (l : ExprList F) : Orphaned l ↔ positional l l.length = false := by
  cases hn : l.length with
  | zero =>
    rw [List.length_eq_zero_iff] at hn
    subst hn
    simp [Orphaned, positional]
  | succ n =>
    have hlast : l.getLast? = some (l.getD n none) := by
      rw [List.getLast?_eq_getElem?, hn, Nat.add_sub_cancel, List.getD_eq_getElem?_getD,
        List.getElem?_eq_getElem (by omega)]
      rfl
    unfold Orphaned
    rw [hlast, hn, Nat.add_sub_cancel]
    constructor
    · rintro ⟨k, hk, hkey, hpos⟩
      obtain rfl := Option.some.inj hk
      simp only [positional, hpos, hkey]
      rfl
    · intro h
      obtain ⟨hpos, hkey⟩ := not_positional_succ h
      exact ⟨_, rfl, hkey, hpos⟩

/-- A keyword in positional place gets the element right after it for its value; another
element in positional place is an argument by itself. -/
theorem callAt_positional {l : ExprList F} {i : Nat} (h : positional l i = true) :
    if isKeyword (l.getD i none) then
      callAt l i = none ∧ callAt l (i + 1) = some (.kwd (l.getD i none) (l.getD (i + 1) none))
    else callAt l i = some (.arg (l.getD i none)) := by
  unfold callAt
  rw [positional, h, Nat.add_sub_cancel]
  cases isKeyword (l.getD i none) with
  | true => exact ⟨rfl, rfl⟩
  | false => rfl

/-- The whole run, from the start of the list. -/
theorem rest_eq (l : ExprList F) (out : σ) :
    rest arg kwd_arg ⟨l⟩ out =
      (if positional l l.length then .ok () else .error (error "Orphaned keyword"), ⟨[]⟩,
        (callsUpTo l l.length).foldl (Call.apply arg kwd_arg) out) := by
  have hloop : restLoop arg kwd_arg none ⟨l⟩ out = _ :=
    restLoop_from arg kwd_arg l out l 0 rfl (Nat.zero_le _)
  unfold rest
  rw [hloop]
  unfold keptKey
  cases hpos : positional l l.length with
  | true => rfl
  | false =>
    -- a keyword is kept back in the end
    obtain ⟨m, hm⟩ : ∃ m, l.length = m + 1 := by
      refine Nat.exists_eq_succ_of_ne_zero fun hzero => ?_
      rw [hzero] at hpos
      exact absurd hpos (by simp [positional])
    rw [hm] at hpos ⊢
    obtain ⟨k, hk⟩ := keyword_some (not_positional_succ hpos).2
    rw [Nat.add_sub_cancel, hk]
    rfl

/-- **`rest` partitions the list.** It makes the calls of the places, in list order: an
argument for each element in positional place that is no keyword, a keyword argument for each
keyword in positional place that has an element after it. Every element is used once, nothing
is left in the accessor, and the error is thrown, after all calls, exactly if the last element
is a keyword in positional place. -/
theorem rest_partitions (l : ExprList F) (out : σ) :
    (rest arg kwd_arg ⟨l⟩ out).2.2 =
      (callsUpTo l l.length).foldl (Call.apply arg kwd_arg) out ∧
    (∀ i, i < l.length → positional l i = true →
      if isKeyword (l.getD i none) then
        callAt l i = none ∧ callAt l (i + 1) = some (.kwd (l.getD i none) (l.getD (i + 1) none))
      else callAt l i = some (.arg (l.getD i none))) ∧
    (callsUpTo l l.length).flatMap Call.elements ++ keptBack l l.length = l ∧
    (keptBack l l.length ≠ [] ↔ Orphaned l) ∧
    (rest arg kwd_arg ⟨l⟩ out).2.1.hasMore = false ∧
    ((rest arg kwd_arg ⟨l⟩ out).1 = .error (error "Orphaned keyword") ↔ Orphaned l) ∧
    ((rest arg kwd_arg ⟨l⟩ out).1 = .ok () ↔ ¬ Orphaned l) := by
  have hused := elements_callsUpTo l l.length (Nat.le_refl _)
  rw [List.take_length] at hused
  rw [orphaned_iff, rest_eq]
  refine ⟨rfl, fun i _ => callAt_positional, hused, ?_, rfl, ?_, ?_⟩
  · unfold keptBack
    cases positional l l.length <;> simp
  · cases positional l l.length <;> simp
  · cases positional l l.length <;> simp

end Loop

/-- `:a :b 1 :c`: the second keyword is the value of the first, the last one has none. -/
def adjacentKeywords : ExprList Unit :=
  [mkKeyword (ascii "a"), mkKeyword (ascii "b"), some (.integer 1), mkKeyword (ascii "c")]

def recordArg (v : ExprPtr Unit) (calls : List (Call Unit)) : List (Call Unit) :=
  calls ++ [.arg v]

def recordKwd (k v : ExprPtr Unit) (calls : List (Call Unit)) : List (Call Unit) :=
  calls ++ [.kwd k v]

theorem rest_partitions_demo :
    (rest recordArg recordKwd ⟨adjacentKeywords⟩ []).2.2 =
        [.kwd (mkKeyword (ascii "a")) (mkKeyword (ascii "b")), .arg (some (.integer 1))] ∧
      (rest recordArg recordKwd ⟨adjacentKeywords⟩ []).1 = .error (error "Orphaned keyword") := by
  obtain ⟨hcalls, -, -, -, -, herror, -⟩ :=
    rest_partitions recordArg recordKwd adjacentKeywords []
  refine ⟨hcalls.trans rfl, herror.mpr ?_⟩
  exact ⟨mkKeyword (ascii "c"), rfl, rfl, rfl⟩

end Cor.Notlisp

import Mathlib.Data.List.Basic
import Cor.Notlisp.Accessor

/-!
# Three ways to read a parameter

A caller reads with `required()`, which returns the element, with `optional(dst)`,
which writes it to the caller's variable, or with `operator >>`. That one takes its
destination by value: it consumes an element and assigns it to its own copy.

`perform` is one read of a caller with variables of its own, a thrown error caught;
`run_cursor` says that all three move the cursor alike, so what the `k`-th successful
read should give is the `k`-th element whatever the mix (`reads_agree_iff`).
-/

namespace Cor.Notlisp

variable {F : Type}

/-- `operator >> (src, dst)`. The parameter `dst` is a copy of the argument. -/
def shiftInto (_dst : ExprPtr F) : ListAccessor.M F Unit := do
  let _dst ← ListAccessor.required

/-- A read, with the variable passed to it. -/
inductive Read where
  | required
  | optional (x : Nat)
  | shift (x : Nat)
deriving DecidableEq, Repr

/-- What the caller sees of a read, apart from its variables. -/
inductive Seen (F : Type) where
  | returned (v : ExprPtr F)
  /-- `optional` returns true or false. -/
  | answered (found : Bool)
  /-- `operator >>` returns. -/
  | passed
  | threw (e : Exn)

/-- The accessor, the variables of the caller, and the number of reads that succeeded. -/
structure Caller (F : Type) where
  src : ListAccessor F
  vars : Nat → ExprPtr F
  succeeded : Nat

/-- The caller's variable `x` is assigned. -/
def Caller.assign (c : Caller F) (x : Nat) (v : ExprPtr F) : Caller F :=
  { c with vars := fun y => if y = x then v else c.vars y }

/-- The caller after a call that left the accessor at `src`. -/
def Caller.moved (c : Caller F) (src : ListAccessor F) (success : Bool) : Caller F :=
  { c with src := src, succeeded := if success then c.succeeded + 1 else c.succeeded }

/-- One read. -/
def perform (r : Read) (c : Caller F) : Seen F × Caller F :=
  match r with
  | .required =>
    match ListAccessor.required c.src with
    | .ok v src => (.returned v, c.moved src true)
    | .error e src => (.threw e, c.moved src false)
  | .optional x =>
    match ListAccessor.optional c.src with
    | .ok (some v) src => (.answered true, (c.moved src true).assign x v)
    | .ok none src => (.answered false, c.moved src false)
    | .error e src => (.threw e, c.moved src false)
  | .shift x =>
    match shiftInto (c.vars x) c.src with
    | .ok _ src => (.passed, c.moved src true)
    | .error e src => (.threw e, c.moved src false)

/-- A sequence of reads. -/
def performAll (reads : List Read) (c : Caller F) : Caller F :=
  reads.foldl (fun c r => (perform r c).2) c

/-- A read gives the caller the element `p`: it returns it, or the variable passed holds it. -/
def Gives (r : Read) (p : ExprPtr F) : Seen F × Caller F → Prop
  | (seen, c) =>
    match r with
    | .required => seen = .returned p
    | .optional x => seen = .answered true ∧ c.vars x = p
    | .shift x => seen = .passed ∧ c.vars x = p

/-- A read past the end: an error, or the answer false. -/
def Refuses (r : Read) (seen : Seen F) : Prop :=
  match r with
  | .required => ∃ e, seen = .threw e
  | .optional _ => seen = .answered false
  | .shift _ => ∃ e, seen = .threw e

/-! ## One read -/

/-- What a read does while there are elements, and at the end. -/
theorem perform_cons (r : Read) {c : Caller F} {p : ExprPtr F} {ps : ExprList F}
    (h : c.src.cur = p :: ps) :
    (perform r c).2.src.cur = ps ∧ (perform r c).2.succeeded = c.succeeded + 1 ∧
      (Gives r p (perform r c) ↔ ∀ x, r = .shift x → c.vars x = p) := by
  obtain ⟨⟨cur⟩, vars, succeeded⟩ := c
  obtain rfl : cur = p :: ps := h
  cases r with
  | required =>
    refine ⟨rfl, rfl, fun _ x hx => absurd hx (by simp), fun _ => ?_⟩
    rfl
  | optional x =>
    refine ⟨rfl, rfl, fun _ y hy => absurd hy (by simp), fun _ => ?_⟩
    exact ⟨rfl, if_pos rfl⟩
  | shift x =>
    refine ⟨rfl, rfl, fun hgives y hy => ?_, fun hvars => ?_⟩
    · obtain rfl := Read.shift.inj hy
      exact hgives.2
    · exact ⟨rfl, hvars x rfl⟩

theorem perform_nil (r : Read) {c : Caller F} (h : c.src.cur = []) :
    Refuses r (perform r c).1 ∧ (perform r c).2 = c := by
  obtain ⟨⟨cur⟩, vars, succeeded⟩ := c
  obtain rfl : cur = [] := h
  cases r with
  | required => exact ⟨⟨_, rfl⟩, rfl⟩
  | optional x => exact ⟨rfl, rfl⟩
  | shift x => exact ⟨⟨_, rfl⟩, rfl⟩

/-! ## Sequences of reads -/

section Sequence

variable (l : ExprList F)

/-- A caller that has not read yet. -/
def Caller.fresh (vars : Nat → ExprPtr F) : Caller F := ⟨⟨l⟩, vars, 0⟩

variable {l}

/-- **The cursor is at the number of successful reads**, whatever they were. -/
theorem run_cursor (reads : List Read) {c : Caller F} (h : c.src.cur = l.drop c.succeeded) :
    (performAll reads c).src.cur = l.drop (performAll reads c).succeeded := by
  induction reads generalizing c with
  | nil => exact h
  | cons r reads ih =>
    refine @ih (perform r c).2 ?_
    cases hcur : c.src.cur with
    | nil =>
      rw [(perform_nil r hcur).2]
      exact h
    | cons p ps =>
      obtain ⟨hsrc, hcount, -⟩ := perform_cons r hcur
      rw [hsrc, hcount, ← List.drop_drop, ← h, hcur]
      rfl

variable (l)

/-- A read `r` after `k` successful ones gives the caller the `k`-th element and consumes that
one, or there is none, and it is refused and changes nothing. -/
def ReadAgrees (c : Caller F) (r : Read) : Prop :=
  match l[c.succeeded]? with
  | some p => Gives r p (perform r c) ∧ (perform r c).2.succeeded = c.succeeded + 1 ∧
      (perform r c).2.src.cur = l.drop (c.succeeded + 1)
  | none => Refuses r (perform r c).1 ∧ (perform r c).2 = c

/-- Every read of the sequence does so. -/
def ReadsAgree (vars : Nat → ExprPtr F) (reads : List Read) : Prop :=
  ∀ (pre : List Read) (r : Read) (post : List Read), reads = pre ++ r :: post →
    ReadAgrees l (performAll pre (.fresh l vars)) r

/-- Where a read is `>>` and there is an element left, the variable passed holds that element
already. -/
def FindsItsElement (c : Caller F) (r : Read) : Prop :=
  ∀ x p, r = .shift x → l[c.succeeded]? = some p → c.vars x = p

theorem read_agrees_iff {c : Caller F} (hcur : c.src.cur = l.drop c.succeeded) (r : Read) :
    ReadAgrees l c r ↔ FindsItsElement l c r := by
  unfold ReadAgrees FindsItsElement
  cases hget : l[c.succeeded]? with
  | none =>
    have hnil : c.src.cur = [] := by
      rw [hcur, List.drop_eq_nil_iff]
      exact List.getElem?_eq_none_iff.mp hget
    exact ⟨fun _ x p _ hp => absurd hp (by simp), fun _ => perform_nil r hnil⟩
  | some p =>
    obtain ⟨hlt, hp⟩ := List.getElem?_eq_some_iff.mp hget
    have hcons : c.src.cur = p :: l.drop (c.succeeded + 1) := by
      rw [hcur, List.drop_eq_getElem_cons hlt, hp]
    obtain ⟨hsrc, hcount, hgives⟩ := perform_cons r hcons
    constructor
    · rintro ⟨hread, -⟩ x q hx hq
      rw [← Option.some.inj hq]
      exact hgives.mp hread x hx
    · intro hshift
      exact ⟨hgives.mpr fun x hx => hshift x p hx rfl, hcount, hsrc⟩

/-- **The three ways of reading agree** along a sequence of reads exactly when every `>>` in
it finds in its variable what it reads. -/
theorem reads_agree_iff (vars : Nat → ExprPtr F) (reads : List Read) :
    ReadsAgree l vars reads ↔
      ∀ (pre : List Read) (r : Read) (post : List Read), reads = pre ++ r :: post →
        FindsItsElement l (performAll pre (.fresh l vars)) r := by
  have hone : ∀ pre r, ReadAgrees l (performAll pre (.fresh l vars)) r ↔
      FindsItsElement l (performAll pre (.fresh l vars)) r :=
    fun pre r => read_agrees_iff l (run_cursor pre rfl) r
  constructor
  · intro hagree pre r post hreads
    exact (hone pre r).mp (hagree pre r post hreads)
  · intro hfinds pre r post hreads
    exact (hone pre r).mpr (hfinds pre r post hreads)

end Sequence

/-- The parameter list `(7)`. -/
def sevenList : ExprList Unit := [some (.integer 7)]

/-- After `src >> e` on `(7)` the element is consumed, and the caller's null `e` still null. -/
theorem shift_does_not_give :
    (perform (.shift 0) (.fresh sevenList fun _ => none)).2.src.cur = [] ∧
    (perform (.shift 0) (.fresh sevenList fun _ => none)).2.vars 0 = none ∧
    ¬ ReadsAgree sevenList (fun _ => none) [.shift 0] := by
  refine ⟨rfl, rfl, fun hagree => ?_⟩
  have hgives : (none : ExprPtr Unit) = some (.integer 7) := (hagree [] (.shift 0) [] rfl).1.2
  exact absurd hgives (by simp)

/-- `required()` and `optional(e)` agree in any order, also past the end. -/
theorem reads_agree_demo :
    ReadsAgree sevenList (fun _ => none) [.optional 0, .required, .optional 0] := by
  refine (reads_agree_iff sevenList _ _).mpr fun pre r post hreads x p hx => ?_
  have hmem : Read.shift x ∈ [Read.optional 0, .required, .optional 0] := by
    rw [hreads, hx]
    simp
  exact absurd hmem (by simp)

end Cor.Notlisp

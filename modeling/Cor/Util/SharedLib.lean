import Mathlib.Tactic.ByContra
import Cor.Base.Bytes
import Cor.Lib.Pool
import Cor.Lib.Run

/-!
# `SharedLib`: who unloads a library

Any number of `SharedLib` objects under the member functions of the class, and next to
them the calls of the dynamic linker with their handles, 0 for null. The move constructor
copies the handle and leaves it in the object it moves from, so from then on two objects
own it.

`step_owners` counts the owners: a handle is opened with one, a move from a loaded object
adds one, and an owner that closes the handle or is destroyed accounts for one call of
`dlclose`. `unloaded_once_iff` is what follows for a run.
-/

namespace Cor.SharedLib

open Cor.Lib

/-- One object. -/
structure Obj where
  h : Nat
  name : Bytes
deriving DecidableEq

/-- The calls of the dynamic linker: what `dlopen` answered, and what the others were given. -/
inductive Call
  | dlopen (h : Nat)
  | dlclose (h : Nat)
  | dlsym (h : Nat)
deriving DecidableEq

/-- The handle that a call uses. -/
def Call.uses : Call → Option Nat
  | dlopen _ => none
  | dlclose h => some h
  | dlsym h => some h

structure State where
  objs : Pool Obj
  calls : List Call

def init : State := ⟨∅, []⟩

/-- The member functions, with the objects they are called on. -/
inductive Op
  /-- `SharedLib(name, flag)`, when `dlopen` answers `h` -/
  | construct (o : Nat) (name : Bytes) (h : Nat)
  | moveConstruct (o src : Nat)
  | close (o : Nat)
  /-- either `sym` -/
  | sym (o : Nat)
  | destroy (o : Nat)
deriving DecidableEq

/-- `close()`. -/
def close (s : State) (o : Nat) (x : Obj) : State :=
  if x.h ≠ 0 then ⟨s.objs.insert o { x with h := 0 }, s.calls ++ [.dlclose x.h]⟩ else s

/-- One call of a member function; `none` if the object is not alive (or already is, for a
constructor). A handle that `dlopen` answers is fresh. -/
def step (s : State) : Op → Option State
  | .construct o name h =>
    match s.objs.lookup o with
    | some _ => none
    | none =>
      if h ≠ 0 ∧ .dlopen h ∈ s.calls then none
      else some ⟨s.objs.insert o ⟨h, name⟩, s.calls ++ [.dlopen h]⟩
  | .moveConstruct o src =>
    match s.objs.lookup o, s.objs.lookup src with
    -- `name_` is not moved either
    | none, some x => some { s with objs := s.objs.insert o ⟨x.h, []⟩ }
    | _, _ => none
  | .close o =>
    match s.objs.lookup o with
    | some x => some (close s o x)
    | none => none
  | .sym o =>
    match s.objs.lookup o with
    | some x => if x.h ≠ 0 then some { s with calls := s.calls ++ [.dlsym x.h] } else some s
    | none => none
  | .destroy o =>
    match s.objs.lookup o with
    | some x => some { close s o x with objs := (close s o x).objs.erase o }
    | none => none

/-- What a call that is possible does, one case for each way it can go. -/
inductive StepSpec (s : State) : Op → State → Prop
  | construct {o : Nat} {name : Bytes} {h : Nat} (ho : s.objs.lookup o = none)
      (hfresh : h ≠ 0 → .dlopen h ∉ s.calls) :
      StepSpec s (.construct o name h) ⟨s.objs.insert o ⟨h, name⟩, s.calls ++ [.dlopen h]⟩
  | moveConstruct {o src : Nat} {x : Obj} (ho : s.objs.lookup o = none)
      (hsrc : s.objs.lookup src = some x) :
      StepSpec s (.moveConstruct o src) { s with objs := s.objs.insert o ⟨x.h, []⟩ }
  | close {o : Nat} {x : Obj} (ho : s.objs.lookup o = some x) (hx : x.h ≠ 0) :
      StepSpec s (.close o) ⟨s.objs.insert o { x with h := 0 }, s.calls ++ [.dlclose x.h]⟩
  | closeNull {o : Nat} {x : Obj} (ho : s.objs.lookup o = some x) (hx : x.h = 0) :
      StepSpec s (.close o) s
  | sym {o : Nat} {x : Obj} (ho : s.objs.lookup o = some x) (hx : x.h ≠ 0) :
      StepSpec s (.sym o) { s with calls := s.calls ++ [.dlsym x.h] }
  | symNull {o : Nat} {x : Obj} (ho : s.objs.lookup o = some x) (hx : x.h = 0) :
      StepSpec s (.sym o) s
  | destroy {o : Nat} {x : Obj} (ho : s.objs.lookup o = some x) (hx : x.h ≠ 0) :
      StepSpec s (.destroy o) ⟨s.objs.erase o, s.calls ++ [.dlclose x.h]⟩
  | destroyNull {o : Nat} {x : Obj} (ho : s.objs.lookup o = some x) (hx : x.h = 0) :
      StepSpec s (.destroy o) ⟨s.objs.erase o, s.calls⟩

/-- **The inversion lemma of `step`.** -/
theorem step_cases {s s' : State} {op : Op} (h : step s op = some s') : StepSpec s op s' := by
  cases op with
  | construct o name a =>
    simp only [step] at h
    split at h
    next => exact nomatch h
    next ho =>
      split at h
      next => exact nomatch h
      next hfresh =>
        obtain rfl := Option.some.inj h
        exact .construct ho fun ha hmem => hfresh ⟨ha, hmem⟩
  | moveConstruct o src =>
    simp only [step] at h
    split at h
    next ho hsrc =>
      obtain rfl := Option.some.inj h
      exact .moveConstruct ho hsrc
    next => exact nomatch h
  | close o =>
    simp only [step] at h
    split at h
    next x ho =>
      obtain rfl := Option.some.inj h
      unfold close
      split
      next hx => exact .close ho hx
      next hx => exact .closeNull ho (not_not.mp hx)
    next => exact nomatch h
  | sym o =>
    simp only [step] at h
    split at h
    next x ho =>
      split at h <;> obtain rfl := Option.some.inj h
      next hx => exact .sym ho hx
      next hx => exact .symNull ho (not_not.mp hx)
    next => exact nomatch h
  | destroy o =>
    simp only [step] at h
    split at h
    next x ho =>
      obtain rfl := Option.some.inj h
      unfold close
      split
      next hx =>
        show StepSpec s (.destroy o)
          ⟨(s.objs.insert o { x with h := 0 }).erase o, s.calls ++ [.dlclose x.h]⟩
        rw [Pool.erase_insert]
        exact .destroy ho hx
      next hx => exact .destroyNull ho (not_not.mp hx)
    next => exact nomatch h

/-! ## Counting the owners -/

/-- How many live objects own the handle. -/
def State.owners (s : State) (h : Nat) : Nat := s.objs.tally Obj.h h

def State.opens (s : State) (h : Nat) : Nat := s.calls.count (.dlopen h)

def State.closes (s : State) (h : Nat) : Nat := s.calls.count (.dlclose h)

/-- What a move construction adds to the owners. -/
def copied (s : State) (op : Op) (h : Nat) : Nat :=
  match op with
  | .moveConstruct _ src => if (s.objs.lookup src).map Obj.h = some h then 1 else 0
  | _ => 0

section Owners

variable {s s' : State} {op : Op} {h : Nat}

/-- **The conservation law of one call.** -/
theorem step_owners (hh : h ≠ 0) (hstep : step s op = some s') :
    s'.owners h + s'.closes h + s.opens h =
      s.owners h + s.closes h + s'.opens h + copied s op h := by
  cases step_cases hstep with
  | @construct o name a ho hfresh =>
    have ht := Pool.tally_insert_new (f := Obj.h) (a := ⟨a, name⟩) h ho
    simp only [State.owners, State.closes, State.opens, copied, Pool.unit, List.count_append,
      List.count_singleton, beq_iff_eq, Call.dlopen.injEq, reduceCtorEq, if_false] at ht ⊢
    by_cases ha : a = h
    · simp only [ha, if_true] at ht ⊢
      omega
    · simp only [ha, Ne.symm ha, if_false] at ht ⊢
      omega
  | @moveConstruct o src x ho hsrc =>
    have ht := Pool.tally_insert_new (f := Obj.h) (a := ⟨x.h, []⟩) h ho
    simp only [State.owners, State.closes, State.opens, copied, Pool.unit, hsrc, Option.map_some,
      Option.some.injEq, eq_comm (a := h)] at ht ⊢
    omega
  | @close o x ho hx =>
    have ht := Pool.tally_insert_old (f := Obj.h) (a := { x with h := 0 }) h ho
    simp only [State.owners, State.closes, State.opens, copied, Pool.unit, hh, List.count_append,
      List.count_singleton, beq_iff_eq, Call.dlclose.injEq, reduceCtorEq, if_false,
      eq_comm (a := h)] at ht ⊢
    omega
  | closeNull ho hx => rfl
  | sym ho hx =>
    simp only [State.owners, State.closes, State.opens, copied, List.count_append,
      List.count_singleton, beq_iff_eq, reduceCtorEq, if_false]
    omega
  | symNull ho hx => rfl
  | @destroy o x ho hx =>
    have ht := Pool.tally_erase (f := Obj.h) h ho
    simp only [State.owners, State.closes, State.opens, copied, Pool.unit, List.count_append,
      List.count_singleton, beq_iff_eq, Call.dlclose.injEq, reduceCtorEq, if_false,
      eq_comm (a := h)] at ht ⊢
    omega
  | @destroyNull o x ho hx =>
    have ht := Pool.tally_erase (f := Obj.h) h ho
    simp only [State.owners, State.closes, State.opens, copied, Pool.unit, hx, hh, if_false]
      at ht ⊢
    omega

theorem owners_pos {o : Nat} {x : Obj} (ho : s.objs.lookup o = some x) : 0 < s.owners x.h := by
  have ht := Pool.tally_erase (f := Obj.h) x.h ho
  rw [Pool.unit, if_pos rfl] at ht
  unfold State.owners
  omega

theorem copied_le : copied s op h ≤ s.owners h := by
  cases op with
  | moveConstruct o src =>
    show (if (s.objs.lookup src).map Obj.h = some h then 1 else 0) ≤ s.owners h
    split
    next hsrc =>
      obtain ⟨x, hx, rfl⟩ := Option.map_eq_some_iff.mp hsrc
      exact owners_pos hx
    next => exact Nat.zero_le _
  | construct o name a => exact Nat.zero_le _
  | close o => exact Nat.zero_le _
  | sym o => exact Nat.zero_le _
  | destroy o => exact Nat.zero_le _

/-- A member function makes at most one call of the linker: with the handle of a live object,
or a `dlopen`, whose answer is fresh. -/
theorem step_calls (hstep : step s op = some s') :
    s'.calls = s.calls ∨ ∃ c, s'.calls = s.calls ++ [c] ∧
      (∀ h, c.uses = some h → 0 < s.owners h ∧ h ≠ 0) ∧
      (∀ h, c = .dlopen h → h ≠ 0 → .dlopen h ∉ s.calls) := by
  cases step_cases hstep with
  | construct ho hfresh =>
    refine .inr ⟨_, rfl, fun h hu => (nomatch hu), ?_⟩
    intro h hc hh
    obtain rfl := Call.dlopen.inj hc
    exact hfresh hh
  | moveConstruct ho hsrc => exact .inl rfl
  | close ho hx | sym ho hx | destroy ho hx =>
    refine .inr ⟨_, rfl, ?_, fun h hc => (nomatch hc)⟩
    intro h hu
    obtain rfl := Option.some.inj hu
    exact ⟨owners_pos ho, hx⟩
  | closeNull ho hx => exact .inl rfl
  | symNull ho hx => exact .inl rfl
  | destroyNull ho hx => exact .inl rfl

/-- A handle is opened once at most. -/
theorem step_opens (hh : h ≠ 0) (hstep : step s op = some s') :
    s.opens h ≤ s'.opens h ∧ (s.opens h ≤ 1 → s'.opens h ≤ 1) := by
  unfold State.opens
  rcases step_calls hstep with hsame | ⟨c, hadd, -, hfresh⟩
  · rw [hsame]
    exact ⟨Nat.le_refl _, id⟩
  · rw [hadd]
    exact Pool.count_fresh fun hc => hfresh h hc hh

end Owners

/-! ## Whole runs -/

/-- What holds in every state reached: each handle that was opened, and no other, has owners
or was closed. -/
structure Opened (s : State) (h : Nat) : Prop where
  once : s.opens h ≤ 1
  kept : s.opens h ≤ s.owners h + s.closes h
  only : s.opens h = 0 → s.owners h + s.closes h = 0

theorem init_opened {h : Nat} : Opened init h := ⟨Nat.zero_le 1, Nat.zero_le _, fun _ => rfl⟩

theorem step_opened {h : Nat} (hh : h ≠ 0) (s : State) (op : Op) (s' : State) (hO : Opened s h)
    (hstep : step s op = some s') : Opened s' h := by
  have hflow := step_owners hh hstep
  have hcopied := @copied_le s op h
  obtain ⟨hmono, honce⟩ := step_opens hh hstep
  have hkept := hO.kept
  refine ⟨honce hO.once, by omega, ?_⟩
  intro hnone
  have hbefore := hO.only (by omega)
  omega

/-- A move construction is from an object that is not loaded. -/
def MovesUnloaded (s : State) : Op → Prop
  | .moveConstruct _ src => ∀ x ∈ s.objs.lookup src, x.h = 0
  | .construct _ _ _ => True
  | .close _ => True
  | .sym _ => True
  | .destroy _ => True

instance (s : State) : (op : Op) → Decidable (MovesUnloaded s op)
  | .moveConstruct _ src => inferInstanceAs (Decidable (∀ x ∈ s.objs.lookup src, x.h = 0))
  | .construct _ _ _ => isTrue trivial
  | .close _ => isTrue trivial
  | .sym _ => isTrue trivial
  | .destroy _ => isTrue trivial

/-- `dlclose` was called once for each handle that was opened. -/
def UnloadedOnce (s : State) : Prop :=
  ∀ h, h ≠ 0 → .dlopen h ∈ s.calls → s.closes h = 1

/-- No handle is used after a `dlclose` of it. -/
def NoLateUse (calls : List Call) : Prop :=
  ∀ pre c post, calls = pre ++ c :: post → ∀ h, c.uses = some h → .dlclose h ∉ pre

theorem NoLateUse.snoc {calls : List Call} {c : Call} (hcalls : NoLateUse calls)
    (hc : ∀ h, c.uses = some h → .dlclose h ∉ calls) : NoLateUse (calls ++ [c]) := by
  intro pre d post heq h hu
  rcases List.eq_nil_or_concat' post with rfl | ⟨post, last, rfl⟩
  · obtain ⟨rfl, hd⟩ := List.append_inj' heq rfl
    obtain rfl := (List.cons.inj hd).1
    exact hc h hu
  · rw [← List.cons_append, ← List.append_assoc] at heq
    obtain ⟨rfl, -⟩ := List.append_inj' heq rfl
    exact hcalls pre d post rfl h hu

/-- What holds along a run that moves from no loaded object: a handle has one owner until it
is closed. -/
structure Sole (s : State) : Prop where
  balance : ∀ h, h ≠ 0 → s.owners h + s.closes h = s.opens h
  once : ∀ h, h ≠ 0 → s.opens h ≤ 1
  noLateUse : NoLateUse s.calls

theorem init_sole : Sole init where
  balance := fun _ _ => rfl
  once := fun _ _ => Nat.zero_le 1
  noLateUse := by
    intro pre c post heq
    exact absurd heq (by simp [init])

theorem copied_eq_zero {s : State} {op : Op} {h : Nat} (hh : h ≠ 0) (hC : MovesUnloaded s op) :
    copied s op h = 0 := by
  cases op with
  | moveConstruct o src =>
    refine if_neg ?_
    intro hsrc
    obtain ⟨x, hx, rfl⟩ := Option.map_eq_some_iff.mp hsrc
    exact hh (hC x hx)
  | construct o name a => rfl
  | close o => rfl
  | sym o => rfl
  | destroy o => rfl

theorem step_sole (s : State) (op : Op) (s' : State) (hS : Sole s) (hC : MovesUnloaded s op)
    (hstep : step s op = some s') : Sole s' := by
  refine ⟨?_, fun h hh => (step_opens hh hstep).2 (hS.once h hh), ?_⟩
  · intro h hh
    have hflow := step_owners hh hstep
    have hbalance := hS.balance h hh
    rw [copied_eq_zero hh hC] at hflow
    omega
  · rcases step_calls hstep with hsame | ⟨c, hadd, howned, -⟩
    · rw [hsame]
      exact hS.noLateUse
    · rw [hadd]
      refine hS.noLateUse.snoc ?_
      intro h hu hmem
      -- the handle of a live object is not closed, because that would be a second owner
      obtain ⟨hpos, hh⟩ := howned h hu
      have hclosed : 0 < s.closes h := List.count_pos_iff.mpr hmem
      have hbalance := hS.balance h hh
      have honce := hS.once h hh
      omega

/-- A handle that was owned twice still is, or was closed. -/
theorem step_twice {h : Nat} (hh : h ≠ 0) (s : State) (op : Op) (s' : State)
    (htwice : 2 ≤ s.owners h + s.closes h) (hstep : step s op = some s') :
    2 ≤ s'.owners h + s'.closes h := by
  have hflow := step_owners hh hstep
  have hmono := (step_opens hh hstep).1
  omega

/-- **When every library is unloaded exactly once.** In a run that ends with all objects
destroyed, `dlclose` is called once for each handle and no handle is used afterwards, exactly
when no move construction is from a loaded object. -/
theorem unloaded_once_iff {ops : List Op} {s : State} (hrun : run step init ops = some s)
    (hend : s.objs = ∅) :
    (UnloadedOnce s ∧ NoLateUse s.calls) ↔ Along step MovesUnloaded init ops := by
  have hnone : ∀ h, s.owners h = 0 := by
    intro h
    rw [State.owners, hend, Pool.tally_empty]
  constructor
  · rintro ⟨honce, -⟩
    by_contra hC
    obtain ⟨pre, op, post, m, m', -, hpre, hop, hbad, hpost⟩ := not_along ops hrun hC
    cases op with
    | moveConstruct o src =>
      simp only [MovesUnloaded, not_forall] at hbad
      obtain ⟨x, hx, hh⟩ := hbad
      -- the handle gets its second owner, so it is closed twice in the end
      have hO : Opened m x.h := run_inv (step_opened hh) pre hpre init_opened
      have hpos := owners_pos hx
      have hflow := step_owners hh hop
      have hmono := (step_opens hh hop).1
      have hcopied : copied m (.moveConstruct o src) x.h = 1 := if_pos (by rw [hx]; rfl)
      have htwice : 2 ≤ s.owners x.h + s.closes x.h :=
        run_inv (step_twice hh) post hpost (by omega)
      have hopened : Opened s x.h := run_inv (step_opened hh) ops hrun init_opened
      have hclosed := honce x.h hh (List.count_pos_iff.mp (by
        show 0 < s.opens x.h
        have honly := hopened.only
        omega))
      have hzero := hnone x.h
      omega
    | construct o name a => exact hbad trivial
    | close o => exact hbad trivial
    | sym o => exact hbad trivial
    | destroy o => exact hbad trivial
  · intro hC
    have hS := run_inv_along step_sole ops hrun hC init_sole
    refine ⟨?_, hS.noLateUse⟩
    intro h hh hmem
    have hopened : 0 < s.opens h := List.count_pos_iff.mpr hmem
    have hbalance := hS.balance h hh
    have honce := hS.once h hh
    have hzero := hnone h
    omega

/-- Two libraries, one of which could not be loaded and is moved; the other is used, closed
and destroyed. -/
def settledRun : List Op :=
  [.construct 0 (ascii "a.so") 7, .construct 1 (ascii "b.so") 0, .moveConstruct 2 1, .sym 0,
   .close 0, .sym 0, .destroy 0, .destroy 1, .destroy 2]

theorem unloaded_once_demo : ∃ s, run step init settledRun = some s ∧
    s.calls = [.dlopen 7, .dlopen 0, .dlsym 7, .dlclose 7] ∧ UnloadedOnce s ∧
    NoLateUse s.calls := by
  have hsettled := (unloaded_once_iff (show run step init settledRun = some _ from rfl) rfl).mpr
    (by decide)
  exact ⟨_, rfl, rfl, hsettled⟩

/-- A loaded library is moved, and both objects are destroyed: it is closed twice, and the
second time it is used after it was closed. -/
theorem moved_closed_twice : ∃ s,
    run step init [.construct 0 (ascii "a.so") 7, .moveConstruct 1 0, .destroy 0, .destroy 1] =
      some s ∧ s.objs = ∅ ∧ s.calls = [.dlopen 7, .dlclose 7, .dlclose 7] ∧
    ¬ UnloadedOnce s ∧ ¬ NoLateUse s.calls := by
  refine ⟨_, rfl, rfl, rfl, ?_, ?_⟩
  · intro honce
    exact absurd (honce 7 (by decide) (by decide)) (by decide)
  · intro hlate
    exact hlate [.dlopen 7, .dlclose 7] (.dlclose 7) [] rfl 7 rfl (by decide)

end Cor.SharedLib

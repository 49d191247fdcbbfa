import Mathlib.Tactic.ByContra
import Cor.Lib.Pool
import Cor.Lib.Run

/-!
# `inotify::Watch`: who removes a watch

Any number of `Watch` objects on one `inotify::Handle`, and next to them the descriptors
that `inotify_add_watch` answered and those that `inotify_rm_watch` was called with. The
move constructor leaves `fd_` uninitialised, removes that value and swaps it into the
object it moves from, whose destructor removes it once more.

An uninitialised member has any value, which is an argument of the operation.
-/

namespace Cor.Inotify

open Cor.Lib

/-- One object. -/
structure Watch where
  fd : Int32
deriving DecidableEq

structure State where
  objs : Pool Watch
  added : List Int32
  removed : List Int32

def init : State := ⟨∅, [], []⟩

inductive Op
  /-- `Watch(inotify, path, mask)`, when `inotify_add_watch` answers `fd` -/
  | construct (o : Nat) (fd : Int32)
  /-- `Watch(std::move(src))`, when the memory of `fd_` holds `garbage` -/
  | moveConstruct (o src : Nat) (garbage : Int32)
  | destroy (o : Nat)
deriving DecidableEq

/-- `rm()`. -/
def rm (s : State) (w : Watch) : State := { s with removed := s.removed ++ [w.fd] }

/-- One call; `none` if the object is not alive (or already is, for a constructor). A
descriptor that `inotify_add_watch` answers is fresh. -/
def step (s : State) : Op → Option State
  | .construct o fd =>
    match s.objs.lookup o with
    | some _ => none
    | none =>
      if fd ∈ s.added then none
      else some { s with objs := s.objs.insert o ⟨fd⟩, added := s.added ++ [fd] }
  | .moveConstruct o src garbage =>
    match s.objs.lookup o, s.objs.lookup src with
    | none, some w =>
      -- `rm(); std::swap(fd_, src.fd_);`
      let s := rm s ⟨garbage⟩
      some { s with objs := (s.objs.insert o w).insert src ⟨garbage⟩ }
    | _, _ => none
  | .destroy o =>
    match s.objs.lookup o with
    | some w => some { rm s w with objs := s.objs.erase o }
    | none => none

/-- What a call that is possible does. -/
inductive StepSpec (s : State) : Op → State → Prop
  | construct {o : Nat} {fd : Int32} (ho : s.objs.lookup o = none) (hfresh : fd ∉ s.added) :
      StepSpec s (.construct o fd) ⟨s.objs.insert o ⟨fd⟩, s.added ++ [fd], s.removed⟩
  | moveConstruct {o src : Nat} {garbage : Int32} {w : Watch} (ho : s.objs.lookup o = none)
      (hsrc : s.objs.lookup src = some w) :
      StepSpec s (.moveConstruct o src garbage)
        ⟨(s.objs.insert o w).insert src ⟨garbage⟩, s.added, s.removed ++ [garbage]⟩
  | destroy {o : Nat} {w : Watch} (ho : s.objs.lookup o = some w) :
      StepSpec s (.destroy o) ⟨s.objs.erase o, s.added, s.removed ++ [w.fd]⟩

/-- **The inversion lemma of `step`.** -/
theorem step_cases {s s' : State} {op : Op} (h : step s op = some s') : StepSpec s op s' := by
  cases op with
  | construct o fd =>
    simp only [step] at h
    split at h
    next => exact nomatch h
    next ho =>
      split at h
      next => exact nomatch h
      next hfresh =>
        obtain rfl := Option.some.inj h
        exact .construct ho hfresh
  | moveConstruct o src garbage =>
    simp only [step] at h
    split at h
    next ho hsrc =>
      obtain rfl := Option.some.inj h
      exact .moveConstruct ho hsrc
    next => exact nomatch h
  | destroy o =>
    simp only [step] at h
    split at h
    next w ho =>
      obtain rfl := Option.some.inj h
      exact .destroy ho
    next => exact nomatch h

/-! ## Counting the owners -/

/-- How many live watches hold the descriptor. -/
def State.owners (s : State) (d : Int32) : Nat := s.objs.tally Watch.fd d

/-- What a move construction adds to the owners and removals of a descriptor: the value of the
uninitialised member is removed, and has an owner from then on. -/
def conjured (op : Op) (d : Int32) : Nat :=
  match op with
  | .moveConstruct _ _ garbage => if garbage = d then 2 else 0
  | _ => 0

section Owners

variable {s s' : State} {op : Op}

/-- **The conservation law of one call.** -/
theorem step_owners (d : Int32) (hstep : step s op = some s') :
    s'.owners d + s'.removed.count d + s.added.count d =
      s.owners d + s.removed.count d + s'.added.count d + conjured op d := by
  cases step_cases hstep with
  | @construct o fd ho hfresh =>
    have ht := Pool.tally_insert_new (f := Watch.fd) (a := ⟨fd⟩) d ho
    simp only [State.owners, conjured, Pool.unit, List.count_append, List.count_singleton,
      beq_iff_eq, eq_comm (a := d)] at ht ⊢
    omega
  | @moveConstruct o src garbage w ho hsrc =>
    have hne : src ≠ o := by
      rintro rfl
      exact absurd (ho.symm.trans hsrc) (Option.some_ne_none w).symm
    have hsrc' : (s.objs.insert o w).lookup src = some w := by
      rw [Finmap.lookup_insert_of_ne _ hne, hsrc]
    have ht := Pool.tally_insert_new (f := Watch.fd) (a := w) d ho
    have ht' := Pool.tally_insert_old (f := Watch.fd) (a := ⟨garbage⟩) d hsrc'
    simp only [State.owners, conjured, Pool.unit, List.count_append, List.count_singleton,
      beq_iff_eq, eq_comm (a := d)] at ht ht' ⊢
    by_cases hd : garbage = d
    · simp only [hd, if_true] at ht' ⊢
      omega
    · simp only [hd, if_false] at ht' ⊢
      omega
  | @destroy o w ho =>
    have ht := Pool.tally_erase (f := Watch.fd) d ho
    simp only [State.owners, conjured, Pool.unit, List.count_append, List.count_singleton,
      beq_iff_eq, eq_comm (a := d)] at ht ⊢
    omega

/-- A descriptor is added once at most. -/
theorem step_added (d : Int32) (hstep : step s op = some s') :
    s.added.count d ≤ s'.added.count d ∧ (s.added.count d ≤ 1 → s'.added.count d ≤ 1) := by
  cases step_cases hstep with
  | @construct o fd ho hfresh =>
    refine Pool.count_fresh ?_
    rintro rfl
    exact hfresh
  | moveConstruct ho hsrc => exact ⟨Nat.le_refl _, id⟩
  | destroy ho => exact ⟨Nat.le_refl _, id⟩

theorem step_removed (d : Int32) (hstep : step s op = some s') :
    s.removed.count d ≤ s'.removed.count d := by
  cases step_cases hstep with
  | construct ho hfresh => exact Nat.le_refl _
  | moveConstruct ho hsrc | destroy ho =>
    show s.removed.count d ≤ (s.removed ++ _).count d
    rw [List.count_append]
    exact Nat.le_add_right _ _

end Owners

/-! ## Whole runs -/

/-- A descriptor was removed once if it was added and no watch owns it any more, and else
was not removed. -/
def RemovesOwn (s : State) : Prop :=
  ∀ d, s.removed.count d = if d ∈ s.added ∧ s.owners d = 0 then 1 else 0

/-- The operation is not a move construction. -/
def NoMove (_ : State) : Op → Prop
  | .moveConstruct _ _ _ => False
  | .construct _ _ => True
  | .destroy _ => True

instance (s : State) : (op : Op) → Decidable (NoMove s op)
  | .moveConstruct _ _ _ => isFalse id
  | .construct _ _ => isTrue trivial
  | .destroy _ => isTrue trivial

/-- What holds along a run without moves. -/
structure Sole (s : State) : Prop where
  balance : ∀ d, s.owners d + s.removed.count d = s.added.count d
  once : ∀ d, s.added.count d ≤ 1

theorem init_sole : Sole init := ⟨fun _ => rfl, fun _ => Nat.zero_le 1⟩

theorem step_sole (s : State) (op : Op) (s' : State) (hS : Sole s) (hC : NoMove s op)
    (hstep : step s op = some s') : Sole s' := by
  refine ⟨?_, fun d => (step_added d hstep).2 (hS.once d)⟩
  intro d
  have hflow := step_owners d hstep
  have hbalance := hS.balance d
  have hconjured : conjured op d = 0 := by
    cases op with
    | moveConstruct o src garbage => exact hC.elim
    | construct o fd => rfl
    | destroy o => rfl
  omega

/-- What holds of the value of an uninitialised member ever after: it was removed, and for a
second time if no watch owns it. -/
def Stray (d : Int32) (s : State) : Prop :=
  1 ≤ s.removed.count d ∧ 2 ≤ s.owners d + s.removed.count d

theorem step_stray {d : Int32} (s : State) (op : Op) (s' : State) (hS : Stray d s)
    (hstep : step s op = some s') : Stray d s' := by
  have hflow := step_owners d hstep
  have hadded := (step_added d hstep).1
  have hremoved := step_removed d hstep
  obtain ⟨hone, htwo⟩ := hS
  exact ⟨by omega, by omega⟩

theorem Stray.not_removesOwn {d : Int32} {s : State} (hS : Stray d s) : ¬ RemovesOwn s := by
  intro hown
  have hd := hown d
  obtain ⟨hone, htwo⟩ := hS
  split at hd
  next hcond =>
    have hnone := hcond.2
    omega
  next => omega

/-- **When watches remove only what they added.** At the end of a run each descriptor that was
added and has no owner was removed once, and no other was, exactly when the run has no move
construction. -/
theorem removes_own_iff {ops : List Op} {s : State} (hrun : run step init ops = some s) :
    RemovesOwn s ↔ Along step NoMove init ops := by
  constructor
  · intro hown
    by_contra hC
    obtain ⟨pre, op, post, m, m', -, hpre, hop, hbad, hpost⟩ := not_along ops hrun hC
    cases op with
    | moveConstruct o src garbage =>
      have hflow := step_owners garbage hop
      have hadded := (step_added garbage hop).1
      have hconjured : conjured (.moveConstruct o src garbage) garbage = 2 := if_pos rfl
      have hstray : Stray garbage m' := by
        refine ⟨?_, by omega⟩
        cases step_cases hop with
        | moveConstruct ho hsrc =>
          exact List.count_pos_iff.mpr (List.mem_append_right _ (List.mem_singleton_self _))
      exact (run_inv step_stray post hpost hstray).not_removesOwn hown
    | construct o fd => exact hbad trivial
    | destroy o => exact hbad trivial
  · intro hC d
    have hS := run_inv_along step_sole ops hrun hC init_sole
    have hbalance := hS.balance d
    have honce := hS.once d
    by_cases hmem : d ∈ s.added
    · have hpos := List.count_pos_iff.mpr hmem
      by_cases hnone : s.owners d = 0
      · rw [if_pos ⟨hmem, hnone⟩]
        omega
      · rw [if_neg (fun hcond => hnone hcond.2)]
        omega
    · rw [List.count_eq_zero.mpr hmem] at hbalance
      rw [if_neg (fun hcond => hmem hcond.1)]
      omega

/-- Two watches, the first of which is destroyed. -/
def plainRun : List Op := [.construct 0 1, .construct 1 2, .destroy 0]

theorem removes_own_demo : ∃ s, run step init plainRun = some s ∧ s.removed = [1] ∧
    RemovesOwn s :=
  ⟨_, rfl, rfl, (removes_own_iff (show run step init plainRun = some _ from rfl)).mpr (by decide)⟩

/-- The first watch is moved while the memory of the new one holds the descriptor of the
second: the second watch is removed while its owner lives. -/
theorem move_removes_other : ∃ s,
    run step init [.construct 0 1, .construct 1 2, .moveConstruct 2 0 2] = some s ∧
      s.removed = [2] ∧ s.objs.lookup 1 = some ⟨2⟩ ∧ ¬ RemovesOwn s := by
  refine ⟨_, rfl, rfl, rfl, ?_⟩
  intro hown
  exact absurd (hown 2) (by decide)

end Cor.Inotify

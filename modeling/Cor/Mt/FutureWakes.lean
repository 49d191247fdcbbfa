import Cor.Mt.Future

/-!
# When the wake-up that a future reports is real

`BasicCondition::wait` tests `awake_` before `done_.wait_for` and not after it, as
`TaskQueueImpl::loop` does with the predicate it passes to `ready_.wait`. What it reports is
right as long as no thread wakes up spuriously before `done` was called (`wakes_are_real`),
and a thread that does can make it wrong (`returns_unreal`).
-/

namespace Cor.Mt.Future

open Cor.Lib
open Completion (Tid CvStatus)

/-- The call `d` of `done` was made by `waker`, or after the `before` it comes after. -/
def State.Backed (s : State) (d : Op × Nat) : Prop :=
  d.1 = .waker ∨ d.1 = .wrapped ∧ d.2 ∈ s.ran

/-- `done` has been called, and only from `waker` or after the `before` of its call. -/
def State.ReallyDone (s : State) : Prop :=
  s.doneBy ≠ [] ∧ ∀ d ∈ s.doneBy, s.Backed d

/-- A thread wakes up spuriously only when `done` has been called. -/
def NoEarlySpurious (s : State) : Action → Prop
  | .spurious _ => s.doneBy ≠ []
  | _ => True

instance (s : State) : (a : Action) → Decidable (NoEarlySpurious s a)
  | .spurious _ => inferInstanceAs (Decidable (s.doneBy ≠ []))
  | .call _ _ | .caller _ | .throws _ | .notify _ _ | .notifyNobody _ | .expire _ =>
    inferInstanceAs (Decidable True)

/-- Where a call can only be when `done` has been called. -/
def Pc.afterDone : Pc → Bool
  | .doneLock | .doneSet | .doneNotify | .doneUnlock | .woken => true
  | .waitLeave r | .waitReturn r => r == .noTimeout
  | _ => false

/-- What a call in progress says about the history. -/
structure CallOk (s : State) (c : Call) : Prop where
  before : c.pc = .before → c.op = .wrapped
  callDone : c.pc = .callDone → s.Backed (c.op, c.id)
  afterDone : c.pc.afterDone = true → s.doneBy ≠ []

/-- The invariant of the runs without early spurious wake-ups. -/
structure Inv (s : State) : Prop where
  awake : s.awake = true → s.doneBy ≠ []
  backed : ∀ d ∈ s.doneBy, s.Backed d
  calls : ∀ i c, s.calls.lookup i = some c → CallOk s c

/-- The history only grows. -/
structure Grows (s t : State) : Prop where
  ran : s.ran ⊆ t.ran
  doneBy : s.doneBy ≠ [] → t.doneBy ≠ []

theorem State.Backed.mono {s t : State} {d : Op × Nat} (h : s.Backed d) (hg : Grows s t) :
    t.Backed d := by
  rcases h with hw | ⟨hw, hran⟩
  · exact Or.inl hw
  · exact Or.inr ⟨hw, hg.ran hran⟩

theorem CallOk.mono {s t : State} {c : Call} (h : CallOk s c) (hg : Grows s t) : CallOk t c where
  before := h.before
  callDone hc := (h.callDone hc).mono hg
  afterDone hc := hg.doneBy (h.afterDone hc)

theorem inv_init : Inv init where
  awake h := nomatch h
  backed _ hd := nomatch hd
  calls _ _ hi := nomatch hi

/-- A call that has just begun. -/
theorem callOk_enter (s : State) (op : Op) (id : Nat) : CallOk s ⟨op.entry, op, id⟩ := by
  cases op with
  | wrapped => exact ⟨fun _ => rfl, (nomatch ·), (nomatch ·)⟩
  | waker => exact ⟨(nomatch ·), fun _ => Or.inl rfl, (nomatch ·)⟩
  | wait => exact ⟨(nomatch ·), (nomatch ·), (nomatch ·)⟩

/-- The calls after one of them has moved or begun. -/
theorem Inv.insert {s t : State} (hI : Inv s) (hg : Grows s t) {i : Tid} {c : Call}
    (hcalls : t.calls = s.calls.insert i c) (hc : CallOk t c) :
    ∀ j d, t.calls.lookup j = some d → CallOk t d := by
  intro j d hj
  rw [hcalls] at hj
  rcases Pool.lookup_insert_some hj with ⟨-, rfl⟩ | ⟨-, hj⟩
  · exact hc
  · exact (hI.calls j d hj).mono hg

/-- A step that leaves the history and `awake_` as they are. -/
theorem Inv.keep {s t : State} (hI : Inv s) (hawake : t.awake = s.awake) (hran : t.ran = s.ran)
    (hdone : t.doneBy = s.doneBy) {i : Tid} {c : Call} (hcalls : t.calls = s.calls.insert i c)
    (hc : CallOk t c) : Inv t := by
  have hg : Grows s t := ⟨fun _ h => hran ▸ h, fun h => hdone ▸ h⟩
  refine ⟨fun ha => hg.doneBy (hI.awake (hawake ▸ ha)), fun d hd => ?_, hI.insert hg hcalls hc⟩
  rw [hdone] at hd
  exact (hI.backed d hd).mono hg

/-- A call that moves on only gets past `done` when it was there or `awake_` is set. -/
theorem Moves.afterDone {awake : Bool} {p q : Pc} (h : Moves awake p q)
    (hq : q.afterDone = true) : p.afterDone = true ∨ awake = true := by
  cases h with
  | doneLock | woken => exact Or.inl rfl
  | waitAwake ha => exact Or.inr ha
  | waitLeave => exact Or.inl hq
  | _ => exact nomatch hq

/-- No call moves back to where it has `done` still to call. -/
theorem Moves.started {awake : Bool} {p q : Pc} (h : Moves awake p q) :
    q ≠ .before ∧ q ≠ .callDone := by
  cases h <;> exact ⟨Pc.noConfusion, Pc.noConfusion⟩

/-- After `done_.notify_one()`. -/
theorem Inv.notified {s : State} {i : Tid} {c : Call} (hI : Inv s)
    (hi : s.calls.lookup i = some c) (hc : c.pc = .doneNotify) : Inv (s.goto i c .doneUnlock) := by
  have hne : s.doneBy ≠ [] := (hI.calls i c hi).afterDone (by rw [hc]; rfl)
  exact hI.keep rfl rfl rfl rfl ⟨(nomatch ·), (nomatch ·), fun _ => hne⟩

theorem inv_step (s : State) (a : Action) (s' : State) (hI : Inv s) (hC : NoEarlySpurious s a)
    (h : step s a = some s') : Inv s' := by
  cases step_spec h with
  | @enters i op hi =>
    exact hI.keep rfl rfl rfl rfl (callOk_enter _ op s.begun)
  | @runs i c hi hc =>
    have hg : Grows s { s.goto i c .callDone with ran := s.ran ++ [c.id] } :=
      ⟨List.subset_append_left _ _, id⟩
    refine ⟨hI.awake, fun d hd => (hI.backed d hd).mono hg, hI.insert hg rfl ?_⟩
    refine ⟨(nomatch ·), fun _ => Or.inr ⟨(hI.calls i c hi).before hc, ?_⟩, (nomatch ·)⟩
    exact List.mem_append_right _ (List.mem_singleton.mpr rfl)
  | @calls i c hi hc =>
    have hne : s.doneBy ++ [(c.op, c.id)] ≠ [] := List.append_ne_nil_of_right_ne_nil _ (by simp)
    have hg : Grows s { s.goto i c .doneLock with doneBy := s.doneBy ++ [(c.op, c.id)] } :=
      ⟨fun _ h => h, fun _ => hne⟩
    refine ⟨fun _ => hne, fun d hd => ?_, hI.insert hg rfl ?_⟩
    · rcases List.mem_append.mp hd with hd | hd
      · exact (hI.backed d hd).mono hg
      · rw [List.mem_singleton.mp hd]
        exact ((hI.calls i c hi).callDone hc).mono hg
    · exact ⟨(nomatch ·), (nomatch ·), fun _ => hne⟩
  | @sets i c hi hc =>
    have hne : s.doneBy ≠ [] := (hI.calls i c hi).afterDone (by rw [hc]; rfl)
    refine ⟨fun _ => hne, hI.backed, hI.insert ⟨fun _ h => h, id⟩ rfl ?_⟩
    exact ⟨(nomatch ·), (nomatch ·), fun _ => hne⟩
  | @moves i c pc m hi hm =>
    have hc := hI.calls i c hi
    refine hI.keep rfl rfl rfl rfl ?_
    refine ⟨fun h => absurd h hm.started.1, fun h => absurd h hm.started.2, fun hpc => ?_⟩
    rcases hm.afterDone hpc with hp | ha
    · exact hc.afterDone hp
    · exact hI.awake ha
  | @returns i m =>
    refine ⟨hI.awake, hI.backed, fun j d hj => ?_⟩
    obtain ⟨-, hj⟩ := Pool.lookup_erase_some hj
    exact (hI.calls j d hj).mono ⟨fun _ h => h, id⟩
  | @notifies i j c d hi hc hj hd =>
    have hne : s.doneBy ≠ [] := (hI.calls i c hi).afterDone (by rw [hc]; rfl)
    have hI' : Inv (s.goto i c .doneUnlock) := hI.notified hi hc
    exact hI'.keep rfl rfl rfl rfl ⟨(nomatch ·), (nomatch ·), fun _ => hne⟩
  | @notifiesNobody i c hi hc => exact hI.notified hi hc
  | @wakes j d hj hd => exact hI.keep rfl rfl rfl rfl ⟨(nomatch ·), (nomatch ·), fun _ => hC⟩
  | @expires j d hj hd =>
    exact hI.keep rfl rfl rfl rfl ⟨(nomatch ·), (nomatch ·), (nomatch ·)⟩

/-- **Every wake-up reported is real.** When no thread wakes up spuriously before `done` was
called, `wait` returns `no_timeout` only when `done` has been called, by `waker` or after the
`before` of the wrapped function returned. -/
theorem wakes_are_real {as : List Action} {s : State} (hrun : run step init as = some s)
    (hspurious : Along step NoEarlySpurious init as) {j : Tid} {c : Call}
    (hj : s.calls.lookup j = some c) (hret : c.pc = .waitReturn .noTimeout) : s.ReallyDone := by
  have hI : Inv s := run_inv_along inv_step as hrun hspurious inv_init
  exact ⟨(hI.calls j c hj).afterDone (by rw [hret]; rfl), hI.backed⟩

/-- The step of a thread that has a call in progress. -/
theorem step_caller {s : State} {i : Tid} {c : Call} (hi : s.calls.lookup i = some c) :
    step s (.caller i) = callerStep s i c := by
  simp only [step, hi]

/-- A thread that wakes up spuriously before `done` was called, while the mutex is free, can
return `no_timeout` before it is: nothing makes it test `awake_` again. -/
theorem returns_unreal {s s' : State} {j : Tid} (hfree : s.mutex = none) (hnone : s.doneBy = [])
    (h : step s (.spurious j) = some s') : ∃ t d, run step s' [.caller j, .caller j] = some t ∧
      t.calls.lookup j = some d ∧ d.pc = .waitReturn .noTimeout ∧ ¬ t.ReallyDone := by
  obtain ⟨d, hj, hd, rfl⟩ := wake_some h
  have hlock : step (s.goto j d .woken) (.caller j) =
      some { (s.goto j d .woken).goto j { d with pc := .woken } (.waitLeave .noTimeout) with
        mutex := some j } := by
    rw [step_caller (Finmap.lookup_insert _)]
    exact lock_some.mpr ⟨hfree, rfl⟩
  have hleave := step_caller (s := { (s.goto j d .woken).goto j { d with pc := .woken }
    (.waitLeave .noTimeout) with mutex := some j }) (Finmap.lookup_insert _)
  refine ⟨_, _, run_cons_some.mpr ⟨_, hlock, run_cons_some.mpr ⟨_, hleave, rfl⟩⟩,
    Finmap.lookup_insert _, rfl, fun hreal => ?_⟩
  exact hreal.1 hnone

/-- Thread 1 waits and blocks, thread 0 runs the wrapped function and notifies it. -/
def wokenUp : List Action :=
  [.call 1 .wait, .caller 1, .caller 1, .caller 1, .call 0 .wrapped, .caller 0, .caller 0,
    .caller 0, .caller 0, .notify 0 1, .caller 0, .caller 1, .caller 1]

theorem wakes_are_real_demo : ∃ s c, run step init wokenUp = some s ∧
    s.calls.lookup 1 = some c ∧ c.pc = .waitReturn .noTimeout ∧ s.ReallyDone :=
  ⟨_, _, rfl, rfl, rfl, @wakes_are_real wokenUp _ rfl (by decide) 1 _ rfl rfl⟩

/-- Thread 1 waits, blocks, and wakes up spuriously. -/
def wokenByNobody : List Action :=
  [.call 1 .wait, .caller 1, .caller 1, .caller 1, .spurious 1, .caller 1, .caller 1]

theorem wakes_up_unreal : ∃ s c, run step init wokenByNobody = some s ∧
    s.calls.lookup 1 = some c ∧ c.pc = .waitReturn .noTimeout ∧ s.doneBy = [] ∧
      ¬ s.ReallyDone :=
  ⟨_, _, rfl, rfl, rfl, rfl, fun hreal => hreal.1 rfl⟩

end Cor.Mt.Future

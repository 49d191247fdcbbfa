import Cor.Lib.Rank
import Cor.Mt.TaskQueueInv

/-!
# The task queue: every schedule comes to rest

`TaskQueueInv` says what never goes wrong; this file says that the queue gets
anywhere. `State.work` is what the threads have still to do: for the worker the tasks
in the queue and the way from its counter to its sleep or its exit, for a caller the
way to the end of its call and the work its push, its write or its `notify_one` will
make for the worker. Every step lowers it, but for what a new call or a spurious
wake-up brings (`work_paid`).

* `steps_bounded`: a run is linear in the calls and the spurious wake-ups in it, so
  the worker never spins.
* `comes_to_rest`: nobody waits for ever. Left alone, the queue reaches within a
  bounded number of steps a state where all calls have returned and the worker has
  exited, or sleeps with every accepted task executed.
-/

namespace Cor.Mt

open Cor.Lib

/-! ## The worker on its way -/

/-- What the worker knows at its counter: it leaves the loop only when the flag is
cleared, and what it has seen in the queue stays there, as nobody else takes tasks.
So the test under the mutex never finds the queue empty. -/
structure Ahead (s : State) : Prop where
  exited : s.worker = .exited → s.isRunning = false
  seen : s.worker = .processLock ∨ s.worker = .processRecheck ∨ s.worker = .processTake →
    s.tasks ≠ []
  found : s.worker ≠ .processUnlockEmpty

theorem CallerSpec.ahead {s s' : State} {i : Tid} (h : CallerSpec s i s') (hA : Ahead s) :
    Ahead s' := by
  have hw : ∀ w, w ≠ .woken → s'.worker = w → s.worker = w := by
    intro w hne hw'
    rcases h.worker_cases with heq | ⟨-, heq⟩
    · rw [← heq, hw']
    · exact absurd (hw'.symm.trans heq) hne
  refine ⟨fun he => ?_, fun hseen => ?_, fun he => ?_⟩
  · have hr := hA.exited (hw _ (by simp) he)
    rcases h.running with ⟨-, -, hr'⟩ | ⟨-, hr'⟩
    · exact hr'
    · rw [hr', hr]
  · have hne : s.tasks ≠ [] := by
      refine hA.seen ?_
      rcases hseen with hs | hs | hs
      · exact Or.inl (hw _ (by simp) hs)
      · exact Or.inr (Or.inl (hw _ (by simp) hs))
      · exact Or.inr (Or.inr (hw _ (by simp) hs))
    rcases h.queue with ⟨-, -, ht, -⟩ | ⟨-, ht, -⟩
    · rw [ht]; simp
    · rw [ht]; exact hne
  · exact hA.found (hw _ (by simp) he)

theorem workerStep_ahead {s s' : State} (h : workerStep s = some s') (hA : Ahead s) :
    Ahead s' := by
  have hexit : s'.worker = .exited → s'.isRunning = false := by
    intro he
    rw [(workerStep_spec h).frame.1]
    exact ((workerStep_spec h).toExited he).2
  unfold workerStep at h
  cases hw : s.worker <;> simp only [hw] at h
  case processTake =>
    cases ht : s.tasks <;> simp only [ht, Option.some.injEq, reduceCtorEq] at h
    subst h
    exact ⟨hexit, by simp, by simp⟩
  case processUnlockEmpty => exact absurd hw hA.found
  case processRecheck =>
    have hne := hA.seen (Or.inr (Or.inl hw))
    simp only [Option.some.injEq] at h
    subst h
    refine ⟨hexit, fun _ => hne, ?_⟩
    simp [hne]
  case processLock =>
    have hne := hA.seen (Or.inl hw)
    split at h <;> simp only [Option.some.injEq, reduceCtorEq] at h
    subst h
    exact ⟨hexit, fun _ => hne, by simp⟩
  case processCheck =>
    simp only [Option.some.injEq] at h
    subst h
    refine ⟨hexit, ?_, ?_⟩
    · cases ht : s.tasks <;> simp
    · cases ht : s.tasks <;> simp
  all_goals first | split at h | skip
  all_goals simp only [Option.some.injEq, reduceCtorEq] at h
  all_goals subst h
  all_goals refine ⟨hexit, ?_, ?_⟩ <;> simp

/-! ## The work that is left -/

/-- How far the worker is from its sleep or its exit, beyond the seven steps of each
queued task. Where it is about to wait, this depends on whether there is anything to
wait for: with a task in the queue it goes round the loop again. -/
def Worker.phase (empty running : Bool) : Worker → Nat
  | .exited => 0
  | .loopCheck => if running then 6 else 1
  | .processCheck => 5
  | .processLock => 4
  | .processRecheck => 3
  | .processUnlockEmpty => 6
  | .processTake => 2
  | .processUnlock _ => 8
  | .processCall _ => 7
  | .processRun _ => 6
  | .waitLock | .woken => if running && !empty then 9 else 4
  | .waitCheck => if running && !empty then 8 else 3
  | .waitBlock => 1
  | .blocked => if running then if empty then 0 else 9 else 4
  | .waitUnlock => if running then 7 else 2

/-- How far a caller is from the end of its call. The push is dearer by the work of a
task, the write of `stop` and a notification by what the worker does when it wakes. -/
def Caller.phase : Caller → Nat
  | .idle => 0
  | .enqueueCheck => 27
  | .enqueueLock => 26
  | .enqueueRecheck => 25
  | .enqueueRefuse => 2
  | .enqueuePush => 24
  | .enqueueUnlock => 7
  | .enqueueNotify => 6
  | .enqueueReturn _ => 1
  | .stopCheck => 14
  | .stopLock => 13
  | .stopRecheck => 12
  | .stopRefuse => 1
  | .stopWrite => 11
  | .stopUnlock => 6
  | .stopNotify => 5
  | .emptyLock => 3
  | .emptyRead => 2
  | .emptyUnlock _ => 1

/-- The work of the worker: seven steps for each task, and its way to the next test. -/
def State.workerWork (s : State) : Nat :=
  7 * s.tasks.length + s.worker.phase s.tasks.isEmpty s.isRunning

/-- The work of the worker and of the callers `threads`. -/
def State.work (threads : Finset Tid) (s : State) : Nat :=
  s.workerWork + threads.sum fun i => (s.caller i).phase

/-- What the environment pays: a call its steps and those it will make for the
worker, a spurious wake-up the way back to sleep. -/
def Action.price : Action → Nat
  | .call _ .enqueue => 28
  | .call _ .stop => 15
  | .call _ .empty => 4
  | .spurious => 5
  | .caller _ | .worker => 0

/-- A notification wakes the worker at the price of four more steps. -/
theorem notify_phase (w : Worker) (empty running : Bool) :
    w.notify.phase empty running ≤ w.phase empty running + 4 := by
  rcases notify_cases w with hw | ⟨hb, hw⟩
  · rw [hw]; omega
  · rw [hw, hb]
    cases empty <;> cases running <;> simp [Worker.phase]

/-- A task in the queue makes the worker go round the loop once more. -/
theorem push_phase (w : Worker) (empty running : Bool) :
    w.phase false running ≤ w.phase empty running + 9 := by
  cases w <;> cases empty <;> cases running <;> simp [Worker.phase]

/-- The cleared flag gets the worker to its exit. -/
theorem stop_phase (w : Worker) (empty running : Bool) :
    w.phase empty false ≤ w.phase empty running + 4 := by
  cases w <;> cases empty <;> cases running <;> simp [Worker.phase]

/-- **A caller's step is paid for** by what its call has still to do. -/
theorem callerStep_work {s s' : State} {i : Tid} (h : callerStep s i = some s') :
    s'.workerWork + (s'.caller i).phase + 1 ≤ s.workerWork + (s.caller i).phase := by
  unfold callerStep at h
  cases hp : s.caller i <;> simp only [hp, Option.some.injEq, lock_some, reduceCtorEq] at h
  all_goals first | subst h | obtain ⟨hm, rfl⟩ := h
  case enqueuePush =>
    have hphase := push_phase s.worker s.tasks.isEmpty s.isRunning
    have hfull : (s.tasks ++ [s.task i]).isEmpty = false := by simp
    simp [State.workerWork, State.goto, Caller.phase, hfull]
    omega
  case stopWrite =>
    have hphase := stop_phase s.worker s.tasks.isEmpty s.isRunning
    simp [State.workerWork, State.goto, Caller.phase]
    omega
  case enqueueNotify =>
    have hphase := notify_phase s.worker s.tasks.isEmpty s.isRunning
    simp [State.workerWork, State.goto, Caller.phase]
    omega
  case stopNotify =>
    have hphase := notify_phase s.worker s.tasks.isEmpty s.isRunning
    simp [State.workerWork, State.goto, Caller.phase]
    omega
  -- the others do not touch the worker, whichever way a test of the flag goes
  all_goals cases hr : s.isRunning
  all_goals simp [State.workerWork, State.goto, State.unlock, Caller.phase, *]

/-- **A step of the worker** brings it nearer to its sleep or its exit. -/
theorem workerStep_work {s s' : State} (hI : Inv s) (hA : Ahead s) (h : workerStep s = some s') :
    s'.workerWork + 1 ≤ s.workerWork := by
  unfold workerStep at h
  cases hw : s.worker <;> simp only [hw] at h
  case processTake =>
    cases ht : s.tasks <;> simp only [ht, Option.some.injEq, reduceCtorEq] at h
    subst h
    simp [State.workerWork, Worker.phase, hw, ht]
    omega
  case processUnlockEmpty => exact absurd hw hA.found
  case waitBlock =>
    obtain ⟨ht, hr⟩ := hI.blocks hw
    simp only [Option.some.injEq] at h
    subst h
    simp [State.workerWork, Worker.phase, hw, ht, hr]
  case processRecheck =>
    have hne := hA.seen (Or.inr (Or.inl hw))
    simp only [Option.some.injEq] at h
    subst h
    simp [State.workerWork, Worker.phase, hw, hne]
  all_goals first | split at h | skip
  all_goals simp only [Option.some.injEq, reduceCtorEq] at h
  all_goals subst h
  all_goals
    cases ht : s.tasks <;> cases hr : s.isRunning <;> simp_all [State.workerWork, Worker.phase]

/-! ## Runs -/

/-- The threads that enter a member function in the run `as`. -/
def entered (as : List Action) : Finset Tid :=
  (as.filterMap fun | .call i _ => some i | _ => none).toFinset

/-- Only threads of `threads` enter a member function. -/
def Action.Within (threads : Finset Tid) (a : Action) : Prop :=
  ∀ i op, a = .call i op → i ∈ threads

theorem within_entered {as : List Action} : ∀ a ∈ as, a.Within (entered as) := by
  intro a ha i op heq
  subst heq
  rw [entered, List.mem_toFinset, List.mem_filterMap]
  exact ⟨_, ha, rfl⟩

/-- What the states of a run have in common: the invariants, and that nobody but
`threads` is inside a call. -/
structure Going (threads : Finset Tid) (s : State) : Prop where
  inv : Inv s
  ahead : Ahead s
  idle : ∀ i, i ∉ threads → s.caller i = .idle

theorem init_going (threads : Finset Tid) : Going threads init where
  inv := init_inv
  ahead := ⟨by simp [init], by simp [init], by simp [init]⟩
  idle := fun _ _ => rfl

/-- A caller that is not idle is one of the threads. -/
theorem Going.mem {threads : Finset Tid} {s : State} (hG : Going threads s) {i : Tid}
    (hi : s.caller i ≠ .idle) : i ∈ threads := by
  by_contra hno
  exact hi (hG.idle i hno)

theorem callerStep_ne_idle {s s' : State} {i : Tid} (h : callerStep s i = some s') :
    s.caller i ≠ .idle := by
  intro hidle
  simp only [callerStep, hidle, reduceCtorEq] at h

/-- A caller's step leaves the other callers where they are. -/
theorem Going.callers {threads : Finset Tid} {s s' : State} {i : Tid} (hG : Going threads s)
    (hi : i ∈ threads) (hc : CallerSpec s i s') : Going threads s' where
  inv := hc.inv hG.inv
  ahead := hc.ahead hG.ahead
  idle := fun j hj => by
    have hji : j ≠ i := fun heq => hj (heq ▸ hi)
    rw [(hc.other j hji).1]
    exact hG.idle j hj

theorem going_step {threads : Finset Tid} (s : State) (a : Action) (s' : State)
    (hG : Going threads s) (ha : a.Within threads) (h : step s a = some s') :
    Going threads s' := by
  cases a with
  | call i op =>
    simp only [step, Option.ite_none_right_eq_some, Option.some.injEq] at h
    obtain ⟨hi, rfl⟩ := h
    exact hG.callers (ha i op rfl) (call_spec hi)
  | caller i => exact hG.callers (hG.mem (callerStep_ne_idle h)) (callerStep_spec h)
  | worker =>
    have hw : WorkerSpec s s' := workerStep_spec h
    exact ⟨hw.inv hG.inv, workerStep_ahead h hG.ahead,
      fun i hi => by rw [hw.frame.2.1]; exact hG.idle i hi⟩
  | spurious =>
    simp only [step, Option.ite_none_right_eq_some, Option.some.injEq] at h
    obtain ⟨hw, rfl⟩ := h
    exact ⟨(spurious_spec hw).inv hG.inv, ⟨by simp, by simp, by simp⟩, hG.idle⟩

/-- **Every move is paid for.** -/
theorem work_paid (threads : Finset Tid) :
    Paid step (Going threads) (Action.Within threads) (State.work threads) Action.price where
  keeps := going_step
  pays := by
    intro s a s' hG ha h
    cases a with
    | call i op =>
      simp only [step, Option.ite_none_right_eq_some, Option.some.injEq] at h
      obtain ⟨hi, rfl⟩ := h
      have hspec : CallerSpec s i (s.goto i op.entry) := call_spec hi
      have hsum := sum_moved (f := fun j => (s.caller j).phase)
        (g := fun j => ((s.goto i op.entry).caller j).phase) (ha i op rfl)
        fun j hj => by rw [(hspec.other j hj).1]
      have hwork : (s.goto i op.entry).workerWork = s.workerWork := rfl
      have hself : (s.goto i op.entry).caller i = op.entry := Function.update_self ..
      simp only [hi, hself] at hsum
      unfold State.work
      rw [hwork]
      cases op <;> simp only [Op.entry, Caller.phase, Action.price] at hsum ⊢ <;> omega
    | caller i =>
      have hc : CallerSpec s i s' := callerStep_spec h
      have hsum := sum_moved (f := fun j => (s.caller j).phase)
        (g := fun j => (s'.caller j).phase) (hG.mem (callerStep_ne_idle h))
        fun j hj => by rw [(hc.other j hj).1]
      have hpay := callerStep_work h
      simp only [State.work, Action.price]
      omega
    | worker =>
      have hpay := workerStep_work hG.inv hG.ahead h
      simp only [State.work, Action.price, (workerStep_spec h).frame.2.1]
      omega
    | spurious =>
      simp only [step, Option.ite_none_right_eq_some, Option.some.injEq] at h
      obtain ⟨hw, rfl⟩ := h
      cases hr : s.isRunning <;> cases ht : s.tasks <;>
        simp [State.work, State.workerWork, Action.price, Worker.phase, hw, hr, ht]
      omega

/-- **The worker never spins.** A run is no longer than what its calls and spurious
wake-ups pay for: 28 steps for a call of `enqueue`, 15 for one of `stop`, 4 for one of
`empty`, 5 for a spurious wake-up, and 6 of the worker on its way to the first sleep. -/
theorem steps_bounded {as : List Action} {s : State} (h : run step init as = some s) :
    as.length ≤ 6 + (as.map Action.price).sum := by
  have hpaid := ((work_paid (entered as)).run_paid as h within_entered (init_going _)).2
  have hinit : State.work (entered as) init = 6 := by
    simp [State.work, State.workerWork, init, Caller.phase, Worker.phase]
  omega

/-- The worker goes to sleep, wakes up for no reason, and sleeps again; then thread 0
enqueues a task and the worker executes it. -/
def sleepyRun : List Action :=
  [.worker, .worker, .worker, .worker, .worker, .spurious, .worker, .worker, .worker,
   .call 0 .enqueue, .caller 0, .caller 0, .caller 0, .caller 0, .caller 0, .caller 0,
   .caller 0, .worker, .worker, .worker, .worker, .worker, .worker, .worker, .worker,
   .worker, .worker, .worker]

theorem steps_bounded_sleepy : sleepyRun.length = 28 ∧
    sleepyRun.length ≤ 6 + (sleepyRun.map Action.price).sum :=
  ⟨rfl, steps_bounded (show run step init sleepyRun = some _ from rfl)⟩

/-! ## Rest -/

/-- The steps the threads take of themselves, inside the calls already made. -/
def Action.Own (a : Action) : Prop :=
  a = .worker ∨ ∃ i, a = .caller i

/-- All calls have returned, the mutex is free, and the worker has exited after a
`stop`, or sleeps with every accepted task executed. -/
structure AtRest (s : State) : Prop where
  idle : ∀ i, s.caller i = .idle
  free : s.mutex = none
  worker : (s.worker = .exited ∧ s.isRunning = false) ∨
    (s.worker = .blocked ∧ s.isRunning = true ∧ s.finished = s.accepted)

/-- Whoever holds the mutex can go on. -/
theorem callerStep_of_holds {s : State} {i : Tid} (hh : (s.caller i).holds = true) :
    callerStep s i ≠ none := by
  unfold callerStep
  cases hc : s.caller i <;> simp [hc, Caller.holds] at hh ⊢

theorem workerStep_of_holds {s : State} (hA : Ahead s) (hh : s.worker.holds = true) :
    workerStep s ≠ none := by
  unfold workerStep
  cases hw : s.worker <;> simp [hw, Worker.holds] at hh ⊢
  have hne := hA.seen (Or.inr (Or.inr hw))
  cases ht : s.tasks with
  | nil => exact absurd ht hne
  | cons t rest => simp

/-- With the mutex free, every call goes on, and so does the worker unless it sleeps or
has exited. -/
theorem callerStep_of_free {s : State} {i : Tid} (hm : s.mutex = none)
    (hi : s.caller i ≠ .idle) : callerStep s i ≠ none := by
  unfold callerStep State.lock
  cases hc : s.caller i <;> simp [hm, hc] at hi ⊢

theorem workerStep_of_free {s : State} (hA : Ahead s) (hm : s.mutex = none)
    (hw : s.worker ≠ .blocked) (he : s.worker ≠ .exited) : workerStep s ≠ none := by
  unfold workerStep
  cases hs : s.worker <;> simp [hm, hs] at hw he ⊢
  have hne := hA.seen (Or.inr (Or.inr hs))
  cases ht : s.tasks with
  | nil => exact absurd ht hne
  | cons t rest => simp

/-- **Nobody waits for ever.** Where no thread can go on by itself, the queue is at
rest. -/
theorem stuck_iff_atRest {s : State} (hI : Inv s) (hA : Ahead s) :
    Stuck step Action.Own s ↔ AtRest s := by
  constructor
  · intro hstuck
    have hcaller : ∀ i, callerStep s i = none := fun i => hstuck (.caller i) (Or.inr ⟨i, rfl⟩)
    have hworker : workerStep s = none := hstuck .worker (Or.inl rfl)
    -- the holder of the mutex could go on
    have hm : s.mutex = none := by
      cases hm : s.mutex with
      | none => rfl
      | some o =>
        cases o with
        | worker => exact absurd hworker (workerStep_of_holds hA (hI.excl.worker.mpr hm))
        | caller i => exact absurd (hcaller i) (callerStep_of_holds ((hI.excl.caller i).mpr hm))
    have hidle : ∀ i, s.caller i = .idle := by
      intro i
      by_contra hi
      exact callerStep_of_free hm hi (hcaller i)
    refine ⟨hidle, hm, ?_⟩
    by_cases he : s.worker = .exited
    · exact Or.inl ⟨he, hA.exited he⟩
    have hb : s.worker = .blocked := by
      by_contra hb
      exact workerStep_of_free hA hm hb he hworker
    obtain ⟨htasks, hr⟩ : s.tasks = [] ∧ s.isRunning = true := by
      rcases hI.wakes hb with hq | ⟨i, hi⟩
      · exact hq
      · rw [hidle i] at hi
        exact absurd hi (by simp [Caller.owesNotify])
    obtain ⟨htaken, hstarted⟩ := hI.order
    rw [hb] at htaken hstarted
    refine Or.inr ⟨hb, hr, ?_⟩
    rw [hI.split, htasks, htaken, hstarted]
    simp [Worker.inHand, Worker.inRun]
  · rintro ⟨hidle, -, hworker⟩ a ha
    rcases ha with rfl | ⟨i, rfl⟩
    · show workerStep s = none
      rcases hworker with ⟨he, -⟩ | ⟨hb, -, -⟩
      · rw [workerStep, he]
      · rw [workerStep, hb]
    · show callerStep s i = none
      rw [callerStep, hidle i]

/-- **Every schedule comes to rest.** From every reachable state, however the threads
are scheduled, they stop within a bounded number of steps; they stop only at rest, and
whatever has been scheduled so far, they can go on to it. -/
theorem comes_to_rest {s : State} (h : Reachable step init s) :
    ∃ n, ∀ as s', (∀ a ∈ as, a.Own) → run step s as = some s' →
      as.length ≤ n ∧ (Stuck step Action.Own s' ↔ AtRest s') ∧
      ∃ bs s'', (∀ b ∈ bs, b.Own) ∧ run step s' bs = some s'' ∧ AtRest s'' := by
  obtain ⟨pre, hpre⟩ := h
  have hG : Going (entered pre) s :=
    ((work_paid (entered pre)).run_paid pre hpre within_entered (init_going _)).1
  -- a step of their own is within any threads, and free
  have hwithin : ∀ a : Action, a.Own → a.Within (entered pre) := by
    rintro a (rfl | ⟨i, rfl⟩) j op heq <;> cases heq
  have hpaid : Paid step (Going (entered pre)) Action.Own (State.work (entered pre))
      Action.price :=
    ⟨fun s a s' hG ha => going_step s a s' hG (hwithin a ha),
      fun s a s' hG ha => (work_paid (entered pre)).pays s a s' hG (hwithin a ha)⟩
  have hfree : ∀ a : Action, a.Own → a.price = 0 := by
    rintro a (rfl | ⟨i, rfl⟩) <;> rfl
  refine ⟨s.work (entered pre), fun as s' hown hrun => ?_⟩
  have hG' : Going (entered pre) s' := (hpaid.run_paid as hrun hown hG).1
  refine ⟨hpaid.run_free hfree hrun hown hG, stuck_iff_atRest hG'.inv hG'.ahead, ?_⟩
  obtain ⟨bs, s'', hrun', hown', hstuck⟩ := hpaid.exists_stuck hfree hG'
  have hG'' : Going (entered pre) s'' := (hpaid.run_paid bs hrun' hown' hG').1
  exact ⟨bs, s'', hown', hrun', (stuck_iff_atRest hG''.inv hG''.ahead).mp hstuck⟩

theorem comes_to_rest_sleepy : ∃ s, run step init sleepyRun = some s ∧
    ∃ n, ∀ as s', (∀ a ∈ as, a.Own) → run step s as = some s' →
      as.length ≤ n ∧ (Stuck step Action.Own s' ↔ AtRest s') ∧
      ∃ bs s'', (∀ b ∈ bs, b.Own) ∧ run step s' bs = some s'' ∧ AtRest s'' :=
  ⟨_, rfl, comes_to_rest ⟨sleepyRun, rfl⟩⟩

end Cor.Mt

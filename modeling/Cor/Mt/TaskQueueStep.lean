import Cor.Mt.TaskQueue

/-!
# What one step of the task queue can do

The inversion lemmas of `callerStep` and `workerStep`, one for each group of
fields: who can touch the fields at all, and at which program counter. Every
invariant of `TaskQueueInv` is derived from these and never unfolds the step
functions again, so a change to one member function of `TaskQueueImpl` is a
change to this file.
-/

namespace Cor.Mt

/-- The counters at which a caller holds the mutex. -/
def Caller.holds : Caller → Bool
  | .enqueueRecheck | .enqueueRefuse | .enqueuePush | .enqueueUnlock => true
  | .stopRecheck | .stopRefuse | .stopWrite | .stopUnlock => true
  | .emptyRead | .emptyUnlock _ => true
  | _ => false

/-- The counters at which the worker holds the mutex. -/
def Worker.holds : Worker → Bool
  | .processRecheck | .processUnlockEmpty | .processTake | .processUnlock _ => true
  | .waitCheck | .waitBlock | .waitUnlock => true
  | _ => false

/-- The call of `enqueue` has pushed its task and has not returned yet. -/
def Caller.pushed : Caller → Bool
  | .enqueueUnlock | .enqueueNotify | .enqueueReturn true => true
  | _ => false

/-- The thread is between its locked change of `tasks_` or `is_running_` and its
call of `notify_one`. -/
def Caller.owesNotify : Caller → Bool
  | .enqueueUnlock | .enqueueNotify | .stopUnlock | .stopNotify => true
  | _ => false

/-- The worker is inside `process` and will test `tasks_.size()` again before it
leaves it. -/
def Worker.draining : Worker → Bool
  | .processCheck | .processLock | .processRecheck | .processUnlockEmpty => true
  | .processTake | .processUnlock _ | .processCall _ | .processRun _ => true
  | _ => false

/-- The task the worker has taken and not started. -/
def Worker.inHand : Worker → List Task
  | .processUnlock t | .processCall t => [t]
  | _ => []

/-- The task the worker is executing. -/
def Worker.inRun : Worker → List Task
  | .processRun t => [t]
  | _ => []

theorem notify_ne_blocked (w : Worker) : w.notify ≠ .blocked := by
  cases w <;> simp [Worker.notify]

/-- `notify_one` wakes a blocked worker and leaves any other alone. -/
theorem notify_cases (w : Worker) :
    w.notify = w ∨ (w = .blocked ∧ w.notify = .woken) := by
  cases w <;> simp [Worker.notify]

theorem lock_some {s s' : State} {i : Tid} {c : Caller} :
    s.lock i c = some s' ↔
      s.mutex = none ∧ { s.goto i c with mutex := some (.caller i) } = s' := by
  unfold State.lock
  split <;> simp_all

/-- What a step of caller `i` does, field by field. -/
structure CallerSpec (s : State) (i : Tid) (s' : State) : Prop where
  /-- Nothing of the worker's history and of the other threads changes. -/
  frame : s'.taken = s.taken ∧ s'.started = s.started ∧ s'.finished = s.finished
  other : ∀ j, j ≠ i → s'.caller j = s.caller j ∧ s'.calls j = s.calls j
  /-- The queue grows at the push and nowhere else. -/
  queue :
    (s.caller i = .enqueuePush ∧ s'.caller i = .enqueueUnlock ∧
      s'.tasks = s.tasks ++ [s.task i] ∧ s'.accepted = s.accepted ++ [s.task i]) ∨
    (s.caller i ≠ .enqueuePush ∧ s'.tasks = s.tasks ∧ s'.accepted = s.accepted)
  /-- The flag is cleared at the write of `stop` and nowhere else. -/
  running :
    (s.caller i = .stopWrite ∧ s'.caller i = .stopUnlock ∧ s'.isRunning = false) ∨
    (s.caller i ≠ .stopWrite ∧ s'.isRunning = s.isRunning)
  /-- The mutex is left alone, taken when it is free, or released by its holder. -/
  mutex :
    (s'.mutex = s.mutex ∧ (s'.caller i).holds = (s.caller i).holds) ∨
    (s.mutex = none ∧ s'.mutex = some (.caller i) ∧ (s'.caller i).holds = true) ∨
    ((s.caller i).holds = true ∧ s'.mutex = none ∧ (s'.caller i).holds = false)
  /-- A caller touches the worker only by `notify_one`, and owes it until then. -/
  worker :
    s'.worker = s.worker.notify ∨
    (s'.worker = s.worker ∧ ((s.caller i).owesNotify = true → (s'.caller i).owesNotify = true))
  /-- The push and the write are reached only from the test under the mutex. -/
  toPush : s'.caller i = .enqueuePush → (s.caller i).holds = true ∧ s.isRunning = true
  /-- A call of `enqueue` ends by recording its answer. Every other step leaves the
  record alone, and only the push changes whether the task is pushed. -/
  answers :
    (∃ r, s.caller i = .enqueueReturn r ∧ s'.caller i = .idle ∧
      s'.calls i = s.calls i + 1 ∧ s'.answers = s.answers ++ [(s.task i, r)]) ∨
    (s'.calls i = s.calls i ∧ s'.answers = s.answers ∧
      (s.caller i ≠ .enqueuePush → (s'.caller i).pushed = (s.caller i).pushed))

theorem callerStep_spec {s s' : State} {i : Tid} (h : callerStep s i = some s') :
    CallerSpec s i s' := by
  unfold callerStep at h
  cases hp : s.caller i <;> simp only [hp, Option.some.injEq, lock_some, reduceCtorEq] at h
  all_goals first | subst h | obtain ⟨hm, rfl⟩ := h
  all_goals
    constructor <;>
      simp +contextual [State.goto, State.unlock, Caller.holds, Caller.owesNotify,
        Caller.pushed, *]
  -- what is left are the two outcomes of a test of the flag
  all_goals cases hr : s.isRunning <;> simp

/-- What a step of the worker does, field by field. -/
structure WorkerSpec (s s' : State) : Prop where
  frame : s'.isRunning = s.isRunning ∧ s'.caller = s.caller ∧ s'.calls = s.calls ∧
    s'.accepted = s.accepted ∧ s'.answers = s.answers
  /-- The queue shrinks, from the front, where the worker takes a task. -/
  queue :
    (∃ t, s.worker = .processTake ∧ s'.worker = .processUnlock t ∧
      s.tasks = t :: s'.tasks ∧ s'.taken = s.taken ++ [t]) ∨
    (s.worker ≠ .processTake ∧ s'.tasks = s.tasks ∧ s'.taken = s.taken)
  mutex :
    (s'.mutex = s.mutex ∧ s'.worker.holds = s.worker.holds) ∨
    (s.mutex = none ∧ s'.mutex = some .worker ∧ s'.worker.holds = true) ∨
    (s.worker.holds = true ∧ s'.mutex = none ∧ s'.worker.holds = false)
  /-- A task goes from the worker's hand into execution and from there to the
  finished ones. -/
  order : s.taken = s.started ++ s.worker.inHand ∧ s.started = s.finished ++ s.worker.inRun →
    s'.taken = s'.started ++ s'.worker.inHand ∧ s'.started = s'.finished ++ s'.worker.inRun
  /-- The worker goes to sleep only from the predicate, and not while there is
  something to do. -/
  toTake : s'.worker = .processTake → s.tasks ≠ []
  toBlock : s'.worker = .waitBlock → s.worker = .waitCheck ∧ s.tasks = [] ∧ s.isRunning = true
  toBlocked : s'.worker = .blocked → s.worker = .waitBlock
  toExited : s'.worker = .exited → s.worker.draining = false ∧ s.isRunning = false
  /-- `process` is left only with the queue empty, and entered only while running. -/
  leaves : s.worker.draining = true → s'.worker.draining = true ∨ s.tasks = []
  enters : s.worker.draining = false → s'.worker.draining = true → s.isRunning = true

theorem workerStep_spec {s s' : State} (h : workerStep s = some s') : WorkerSpec s s' := by
  unfold workerStep at h
  cases hw : s.worker <;> simp only [hw] at h
  case processTake =>
    cases ht : s.tasks <;> simp only [ht, Option.some.injEq, reduceCtorEq] at h
    subst h
    constructor <;> simp_all [Worker.holds, Worker.inHand, Worker.inRun, Worker.draining]
  all_goals first | split at h | skip
  all_goals simp only [Option.some.injEq, reduceCtorEq] at h
  all_goals subst h
  all_goals
    constructor <;> simp_all [Worker.holds, Worker.inHand, Worker.inRun, Worker.draining]

/-- The answer of `empty` is what the read under the mutex has seen. -/
theorem callerStep_emptyUnlock {s s' : State} {i : Tid} {r : Bool}
    (h : callerStep s i = some s') (hr : s'.caller i = .emptyUnlock r) :
    s.caller i = .emptyRead ∧ r = s.tasks.isEmpty ∧ s'.tasks = s.tasks ∧ s'.worker = s.worker := by
  unfold callerStep at h
  cases hp : s.caller i <;> simp only [hp, Option.some.injEq, lock_some, reduceCtorEq] at h
  all_goals first | subst h | obtain ⟨hm, rfl⟩ := h
  case emptyRead =>
    simp only [State.goto, Function.update_self, Caller.emptyUnlock.injEq] at hr
    exact ⟨rfl, hr.symm, rfl, rfl⟩
  -- every other step leads elsewhere, a test of the flag included
  all_goals
    simp only [State.goto, State.unlock, Function.update_self, reduceCtorEq] at hr
    try (split at hr <;> simp only [reduceCtorEq] at hr)

/-- The worker gets a task in hand only where it takes one from the queue. -/
theorem workerStep_hands {s s' : State} (h : workerStep s = some s')
    (hw : s.worker ≠ .processTake) (hh : s.worker.inHand = []) (hr : s.worker.inRun = []) :
    s'.worker.inHand = [] ∧ s'.worker.inRun = [] := by
  unfold workerStep at h
  cases hs : s.worker <;> simp only [hs, Worker.inHand, Worker.inRun, reduceCtorEq] at hh hr
  case processTake => exact absurd hs hw
  all_goals simp only [hs] at h
  all_goals first | split at h | skip
  all_goals simp only [Option.some.injEq, reduceCtorEq] at h
  all_goals subst h
  all_goals exact ⟨rfl, rfl⟩

/-- Entering a member function is a step like any other: the thread was idle. -/
theorem call_spec {s : State} {i : Tid} {op : Op} (hi : s.caller i = .idle) :
    CallerSpec s i (s.goto i op.entry) := by
  cases op <;> constructor <;>
    simp +contextual [State.goto, Op.entry, Caller.holds, Caller.owesNotify, Caller.pushed, hi]

/-- A spurious wake-up is a step of the worker. -/
theorem spurious_spec {s : State} (hw : s.worker = .blocked) :
    WorkerSpec s { s with worker := .woken } := by
  constructor <;> simp_all [Worker.holds, Worker.inHand, Worker.inRun, Worker.draining]

/-- Every move of the system is a step of one caller or of the worker. -/
theorem step_cases {s s' : State} {a : Action} (h : step s a = some s') :
    (∃ i, (a = .caller i ∨ s.caller i = .idle) ∧ CallerSpec s i s') ∨ WorkerSpec s s' := by
  cases a with
  | call i op =>
    simp only [step, Option.ite_none_right_eq_some, Option.some.injEq] at h
    obtain ⟨hi, rfl⟩ := h
    exact Or.inl ⟨i, Or.inr hi, call_spec hi⟩
  | caller i => exact Or.inl ⟨i, Or.inl rfl, callerStep_spec h⟩
  | worker => exact Or.inr (workerStep_spec h)
  | spurious =>
    simp only [step, Option.ite_none_right_eq_some, Option.some.injEq] at h
    obtain ⟨hw, rfl⟩ := h
    exact Or.inr (spurious_spec hw)

end Cor.Mt

import Cor.Lib.Linearize
import Cor.Mt.TaskQueueInv

/-!
# The task queue is an atomic queue

What a `TaskQueue` is for, said without its mutex, its condition variable and its
unlocked reads: a queue with a flag, `Queue`, whose operations happen one at a time.
`enqueue` is accepted until the first `stop`, `empty` says whether the queue is empty,
and the worker takes tasks from the front.

The calls of the source overlap and read `is_running_` outside the mutex. `linearizable`
says that nobody can tell: whatever the interleaving, the calls have answered as the
atomic queue does in some order of the calls that keeps to their order in time.

The effect of a call is at one access. A call that is refused, or that finds the flag
already cleared, takes effect at the read that says so, under the mutex or not: the flag
is never set again. All others take effect under the mutex. That a call at the push still
finds the flag set is part of `Inv`.
-/

namespace Cor.Mt

open Cor.Lib

/-- The operations of the atomic queue; `take` is the worker's. -/
inductive QueueOp
  | enqueue (t : Task)
  | stop
  | empty
  | take
deriving DecidableEq, Repr

inductive Answer
  | accepted (b : Bool)
  | stopped
  | isEmpty (b : Bool)
  | taken (t : Option Task)
deriving DecidableEq, Repr

/-- The queue as its users think of it. -/
structure Queue where
  running : Bool
  tasks : List Task
deriving DecidableEq, Repr

/-- The queue does one operation: its answer, and the queue afterwards. -/
def Queue.apply (q : Queue) : QueueOp → Answer × Queue
  | .enqueue t =>
    if q.running then (.accepted true, { q with tasks := q.tasks ++ [t] })
    else (.accepted false, q)
  | .stop => (.stopped, { q with running := false })
  | .empty => (.isEmpty q.tasks.isEmpty, q)
  | .take =>
    match q.tasks with
    | [] => (.taken none, q)
    | t :: ts => (.taken (some t), { q with tasks := ts })

/-! ## What is seen of a run -/

abbrev QueueEvent := Event Owner QueueOp Answer
abbrev QueueMark := Mark Owner QueueOp Answer

/-- The operation that a call of a member function is. -/
def Op.asked (t : Task) : Op → QueueOp
  | .enqueue => .enqueue t
  | .stop => .stop
  | .empty => .empty

/-- What is seen of a caller at `c` that takes its next step: a return. -/
def callerEvents (s : State) (i : Tid) : Caller → List QueueEvent
  | .enqueueReturn r => [.answer (.caller i) (.accepted r)]
  | .stopCheck => if s.isRunning then [] else [.answer (.caller i) .stopped]
  | .stopRefuse => [.answer (.caller i) .stopped]
  | .stopNotify => [.answer (.caller i) .stopped]
  | .emptyUnlock r => [.answer (.caller i) (.isEmpty r)]
  | _ => []

/-- What is seen of the worker: it takes a task, and has one to run. -/
def workerEvents : Worker → List QueueEvent
  | .processTake => [.invoke .worker .take]
  | .processCall t => [.answer .worker (.taken (some t))]
  | _ => []

/-- What is seen of a step. -/
def queueEvents (s : State) : Action → List QueueEvent
  | .call i op => [.invoke (.caller i) (op.asked (s.task i))]
  | .caller i => callerEvents s i (s.caller i)
  | .worker => workerEvents s.worker
  | .spurious => []

/-- The atomic queue that the members of `TaskQueueImpl` are. -/
def State.queue (s : State) : Queue := ⟨s.isRunning, s.tasks⟩

/-! ## Where the calls take effect -/

/-- How far the call of a caller is, which brings the task `t` if it is of `enqueue`. -/
def Caller.callPhase (t : Task) : Caller → Phase QueueOp Answer
  | .idle => .idle
  | .enqueueCheck | .enqueueLock | .enqueueRecheck | .enqueuePush => .called (.enqueue t)
  | .enqueueRefuse => .done (.accepted false)
  | .enqueueUnlock | .enqueueNotify => .done (.accepted true)
  | .enqueueReturn r => .done (.accepted r)
  | .stopCheck | .stopLock | .stopRecheck | .stopWrite => .called .stop
  | .stopRefuse | .stopUnlock | .stopNotify => .done .stopped
  | .emptyLock | .emptyRead => .called .empty
  | .emptyUnlock r => .done (.isEmpty r)

def Worker.callPhase : Worker → Phase QueueOp Answer
  | .processUnlock t | .processCall t => .done (.taken (some t))
  | _ => .idle

def State.callPhase (s : State) : Owner → Phase QueueOp Answer
  | .caller i => (s.caller i).callPhase (s.task i)
  | .worker => s.worker.callPhase

/-- The return of a caller at `c`, and the effect that its call takes in the step. -/
def callerMarks (s : State) (i : Tid) : Caller → List QueueMark
  | .enqueueCheck | .enqueueRecheck =>
    if s.isRunning then [] else [.effect (.caller i) (.enqueue (s.task i)) (.accepted false)]
  | .enqueuePush => [.effect (.caller i) (.enqueue (s.task i)) (.accepted true)]
  | .enqueueReturn r => [.answer (.caller i) (.accepted r)]
  | .stopCheck =>
    if s.isRunning then []
    else [.effect (.caller i) .stop .stopped, .answer (.caller i) .stopped]
  | .stopRecheck => if s.isRunning then [] else [.effect (.caller i) .stop .stopped]
  | .stopWrite => [.effect (.caller i) .stop .stopped]
  | .stopRefuse | .stopNotify => [.answer (.caller i) .stopped]
  | .emptyRead => [.effect (.caller i) .empty (.isEmpty s.tasks.isEmpty)]
  | .emptyUnlock r => [.answer (.caller i) (.isEmpty r)]
  | _ => []

def workerMarks (s : State) : Worker → List QueueMark
  | .processTake => [.invoke .worker .take, .effect .worker .take (s.queue.apply .take).1]
  | .processCall t => [.answer .worker (.taken (some t))]
  | _ => []

/-- The events of a step, and the effects that calls take in it. -/
def queueMarks (s : State) : Action → List QueueMark
  | .call i op => [.invoke (.caller i) (op.asked (s.task i))]
  | .caller i => callerMarks s i (s.caller i)
  | .worker => workerMarks s s.worker
  | .spurious => []

theorem history_queueMarks (s : State) (a : Action) :
    history (queueMarks s a) = queueEvents s a := by
  cases a with
  | call i op => rfl
  | caller i =>
    unfold queueMarks queueEvents callerMarks callerEvents
    dsimp only
    cases s.caller i <;> cases s.isRunning <;> rfl
  | worker =>
    unfold queueMarks queueEvents
    dsimp only
    cases s.worker <;> rfl
  | spurious => rfl

/-! ## One step -/

section Steps

variable {s s' : State} {i : Tid} {c : Caller}

/-- Thread `i` moves to `c`; for the calls of the others the step is none. -/
structure Moves (s : State) (i : Tid) (c : Caller) (s' : State) : Prop where
  caller : s'.caller = Function.update s.caller i c
  calls : ∀ j, j ≠ i → s'.calls j = s.calls j
  worker : s'.worker.callPhase = s.worker.callPhase

theorem Moves.callPhase (h : Moves s i c s') :
    s'.callPhase = Function.update s.callPhase (.caller i) (c.callPhase (s'.task i)) := by
  funext o
  cases o with
  | worker => exact h.worker
  | caller j =>
    by_cases hji : j = i
    · subst hji
      rw [Function.update_self]
      show (s'.caller j).callPhase _ = _
      rw [h.caller, Function.update_self]
    · have hne : Owner.caller j ≠ .caller i := by
        intro heq
        injection heq with heq
        exact hji heq
      rw [Function.update_of_ne hne]
      show (s'.caller j).callPhase (j, s'.calls j) = (s.caller j).callPhase (j, s.calls j)
      rw [h.caller, Function.update_of_ne hji, h.calls j hji]

/-- A step within a call. -/
theorem Moves.silent (h : Moves s i c s') (hq : s'.queue = s.queue)
    (hc : c.callPhase (s'.task i) = s.callPhase (.caller i)) :
    Marks Queue.apply s.queue s.callPhase [] s'.queue s'.callPhase := by
  rw [hq, h.callPhase, hc, Function.update_eq_self]
  exact .nil

/-- A step at which a call takes effect. -/
theorem Moves.effect {o : QueueOp} {r : Answer} (h : Moves s i c s')
    (hi : s.callPhase (.caller i) = .called o) (hq : s.queue.apply o = (r, s'.queue))
    (hc : c.callPhase (s'.task i) = .done r) :
    Marks Queue.apply s.queue s.callPhase [.effect (.caller i) o r] s'.queue s'.callPhase := by
  have hr : r = (s.queue.apply o).1 := by rw [hq]
  have hq' : s'.queue = (s.queue.apply o).2 := by rw [hq]
  rw [h.callPhase, hc, hq', hr]
  exact .effect hi .nil

/-- A return. -/
theorem Moves.answer {r : Answer} (h : Moves s i .idle s') (hq : s'.queue = s.queue)
    (hi : s.callPhase (.caller i) = .done r) :
    Marks Queue.apply s.queue s.callPhase [.answer (.caller i) r] s'.queue s'.callPhase := by
  rw [h.callPhase, hq]
  exact .answer hi .nil

theorem notify_callPhase (w : Worker) : w.notify.callPhase = w.callPhase := by
  cases w <;> rfl

theorem goto_moves (s : State) (i : Tid) (c : Caller) : Moves s i c (s.goto i c) :=
  ⟨rfl, fun _ _ => rfl, rfl⟩

theorem unlock_moves (s : State) (i : Tid) (c : Caller) : Moves s i c (s.unlock i c) :=
  ⟨rfl, fun _ _ => rfl, rfl⟩

/-- To take the mutex is a step within a call. -/
theorem lock_silent (h : s.lock i c = some s')
    (hc : c.callPhase (s.task i) = s.callPhase (.caller i)) :
    Marks Queue.apply s.queue s.callPhase [] s'.queue s'.callPhase := by
  obtain ⟨hm, rfl⟩ := lock_some.mp h
  have hmoves : Moves s i c { s.goto i c with mutex := some (.caller i) } :=
    ⟨rfl, fun _ _ => rfl, rfl⟩
  exact hmoves.silent rfl hc

/-- `enqueue` with the flag cleared leaves the queue as it is. -/
theorem apply_enqueue_refused {t : Task} (hr : s.isRunning = false) :
    s.queue.apply (.enqueue t) = (.accepted false, s.queue) := by
  show Queue.apply ⟨s.isRunning, s.tasks⟩ _ = (_, ⟨s.isRunning, s.tasks⟩)
  rw [hr]
  rfl

/-- So does `stop`. -/
theorem apply_stop_stopped (hr : s.isRunning = false) :
    s.queue.apply .stop = (.stopped, s.queue) := by
  show Queue.apply ⟨s.isRunning, s.tasks⟩ _ = (_, ⟨s.isRunning, s.tasks⟩)
  rw [hr]
  rfl

theorem callerStep_marks (hI : Inv s) (h : callerStep s i = some s') :
    Marks Queue.apply s.queue s.callPhase (callerMarks s i (s.caller i)) s'.queue s'.callPhase := by
  have hphase : s.callPhase (.caller i) = (s.caller i).callPhase (s.task i) := rfl
  unfold callerStep at h
  unfold callerMarks
  cases hc : s.caller i with
  | idle => rw [hc] at h; cases h
  | enqueueCheck =>
    rw [hc] at h hphase
    injection h with h
    subst h
    cases hr : s.isRunning with
    | true => exact (goto_moves s i _).silent rfl hphase.symm
    | false => exact (goto_moves s i _).effect hphase (apply_enqueue_refused hr) rfl
  | enqueueLock =>
    rw [hc] at h hphase
    exact lock_silent h hphase.symm
  | enqueueRecheck =>
    rw [hc] at h hphase
    injection h with h
    subst h
    cases hr : s.isRunning with
    | true => exact (goto_moves s i _).silent rfl hphase.symm
    | false => exact (goto_moves s i _).effect hphase (apply_enqueue_refused hr) rfl
  | enqueueRefuse =>
    rw [hc] at h hphase
    injection h with h
    subst h
    exact (unlock_moves s i _).silent rfl hphase.symm
  | enqueuePush =>
    rw [hc] at h hphase
    injection h with h
    subst h
    have hr : s.isRunning = true := hI.pushes i hc
    have hmoves : Moves s i .enqueueUnlock { s.goto i .enqueueUnlock with
        tasks := s.tasks ++ [s.task i], accepted := s.accepted ++ [s.task i] } :=
      ⟨rfl, fun _ _ => rfl, rfl⟩
    refine hmoves.effect hphase ?_ rfl
    show Queue.apply ⟨s.isRunning, s.tasks⟩ _ = (_, ⟨s.isRunning, _⟩)
    rw [hr]
    rfl
  | enqueueUnlock =>
    rw [hc] at h hphase
    injection h with h
    subst h
    exact (unlock_moves s i _).silent rfl hphase.symm
  | enqueueNotify =>
    rw [hc] at h hphase
    injection h with h
    subst h
    have hmoves : Moves s i (.enqueueReturn true)
        { s.goto i (.enqueueReturn true) with worker := s.worker.notify } :=
      ⟨rfl, fun _ _ => rfl, notify_callPhase s.worker⟩
    exact hmoves.silent rfl hphase.symm
  | enqueueReturn r =>
    rw [hc] at h hphase
    injection h with h
    subst h
    have hmoves : Moves s i .idle { s.goto i .idle with
        answers := s.answers ++ [(s.task i, r)],
        calls := Function.update s.calls i (s.calls i + 1) } :=
      ⟨rfl, fun j hj => Function.update_of_ne hj _ _, rfl⟩
    exact hmoves.answer rfl hphase
  | stopCheck =>
    rw [hc] at h hphase
    injection h with h
    subst h
    cases hr : s.isRunning with
    | true => exact (goto_moves s i _).silent rfl hphase.symm
    | false =>
      -- the call takes effect and returns in one step
      have hqueue : (s.goto i .idle).queue = (s.queue.apply .stop).2 := by
        rw [apply_stop_stopped hr]
        rfl
      show Marks Queue.apply s.queue s.callPhase _ (s.goto i .idle).queue (s.goto i .idle).callPhase
      rw [(goto_moves s i .idle).callPhase, hqueue]
      refine .effect hphase (.answer (Function.update_self _ _ _) ?_)
      rw [Function.update_idem]
      exact .nil
  | stopLock =>
    rw [hc] at h hphase
    exact lock_silent h hphase.symm
  | stopRecheck =>
    rw [hc] at h hphase
    injection h with h
    subst h
    cases hr : s.isRunning with
    | true => exact (goto_moves s i _).silent rfl hphase.symm
    | false => exact (goto_moves s i _).effect hphase (apply_stop_stopped hr) rfl
  | stopRefuse =>
    rw [hc] at h hphase
    injection h with h
    subst h
    exact (unlock_moves s i _).answer rfl hphase
  | stopWrite =>
    rw [hc] at h hphase
    injection h with h
    subst h
    have hmoves : Moves s i .stopUnlock { s.goto i .stopUnlock with isRunning := false } :=
      ⟨rfl, fun _ _ => rfl, rfl⟩
    exact hmoves.effect hphase rfl rfl
  | stopUnlock =>
    rw [hc] at h hphase
    injection h with h
    subst h
    exact (unlock_moves s i _).silent rfl hphase.symm
  | stopNotify =>
    rw [hc] at h hphase
    injection h with h
    subst h
    have hmoves : Moves s i .idle { s.goto i .idle with worker := s.worker.notify } :=
      ⟨rfl, fun _ _ => rfl, notify_callPhase s.worker⟩
    exact hmoves.answer rfl hphase
  | emptyLock =>
    rw [hc] at h hphase
    exact lock_silent h hphase.symm
  | emptyRead =>
    rw [hc] at h hphase
    injection h with h
    subst h
    exact (goto_moves s i _).effect hphase rfl rfl
  | emptyUnlock r =>
    rw [hc] at h hphase
    injection h with h
    subst h
    exact (unlock_moves s i _).answer rfl hphase

/-- A step that changes no caller. -/
theorem callPhase_worker (hcaller : s'.caller = s.caller) (hcalls : s'.calls = s.calls) :
    s'.callPhase = Function.update s.callPhase .worker s'.worker.callPhase := by
  funext o
  cases o with
  | worker => exact (Function.update_self _ _ s.callPhase).symm
  | caller j =>
    rw [Function.update_of_ne fun heq => by cases heq]
    show (s'.caller j).callPhase (j, s'.calls j) = (s.caller j).callPhase (j, s.calls j)
    rw [hcaller, hcalls]

theorem worker_silent (hcaller : s'.caller = s.caller) (hcalls : s'.calls = s.calls)
    (hq : s'.queue = s.queue) (hw : s'.worker.callPhase = s.worker.callPhase) :
    Marks Queue.apply s.queue s.callPhase [] s'.queue s'.callPhase := by
  have hself : Function.update s.callPhase .worker s.worker.callPhase = s.callPhase :=
    Function.update_eq_self _ _
  rw [callPhase_worker hcaller hcalls, hq, hw, hself]
  exact .nil

/-- Between the calls of `take` the worker is idle, and within one it only goes on. -/
theorem workerStep_callPhase (h : workerStep s = some s') (htake : s.worker ≠ .processTake)
    (hcall : ∀ t, s.worker ≠ .processCall t) : s'.worker.callPhase = s.worker.callPhase := by
  unfold workerStep at h
  cases hs : s.worker <;> simp only [hs] at h
  case processTake => exact absurd hs htake
  case processCall t => exact absurd hs (hcall t)
  all_goals first | split at h | skip
  all_goals simp only [Option.some.injEq, reduceCtorEq] at h
  all_goals subst h
  all_goals rfl

theorem workerStep_silent (h : workerStep s = some s') (htake : s.worker ≠ .processTake)
    (hcall : ∀ t, s.worker ≠ .processCall t) :
    Marks Queue.apply s.queue s.callPhase [] s'.queue s'.callPhase := by
  have hspec := workerStep_spec h
  obtain ⟨hrunning, hcaller, hcalls, -, -⟩ := hspec.frame
  have hqueue : s'.queue = s.queue := by
    rcases hspec.queue with ⟨t, hw, -⟩ | ⟨-, htasks, -⟩
    · exact absurd hw htake
    · show (⟨s'.isRunning, s'.tasks⟩ : Queue) = _
      rw [hrunning, htasks]
      rfl
  exact worker_silent hcaller hcalls hqueue (workerStep_callPhase h htake hcall)

/-- Where the worker takes a task, the call is made and takes effect. -/
theorem workerStep_take {t : Task} {ts : List Task} (hw : s.worker = .processTake)
    (ht : s.tasks = t :: ts) (hcaller : s'.caller = s.caller) (hcalls : s'.calls = s.calls)
    (hqueue : s'.queue = ⟨s.isRunning, ts⟩) (hw' : s'.worker = .processUnlock t) :
    Marks Queue.apply s.queue s.callPhase (workerMarks s .processTake) s'.queue s'.callPhase := by
  have hidle : s.callPhase .worker = .idle := by
    show s.worker.callPhase = _
    rw [hw]
    rfl
  have happly : s.queue.apply .take = (.taken (some t), s'.queue) := by
    rw [hqueue]
    show Queue.apply ⟨s.isRunning, s.tasks⟩ _ = _
    rw [ht]
    rfl
  have hdone : s'.worker.callPhase = .done (s.queue.apply .take).1 := by
    rw [happly, hw']
    rfl
  have hobject : s'.queue = (s.queue.apply .take).2 := by rw [happly]
  rw [callPhase_worker hcaller hcalls, hdone, hobject]
  refine .invoke hidle (.effect (Function.update_self _ _ _) ?_)
  rw [Function.update_idem]
  exact .nil

theorem workerStep_marks (h : workerStep s = some s') :
    Marks Queue.apply s.queue s.callPhase (workerMarks s s.worker) s'.queue s'.callPhase := by
  by_cases htake : s.worker = .processTake
  · rw [htake]
    unfold workerStep at h
    rw [htake] at h
    cases ht : s.tasks with
    | nil => rw [ht] at h; cases h
    | cons t ts =>
      rw [ht] at h
      injection h with h
      subst h
      exact workerStep_take htake ht rfl rfl rfl rfl
  by_cases hcall : ∃ t, s.worker = .processCall t
  · obtain ⟨t, hw⟩ := hcall
    have hphase : s.callPhase .worker = .done (.taken (some t)) := by
      show s.worker.callPhase = _
      rw [hw]
      rfl
    unfold workerStep at h
    rw [hw] at h
    injection h with h
    have hafter : s'.callPhase = Function.update s.callPhase .worker .idle := by
      subst h
      exact callPhase_worker rfl rfl
    have hqueue : s'.queue = s.queue := by
      subst h
      rfl
    rw [hafter, hw, hqueue]
    exact .answer hphase .nil
  · have hnone : workerMarks s s.worker = [] := by
      unfold workerMarks
      cases hw : s.worker with
      | processTake => exact absurd hw htake
      | processCall t => exact absurd ⟨t, hw⟩ hcall
      | _ => rfl
    rw [hnone]
    exact workerStep_silent h htake fun t hw => hcall ⟨t, hw⟩

/-- **One step.** The marks of a step lead from the queue and the calls before it to those
after it. -/
theorem step_marks (s : State) (a : Action) (s' : State) (hI : Inv s) (h : step s a = some s') :
    Marks Queue.apply s.queue s.callPhase (queueMarks s a) s'.queue s'.callPhase := by
  cases a with
  | call i op =>
    simp only [step, Option.ite_none_right_eq_some, Option.some.injEq] at h
    obtain ⟨hi, rfl⟩ := h
    have hidle : s.callPhase (.caller i) = .idle := by
      show (s.caller i).callPhase _ = _
      rw [hi]
      rfl
    have hcalled : op.entry.callPhase (s.task i) = .called (op.asked (s.task i)) := by
      cases op <;> rfl
    rw [(goto_moves s i op.entry).callPhase]
    refine .invoke hidle ?_
    rw [← hcalled]
    exact .nil
  | caller i => exact callerStep_marks hI h
  | worker => exact workerStep_marks h
  | spurious =>
    simp only [step, Option.ite_none_right_eq_some, Option.some.injEq] at h
    obtain ⟨hw, rfl⟩ := h
    refine worker_silent rfl rfl rfl ?_
    rw [hw]
    rfl

end Steps

/-! ## Whole runs -/

/-- What is seen of a run of the task queue. -/
def seen (as : List Action) : List QueueEvent := shown step queueEvents init as

theorem init_callPhase (o : Owner) : init.callPhase o = .idle := by
  cases o <;> rfl

/-- **The task queue is linearizable.** In every interleaving, with any number of callers,
the calls are answered as those of the atomic queue in an order that keeps to their order
in time, and the members end as that queue does. -/
theorem linearizable {as : List Action} {s : State} (h : run step init as = some s) :
    ∃ L, Linearizes Queue.apply ⟨true, []⟩ (seen as) L ⟨s.isRunning, s.tasks⟩ :=
  linearizes_of_run step_inv step_marks history_queueMarks h init_inv init_callPhase

/-- A call of `stop` overtakes one of `enqueue`, which is refused under the mutex. -/
def overtakenRun : List Action :=
  [.call 0 .enqueue, .caller 0, .call 1 .stop, .caller 1, .caller 1, .caller 1, .caller 1,
    .caller 1, .caller 1, .caller 0, .caller 0, .caller 0, .caller 0]

theorem linearizable_overtaken : ∃ s, run step init overtakenRun = some s ∧
    seen overtakenRun = [.invoke (.caller 0) (.enqueue (0, 0)), .invoke (.caller 1) .stop,
      .answer (.caller 1) .stopped, .answer (.caller 0) (.accepted false)] ∧
    ∃ L, Linearizes Queue.apply ⟨true, []⟩ (seen overtakenRun) L ⟨s.isRunning, s.tasks⟩ :=
  ⟨_, rfl, rfl, linearizable rfl⟩

/-! ## What a user may conclude -/

/-- The flag of the atomic queue stays cleared. -/
theorem Queue.apply_stopped (q : Queue) (o : QueueOp) (hq : q.running = false) :
    (q.apply o).2.running = false := by
  cases o with
  | enqueue t =>
    unfold Queue.apply
    rw [hq]
    exact hq
  | stop => rfl
  | empty => exact hq
  | take =>
    unfold Queue.apply
    cases q.tasks with
    | nil => exact hq
    | cons t ts => exact hq

/-- Only `stop` is answered `stopped`, and it clears the flag. -/
theorem Queue.apply_answer_stopped {q : Queue} {o : QueueOp} (h : (q.apply o).1 = .stopped) :
    (q.apply o).2.running = false := by
  cases o with
  | enqueue t =>
    unfold Queue.apply at h
    cases hr : q.running with
    | true => rw [hr] at h; cases h
    | false => rw [hr] at h; cases h
  | stop => rfl
  | empty => cases h
  | take =>
    unfold Queue.apply at h
    cases ht : q.tasks with
    | nil => rw [ht] at h; cases h
    | cons t ts => rw [ht] at h; cases h

/-- **After `stop` nothing is accepted.** Once a call of `stop` has returned, by whatever
path, every call of `enqueue` that is made later is refused, from any thread. -/
theorem refused_after_stop {as : List Action} {s : State} (h : run step init as = some s)
    {h₁ h₂ : List QueueEvent} (hcut : seen as = h₁ ++ h₂) {i : Owner}
    (hstop : .stopped ∈ answers i h₁) {j : Owner} {k : Nat}
    (hlater : (invocations j h₁).length ≤ k) {t : Task}
    (hop : (invocations j (seen as))[k]? = some (.enqueue t)) {r : Answer}
    (hans : (answers j (seen as))[k]? = some r) : r = .accepted false := by
  obtain ⟨L, hL⟩ :=
    linearizes_of_run step_inv step_marks history_queueMarks h init_inv init_callPhase
  obtain ⟨L₁, L₂, rfl, hex₁⟩ := hL.realTime _ _ hcut
  -- the call of `stop` is in front
  obtain ⟨c, hc, -, hcs⟩ := hex₁.mem hstop
  obtain ⟨A, B, rfl⟩ := List.append_of_mem hc
  have hlegal := hL.legal
  rw [List.append_assoc, List.cons_append] at hlegal
  obtain ⟨m, -, hm⟩ := (legal_append A _).mp hlegal
  have hcleared : (m.apply c.op).2.running = false := Queue.apply_answer_stopped (hm.1.trans hcs)
  -- and the call of `enqueue` behind it
  obtain ⟨d, hd, hdo, hdr⟩ := hL.explains.behind hex₁ hlater hop hans
  obtain ⟨m', hm', hdm⟩ := hm.2.answers_after (I := fun q => q.running = false)
    Queue.apply_stopped hcleared d (List.mem_append_right B hd)
  rw [← hdr, hdm, hdo]
  unfold Queue.apply
  rw [hm']
  rfl

/-- Thread 0 enqueues again after the `stop` of thread 1. -/
def lateRun : List Action := overtakenRun ++ [.call 0 .enqueue, .caller 0, .caller 0]

theorem refused_after_stop_late : ∃ s, run step init lateRun = some s ∧
    (answers (.caller 0) (seen lateRun))[1]? = some (.accepted false) :=
  ⟨_, rfl, congrArg some (@refused_after_stop lateRun _ rfl _ _
    (show seen lateRun = [_, _, _] ++ [_, _, _] from rfl) (.caller 1)
    (List.mem_singleton.mpr rfl) (.caller 0) 1 (Nat.le_refl 1) (0, 1) rfl _ rfl)⟩

end Cor.Mt

import Mathlib.Logic.Function.Basic
import Cor.Lib.Run

/-!
# The task queue: callers, worker and the condition variable

`TaskQueueImpl` as an interleaving of threads. Every thread is a program
counter in the source text of the member function it is executing, one counter
for each point between two accesses to shared memory; a step executes the source
up to the next such point. The unlocked tests of `is_running_` and
`tasks_.size()` are atomic reads. `mutex_` is explicit, so mutual exclusion is
proved and not built in, and so is the condition variable: `ready_.wait`
releases the mutex and blocks in one step, `notify_one` unblocks the worker (the
only thread that ever waits) and a blocked worker can also be woken for no
reason.

There are as many caller threads as natural numbers, each making any number of
calls, one after the other. A task that itself calls `enqueue` or `stop` is one
more caller: its steps are possible whatever the worker is doing.

A `std::packaged_task` is move-only, so each call of `enqueue` brings a task of
its own; a task is named by the thread that brought it and the number of the
call. `TaskQueue` only forwards to `TaskQueueImpl` and has no model of its own.
-/

namespace Cor.Mt

open Cor.Lib (run Reachable)

abbrev Tid := Nat

/-- The task brought by a thread's `k`-th call of `enqueue`. -/
abbrev Task := Tid × Nat

/-- Where a caller thread is. The counters named `lock` are about to take the
mutex; those named `refuse` and `unlock` are about to release it. -/
inductive Caller
  | idle
  | enqueueCheck
  | enqueueLock
  | enqueueRecheck
  | enqueueRefuse
  | enqueuePush
  | enqueueUnlock
  | enqueueNotify
  | enqueueReturn (accepted : Bool)
  | stopCheck
  | stopLock
  | stopRecheck
  | stopRefuse
  | stopWrite
  | stopUnlock
  | stopNotify
  | emptyLock
  | emptyRead
  | emptyUnlock (result : Bool)
  deriving DecidableEq, Repr

/-- Where the worker is, inside `loop` and `process`. `blocked` is inside
`ready_.wait` and not notified; `woken` has to take the mutex again before it
re-evaluates the predicate at `waitCheck`. -/
inductive Worker
  | loopCheck
  | processCheck
  | processLock
  | processRecheck
  | processUnlockEmpty
  | processTake
  | processUnlock (task : Task)
  | processCall (task : Task)
  | processRun (task : Task)
  | waitLock
  | waitCheck
  | waitBlock
  | blocked
  | woken
  | waitUnlock
  | exited
  deriving DecidableEq, Repr

inductive Owner
  | worker
  | caller (i : Tid)
  deriving DecidableEq, Repr

/-- The members of `TaskQueueImpl`, the threads, and the history of the run:
`accepted` in the order of the pushes, `taken`, `started` and `finished` in the
order of the worker, `answers` what the calls of `enqueue` have returned, and
`calls i` how many of those thread `i` has completed. -/
structure State where
  isRunning : Bool
  tasks : List Task
  mutex : Option Owner
  worker : Worker
  caller : Tid → Caller
  calls : Tid → Nat
  accepted : List Task
  taken : List Task
  started : List Task
  finished : List Task
  answers : List (Task × Bool)

/-- `TaskQueueImpl()`: running, nothing queued, the worker about to enter `loop`. -/
def init : State where
  isRunning := true
  tasks := []
  mutex := none
  worker := .loopCheck
  caller := fun _ => .idle
  calls := fun _ => 0
  accepted := []
  taken := []
  started := []
  finished := []
  answers := []

/-- `ready_.notify_one()`: the worker is the only thread that can be waiting. -/
def Worker.notify : Worker → Worker
  | .blocked => .woken
  | w => w

/-- Thread `i` moves on to `c`. -/
def State.goto (s : State) (i : Tid) (c : Caller) : State :=
  { s with caller := Function.update s.caller i c }

/-- Thread `i` takes the mutex and moves on to `c`; not enabled while it is held. -/
def State.lock (s : State) (i : Tid) (c : Caller) : Option State :=
  if s.mutex = none then some { s.goto i c with mutex := some (.caller i) } else none

/-- Thread `i` releases the mutex and moves on to `c`. -/
def State.unlock (s : State) (i : Tid) (c : Caller) : State :=
  { s.goto i c with mutex := none }

/-- The task thread `i` brings in its current (or next) call of `enqueue`. -/
def State.task (s : State) (i : Tid) : Task := (i, s.calls i)

/-- The next step of the call thread `i` is in. -/
def callerStep (s : State) (i : Tid) : Option State :=
  match s.caller i with
  | .idle => none
  -- bool TaskQueueImpl::enqueue(std::packaged_task<void()> task)
  | .enqueueCheck =>
    some (s.goto i (if s.isRunning then .enqueueLock else .enqueueReturn false))
  | .enqueueLock => s.lock i .enqueueRecheck
  | .enqueueRecheck =>
    some (s.goto i (if s.isRunning then .enqueuePush else .enqueueRefuse))
  | .enqueueRefuse => some (s.unlock i (.enqueueReturn false))
  | .enqueuePush =>
    some { s.goto i .enqueueUnlock with
      tasks := s.tasks ++ [s.task i], accepted := s.accepted ++ [s.task i] }
  | .enqueueUnlock => some (s.unlock i .enqueueNotify)
  | .enqueueNotify =>
    some { s.goto i (.enqueueReturn true) with worker := s.worker.notify }
  | .enqueueReturn r =>
    some { s.goto i .idle with
      answers := s.answers ++ [(s.task i, r)],
      calls := Function.update s.calls i (s.calls i + 1) }
  -- void TaskQueueImpl::stop()
  | .stopCheck => some (s.goto i (if s.isRunning then .stopLock else .idle))
  | .stopLock => s.lock i .stopRecheck
  | .stopRecheck =>
    some (s.goto i (if s.isRunning then .stopWrite else .stopRefuse))
  | .stopRefuse => some (s.unlock i .idle)
  | .stopWrite => some { s.goto i .stopUnlock with isRunning := false }
  | .stopUnlock => some (s.unlock i .stopNotify)
  | .stopNotify => some { s.goto i .idle with worker := s.worker.notify }
  -- bool TaskQueueImpl::empty() const
  | .emptyLock => s.lock i .emptyRead
  | .emptyRead => some (s.goto i (.emptyUnlock s.tasks.isEmpty))
  | .emptyUnlock _ => some (s.unlock i .idle)

/-- The next step of `loop`, and of `process` inside it. -/
def workerStep (s : State) : Option State :=
  match s.worker with
  -- while (is_running_)
  | .loopCheck =>
    some { s with worker := if s.isRunning then .processCheck else .exited }
  -- while (tasks_.size())
  | .processCheck =>
    some { s with worker := if s.tasks.isEmpty then .waitLock else .processLock }
  | .processLock =>
    if s.mutex = none then some { s with worker := .processRecheck, mutex := some .worker }
    else none
  | .processRecheck =>
    some { s with worker := if s.tasks.isEmpty then .processUnlockEmpty else .processTake }
  | .processUnlockEmpty => some { s with worker := .processCheck, mutex := none }
  | .processTake =>
    match s.tasks with
    | [] => none
    | t :: rest =>
      some { s with worker := .processUnlock t, tasks := rest, taken := s.taken ++ [t] }
  | .processUnlock t => some { s with worker := .processCall t, mutex := none }
  -- task();
  | .processCall t => some { s with worker := .processRun t, started := s.started ++ [t] }
  | .processRun t => some { s with worker := .processCheck, finished := s.finished ++ [t] }
  -- ready_.wait(lock, [this]() { return !is_running_ || !tasks_.empty(); });
  | .waitLock =>
    if s.mutex = none then some { s with worker := .waitCheck, mutex := some .worker }
    else none
  | .waitCheck =>
    some { s with worker := if !s.isRunning || !s.tasks.isEmpty then .waitUnlock else .waitBlock }
  | .waitBlock => some { s with worker := .blocked, mutex := none }
  | .blocked => none
  | .woken =>
    if s.mutex = none then some { s with worker := .waitCheck, mutex := some .worker }
    else none
  | .waitUnlock => some { s with worker := .loopCheck, mutex := none }
  | .exited => none

inductive Op
  | enqueue
  | stop
  | empty
  deriving DecidableEq, Repr

/-- One move of the system: a thread enters a member function, a thread or the
worker takes its next step, or the worker wakes up spuriously. -/
inductive Action
  | call (i : Tid) (op : Op)
  | caller (i : Tid)
  | worker
  | spurious
  deriving DecidableEq, Repr

def Op.entry : Op → Caller
  | .enqueue => .enqueueCheck
  | .stop => .stopCheck
  | .empty => .emptyLock

def step (s : State) : Action → Option State
  | .call i op => if s.caller i = .idle then some (s.goto i op.entry) else none
  | .caller i => callerStep s i
  | .worker => workerStep s
  | .spurious => if s.worker = .blocked then some { s with worker := .woken } else none

end Cor.Mt

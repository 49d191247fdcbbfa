import Mathlib.Data.List.Nodup
import Cor.Mt.TaskQueueInv

/-!
# The task queue: order, wake-ups, and the tasks `stop` loses

What the invariant says about whole runs.

* `tasks_in_order`: the accepted tasks are the taken ones followed by the queue,
  they start in that order, one at a time and once each, `enqueue` answers
  `true` exactly for them, and the write of `stop` is the end of acceptance.
* `no_lost_wakeup`: the worker never sleeps, un-notified, on work or on a stop
  request that no thread is about to announce.
* `accepted_executed_iff`: what `stop` does to the tasks still queued.

The last one is where the code falls short. `loop` tests `is_running_` after
every wait and leaves without another `process`, so the tasks queued when
`stop` clears the flag are executed only if the worker happens to be inside
`process` at that moment, whose own loop does not test the flag. `StopsDrained`
is that condition, on the state before the write; a run that breaks it loses a
task for which `enqueue` had answered, or is going to answer, `true`.
-/

namespace Cor.Mt

open Cor.Lib

/-! ## Order and uniqueness -/

/-- Once the flag is cleared nothing is pushed any more. -/
theorem step_accepted {s s' : State} {a : Action} (hI : Inv s) (hr : s.isRunning = false)
    (h : step s a = some s') : s'.isRunning = false ∧ s'.accepted = s.accepted := by
  rcases step_cases h with ⟨i, -, hc⟩ | hw
  · have hacc : s'.accepted = s.accepted := by
      rcases hc.queue with ⟨hp, -, -, -⟩ | ⟨-, -, ha⟩
      · have hrun := hI.pushes i hp
        rw [hr] at hrun
        exact absurd hrun (by simp)
      · exact ha
    rcases hc.running with ⟨-, -, hr'⟩ | ⟨-, hr'⟩
    · exact ⟨hr', hacc⟩
    · exact ⟨hr'.trans hr, hacc⟩
  · exact ⟨hw.frame.1.trans hr, hw.frame.2.2.2.1⟩

theorem stopped_accepted {s s' : State} (hI : Inv s) (hr : s.isRunning = false)
    (h : Reachable step s s') : s'.accepted = s.accepted := by
  have hinv : Inv s' ∧ s'.isRunning = false ∧ s'.accepted = s.accepted :=
    h.inv (I := fun t => Inv t ∧ t.isRunning = false ∧ t.accepted = s.accepted)
      (fun t a t' ⟨ht, htr, hta⟩ hstep =>
        ⟨step_inv t a t' ht hstep, (step_accepted ht htr hstep).1,
          (step_accepted ht htr hstep).2.trans hta⟩)
      ⟨hI, hr, rfl⟩
  exact hinv.2.2

/-- The write of `stop` clears the flag, with the mutex held by the writer. -/
theorem stopWrite_cleared {s s' : State} {i : Tid} (hw : s.caller i = .stopWrite)
    (h : step s (.caller i) = some s') : s'.isRunning = false ∧ s'.accepted = s.accepted := by
  have hc : CallerSpec s i s' := callerStep_spec h
  constructor
  · rcases hc.running with ⟨-, -, hr⟩ | ⟨hn, -⟩
    · exact hr
    · exact absurd hw hn
  · rcases hc.queue with ⟨hp, -, -, -⟩ | ⟨-, -, ha⟩
    · rw [hw] at hp; exact absurd hp (by simp)
    · exact ha

theorem inRun_length (w : Worker) : w.inRun.length ≤ 1 := by
  cases w <;> simp [Worker.inRun]

/-- **Task order and uniqueness.** In every reachable state the accepted tasks,
in the order of their pushes, are the tasks taken by the worker followed by the
queue; they are distinct; they start in that order and one at a time; a call of
`enqueue` has answered `true` exactly when its task is among them; and nothing
is accepted after a write of `stop`. -/
theorem tasks_in_order {s : State} (h : Reachable step init s) :
    s.accepted = s.taken ++ s.tasks ∧
    s.accepted.Nodup ∧
    (s.finished <+: s.started ∧ s.started <+: s.taken ∧
      s.started.length ≤ s.finished.length + 1) ∧
    (∀ t r, (t, r) ∈ s.answers → (r = true ↔ t ∈ s.accepted)) ∧
    (∀ i s₁ s₂, s.caller i = .stopWrite → step s (.caller i) = some s₁ →
      Reachable step s₁ s₂ → s₂.accepted = s.accepted) := by
  have hI := reachable_inv h
  refine ⟨hI.split, hI.nodup, ?_, ?_, ?_⟩
  · obtain ⟨htaken, hstarted⟩ := hI.order
    refine ⟨⟨_, hstarted.symm⟩, ⟨_, htaken.symm⟩, ?_⟩
    have hlen := inRun_length s.worker
    rw [hstarted, List.length_append]
    omega
  · rintro ⟨i, k⟩ r hr
    exact ((hI.history i).answers k r hr).2
  · intro i s₁ s₂ hw hs₁ hs₂
    obtain ⟨hr, ha⟩ := stopWrite_cleared hw hs₁
    exact (stopped_accepted (step_inv s _ s₁ hI hs₁) hr hs₂).trans ha

/-- Two calls of `enqueue` by thread 0 around one task executed by the worker,
and a `stop` by thread 1 that has reached its write. -/
def demoRun : List Action :=
  [.call 0 .enqueue, .caller 0, .caller 0, .caller 0, .caller 0, .caller 0, .caller 0,
   .caller 0, .worker, .worker, .worker, .worker, .worker, .worker, .worker, .worker,
   .call 0 .enqueue, .caller 0, .caller 0, .caller 0, .caller 0, .caller 0,
   .call 1 .stop, .caller 1, .caller 1, .caller 1]

theorem tasks_in_order_demo :
    ∃ s, run step init demoRun = some s ∧ s.answers = [((0, 0), true)] ∧
      s.accepted = [(0, 0), (0, 1)] ∧ s.finished = [(0, 0)] ∧ s.caller 1 = .stopWrite ∧
      s.accepted = s.taken ++ s.tasks := by
  refine ⟨_, rfl, rfl, rfl, rfl, rfl, ?_⟩
  exact (tasks_in_order ⟨demoRun, rfl⟩).1

/-! ## Wake-ups -/

/-- **No lost wake-up.** If the worker is blocked in `ready_.wait` and has not
been notified, there is nothing to wake it for, or some thread is between its
locked change and its `notify_one`. So it does not sleep on pending work or a
pending stop once all callers have returned. -/
theorem no_lost_wakeup {s : State} (h : Reachable step init s) (hb : s.worker = .blocked) :
    ((s.tasks = [] ∧ s.isRunning = true) ∨ ∃ i, (s.caller i).owesNotify = true) ∧
    ((∀ i, s.caller i = .idle) → s.tasks = [] ∧ s.isRunning = true) := by
  have hw := (reachable_inv h).wakes hb
  refine ⟨hw, fun hidle => ?_⟩
  rcases hw with hq | ⟨i, hi⟩
  · exact hq
  · rw [hidle i] at hi
    exact absurd hi (by simp [Caller.owesNotify])

/-- The worker falls asleep on the empty queue and thread 0 pushes a task. -/
def sleepRun : List Action :=
  [.worker, .worker, .worker, .worker, .worker,
   .call 0 .enqueue, .caller 0, .caller 0, .caller 0, .caller 0]

theorem no_lost_wakeup_demo :
    ∃ s, run step init sleepRun = some s ∧ s.worker = .blocked ∧ s.tasks = [(0, 0)] ∧
      ((s.tasks = [] ∧ s.isRunning = true) ∨ ∃ i, (s.caller i).owesNotify = true) := by
  refine ⟨_, rfl, rfl, rfl, ?_⟩
  exact (no_lost_wakeup ⟨sleepRun, rfl⟩ rfl).1

/-! ## Tasks and `stop` -/

/-- The condition under which a step does not strand queued tasks: if it is the
write of `stop`, the queue is empty or the worker is inside `process`. -/
def StopsDrained (s : State) (a : Action) : Prop :=
  ∀ i, a = .caller i → s.caller i = .stopWrite → s.tasks = [] ∨ s.worker.draining = true

/-- While all writes are drained, a cleared flag leaves no stranded task. -/
structure Drained (s : State) : Prop where
  inv : Inv s
  queue : s.isRunning = false → s.tasks = [] ∨ s.worker.draining = true
  exited : s.worker = .exited → s.isRunning = false

theorem drained_step (s : State) (a : Action) (s' : State) (hD : Drained s)
    (hC : StopsDrained s a) (h : step s a = some s') : Drained s' := by
  refine ⟨step_inv s a s' hD.inv h, ?_, ?_⟩
  · rcases step_cases h with ⟨i, ha, hc⟩ | hw
    · have hdrain : s'.worker.draining = s.worker.draining := by
        rcases hc.worker_cases with hw | ⟨hw, hw'⟩
        · rw [hw]
        · rw [hw, hw']; rfl
      rw [hdrain]
      intro hr'
      have hq : s.tasks = [] ∨ s.worker.draining = true := by
        rcases hc.running with ⟨hwr, -, -⟩ | ⟨-, hr⟩
        · rcases ha with ha | hidle
          · exact hC i ha hwr
          · rw [hidle] at hwr; exact absurd hwr (by simp)
        · exact hD.queue (hr ▸ hr')
      rcases hc.queue with ⟨hp, hp', -, -⟩ | ⟨-, ht, -⟩
      · -- a push happens only while the flag is set, and leaves it set
        have hrun := hD.inv.pushes i hp
        rcases hc.running with ⟨hwr, -, -⟩ | ⟨-, hr⟩
        · rw [hp] at hwr; exact absurd hwr (by simp)
        · rw [hr, hrun] at hr'; exact absurd hr' (by simp)
      · rw [ht]; exact hq
    · rw [hw.frame.1]
      intro hr
      have hempty : s.tasks = [] → s'.tasks = [] := by
        intro he
        rcases hw.queue with ⟨t, -, -, ht, -⟩ | ⟨-, ht, -⟩
        · rw [he] at ht; exact absurd ht (by simp)
        · rw [ht, he]
      rcases hD.queue hr with he | hd
      · exact Or.inl (hempty he)
      · rcases hw.leaves hd with hd' | he
        · exact Or.inr hd'
        · exact Or.inl (hempty he)
  · intro he
    rcases step_cases h with ⟨i, -, hc⟩ | hw
    · have hws : s.worker = .exited := by
        rcases hc.worker_cases with hw | ⟨-, hw⟩
        · rw [← hw, he]
        · rw [hw] at he; exact absurd he (by simp)
      rcases hc.running with ⟨-, -, hr⟩ | ⟨-, hr⟩
      · exact hr
      · rw [hr]; exact hD.exited hws
    · rw [hw.frame.1]; exact (hw.toExited he).2

/-- The flag is cleared, the worker is past its last `process`, and a task is
still queued: nobody will ever take it. -/
structure Stranded (s : State) : Prop where
  inv : Inv s
  stopped : s.isRunning = false
  worker : s.worker.draining = false
  tasks : s.tasks ≠ []

theorem stranded_step (s : State) (a : Action) (s' : State) (hS : Stranded s)
    (h : step s a = some s') : Stranded s' := by
  have hr' := (step_accepted hS.inv hS.stopped h).1
  refine ⟨step_inv s a s' hS.inv h, hr', ?_, ?_⟩
  · rcases step_cases h with ⟨i, -, hc⟩ | hw
    · rcases hc.worker_cases with hw | ⟨-, hw⟩
      · rw [hw]; exact hS.worker
      · rw [hw]; rfl
    · cases hd : s'.worker.draining with
      | false => rfl
      | true =>
        have hrun := hw.enters hS.worker hd
        rw [hS.stopped] at hrun
        exact absurd hrun (by simp)
  · rcases step_cases h with ⟨i, -, hc⟩ | hw
    · rcases hc.queue with ⟨-, -, ht, -⟩ | ⟨-, ht, -⟩
      · rw [ht]; simp
      · rw [ht]; exact hS.tasks
    · rcases hw.queue with ⟨t, hwt, -, -, -⟩ | ⟨-, ht, -⟩
      · have hd := hS.worker
        rw [hwt] at hd
        exact absurd hd (by simp [Worker.draining])
      · rw [ht]; exact hS.tasks

/-- A step that is not drained strands the queue. -/
theorem stranded_of_not_drained {s s' : State} {a : Action} (hI : Inv s)
    (hC : ¬ StopsDrained s a) (h : step s a = some s') : Stranded s' := by
  simp only [StopsDrained, not_forall, not_or] at hC
  obtain ⟨i, rfl, hw, ht, hd⟩ := hC
  have hc : CallerSpec s i s' := callerStep_spec h
  refine ⟨step_inv s _ s' hI h, (stopWrite_cleared hw h).1, ?_, ?_⟩
  · have hd' : s.worker.draining = false := by simpa using hd
    rcases hc.worker_cases with hww | ⟨-, hww⟩
    · rw [hww]; exact hd'
    · rw [hww]; rfl
  · rcases hc.queue with ⟨hp, -, -, -⟩ | ⟨-, hts, -⟩
    · rw [hw] at hp; exact absurd hp (by simp)
    · rw [hts]; exact ht

/-- **Which accepted tasks are executed.** Take any run at whose end the worker
has exited. If every `stop` of the run clears the flag with the queue empty or
the worker inside `process`, every task for which `enqueue` returned `true` has
been executed exactly once. Otherwise some accepted task never is. -/
theorem accepted_executed_iff {as : List Action} {s : State}
    (h : run step init as = some s) (he : s.worker = .exited) :
    (Along step StopsDrained init as →
      ∀ t, (t, true) ∈ s.answers → s.finished.count t = 1) ∧
    ((∀ t ∈ s.accepted, s.finished.count t = 1) ↔ Along step StopsDrained init as) := by
  have hI : Inv s := reachable_inv ⟨as, h⟩
  have hdone : s.taken = s.finished := by
    obtain ⟨htaken, hstarted⟩ := hI.order
    rw [he] at htaken hstarted
    rw [htaken, hstarted]
    simp [Worker.inHand, Worker.inRun]
  have hall : Along step StopsDrained init as → ∀ t ∈ s.accepted, s.finished.count t = 1 := by
    intro hA t ht
    have hD : Drained s :=
      run_inv_along drained_step as h hA ⟨init_inv, by simp [init], by simp [init]⟩
    have hempty : s.tasks = [] := by
      rcases hD.queue (hD.exited he) with hq | hd
      · exact hq
      · rw [he] at hd; exact absurd hd (by simp [Worker.draining])
    have hacc : s.accepted = s.finished := by rw [hI.split, hempty, hdone, List.append_nil]
    exact List.count_eq_one_of_mem (hacc ▸ hI.nodup) (hacc ▸ ht)
  refine ⟨fun hA t ht => hall hA t ?_, ⟨fun hex => ?_, hall⟩⟩
  · obtain ⟨i, k⟩ := t
    exact ((hI.history i).answers k true ht).2.mp rfl
  · by_contra hA
    obtain ⟨pre, a, post, m, m', -, hpre, hstep, hC, hpost⟩ := not_along as h hA
    have hS : Stranded s := run_inv stranded_step post hpost
      (stranded_of_not_drained (reachable_inv ⟨pre, hpre⟩) hC hstep)
    obtain ⟨t, rest, htasks⟩ := List.exists_cons_of_ne_nil hS.tasks
    have hmem : t ∈ s.accepted := by rw [hI.split, htasks]; simp
    have hfin : t ∈ s.finished := List.count_pos_iff.mp (by rw [hex t hmem]; exact Nat.one_pos)
    have hnd := hI.nodup
    rw [hI.split, htasks, hdone, List.nodup_append] at hnd
    exact hnd.2.2 t hfin t (List.mem_cons_self ..) rfl

/-- Thread 0 enqueues a task and is told `true`, thread 1 stops the queue, and
only then the worker starts. -/
def lostRun : List Action :=
  [.call 0 .enqueue, .caller 0, .caller 0, .caller 0, .caller 0, .caller 0, .caller 0,
   .caller 0, .call 1 .stop, .caller 1, .caller 1, .caller 1, .caller 1, .caller 1, .caller 1,
   .worker]

/-- An accepted task is lost: the worker has exited and never executed it. -/
theorem accepted_task_lost :
    ¬ ∀ (as : List Action) (s : State), run step init as = some s → s.worker = .exited →
      ∀ t, (t, true) ∈ s.answers → s.finished.count t = 1 := by
  intro hall
  have hlost := hall lostRun _ rfl rfl (0, 0) (by decide)
  exact absurd hlost (by decide)

/-- The same calls with the worker scheduled in between. -/
def drainedRun : List Action :=
  [.call 0 .enqueue, .caller 0, .caller 0, .caller 0, .caller 0, .caller 0, .caller 0,
   .caller 0, .worker, .call 1 .stop, .caller 1, .caller 1, .caller 1, .caller 1, .caller 1,
   .caller 1, .worker, .worker, .worker, .worker, .worker, .worker, .worker, .worker,
   .worker, .worker, .worker, .worker]

theorem accepted_executed_demo :
    ∃ s, run step init drainedRun = some s ∧ s.worker = .exited ∧
      s.answers = [((0, 0), true)] ∧ Along step StopsDrained init drainedRun ∧
      ∀ t, (t, true) ∈ s.answers → s.finished.count t = 1 := by
  have hiff := accepted_executed_iff (show run step init drainedRun = some _ from rfl) rfl
  have hdrained : Along step StopsDrained init drainedRun := hiff.2.mp (by decide)
  exact ⟨_, rfl, rfl, rfl, hdrained, hiff.1 hdrained⟩

end Cor.Mt

import Cor.Mt.TaskQueueInv

/-!
# The task queue: what an empty queue tells its observer

`empty` reads `tasks_` under the mutex. The worker pops a task under the same
mutex but runs it after the unlock, so an observer can find the queue empty with
a task in the worker's hand or under execution.

`empty_quiescent_iff` says when the answer means what a polling observer takes it
for: the worker has none of the tasks accepted before the call, as it is whenever
it is between two tasks at the read.
-/

namespace Cor.Mt

open Cor.Lib

/-- The task the worker has popped from the queue and not finished. -/
def Worker.busyWith (w : Worker) : List Task := w.inHand ++ w.inRun

/-! ## The queue between the read and the return -/

/-- What it takes to be about to return `true` from `empty`: the step was the read
of an empty queue, or nobody has changed the queue since, and an idle worker has
stayed idle. -/
theorem step_emptyUnlock {s s' : State} {a : Action} {i : Tid} (hI : Inv s)
    (h : step s a = some s') (hi : s'.caller i = .emptyUnlock true) :
    (a = .caller i ∧ s.caller i = .emptyRead ∧ s.tasks = [] ∧ s'.tasks = s.tasks ∧
      s'.worker = s.worker) ∨
    (s.caller i = .emptyUnlock true ∧ s'.tasks = s.tasks ∧
      (s.worker.busyWith = [] → s'.worker.busyWith = [])) := by
  -- the thread holds the mutex, so no other thread is at a step that needs it
  have hothers : ∀ j, j ≠ i → CallerSpec s j s' → s.caller i = .emptyUnlock true ∧
      s'.tasks = s.tasks ∧ (s.worker.busyWith = [] → s'.worker.busyWith = []) := by
    intro j hj hc
    have hsame : s.caller i = .emptyUnlock true := by rw [← (hc.other i (Ne.symm hj)).1, hi]
    have hhold : (s.caller i).holds = true := by rw [hsame]; rfl
    refine ⟨hsame, ?_, ?_⟩
    · rcases hc.queue with ⟨hp, -, -, -⟩ | ⟨-, ht, -⟩
      · exact absurd ((hI.excl.alone (j := j) hhold).2 (by rw [hp]; rfl)) hj
      · exact ht
    · intro hidle
      rcases hc.worker_cases with hw | ⟨-, hw⟩
      · rw [hw, hidle]
      · rw [hw]; rfl
  have hworker : workerStep s = some s' → s.caller i = .emptyUnlock true ∧
      s'.tasks = s.tasks ∧ (s.worker.busyWith = [] → s'.worker.busyWith = []) := by
    intro hstep
    have hw := workerStep_spec hstep
    have hsame : s.caller i = .emptyUnlock true := by rw [← hw.frame.2.1, hi]
    have hfree : s.worker.holds = false := (hI.excl.alone (j := i) (by rw [hsame]; rfl)).1
    have htake : s.worker ≠ .processTake := by
      intro hw'
      rw [hw'] at hfree
      exact absurd hfree (by decide)
    refine ⟨hsame, ?_, ?_⟩
    · rcases hw.queue with ⟨t, ht, -⟩ | ⟨-, ht, -⟩
      · exact absurd ht htake
      · exact ht
    · intro hidle
      obtain ⟨hh, hr⟩ := List.append_eq_nil_iff.mp hidle
      obtain ⟨hh', hr'⟩ := workerStep_hands hstep htake hh hr
      rw [Worker.busyWith, hh', hr']
      rfl
  cases a with
  | caller j =>
    by_cases hj : j = i
    · subst hj
      obtain ⟨hread, hr, ht, hw⟩ := callerStep_emptyUnlock h hi
      exact Or.inl ⟨rfl, hread, List.isEmpty_iff.mp hr.symm, ht, hw⟩
    · exact Or.inr (hothers j hj (callerStep_spec h))
  | call j op =>
    simp only [step, Option.ite_none_right_eq_some, Option.some.injEq] at h
    obtain ⟨hidle, rfl⟩ := h
    by_cases hj : j = i
    · subst hj
      simp only [State.goto, Function.update_self] at hi
      cases op <;> simp [Op.entry] at hi
    · exact Or.inr (hothers j hj (call_spec hidle))
  | worker => exact Or.inr (hworker h)
  | spurious =>
    simp only [step, Option.ite_none_right_eq_some, Option.some.injEq] at h
    obtain ⟨hb, rfl⟩ := h
    exact Or.inr ⟨hi, rfl, fun _ => rfl⟩

/-- A thread that is about to return `true` from `empty` still finds the queue
empty: it has not released the mutex since the read. -/
structure SawEmpty (s : State) : Prop where
  inv : Inv s
  tasks : ∀ i, s.caller i = .emptyUnlock true → s.tasks = []

theorem sawEmpty_step (s : State) (a : Action) (s' : State) (hS : SawEmpty s)
    (h : step s a = some s') : SawEmpty s' := by
  refine ⟨step_inv s a s' hS.inv h, ?_⟩
  intro i hi
  rcases step_emptyUnlock hS.inv h hi with ⟨-, -, ht, ht', -⟩ | ⟨hi', ht', -⟩
  · rw [ht', ht]
  · rw [ht', hS.tasks i hi']

theorem reachable_sawEmpty {s : State} (h : Reachable step init s) : SawEmpty s :=
  h.inv sawEmpty_step ⟨init_inv, by simp [init]⟩

/-- The condition on a step: if it is the read of an empty queue by `empty`, the
worker is not between popping a task and the end of its execution. -/
def ReadsIdle (s : State) (a : Action) : Prop :=
  ∀ i, a = .caller i → s.caller i = .emptyRead → s.tasks = [] → s.worker.busyWith = []

/-- After such reads a thread about to return `true` finds the worker idle. -/
structure SawIdle (s : State) : Prop where
  inv : Inv s
  worker : ∀ i, s.caller i = .emptyUnlock true → s.worker.busyWith = []

theorem sawIdle_step (s : State) (a : Action) (s' : State) (hS : SawIdle s)
    (hC : ReadsIdle s a) (h : step s a = some s') : SawIdle s' := by
  refine ⟨step_inv s a s' hS.inv h, ?_⟩
  intro i hi
  rcases step_emptyUnlock hS.inv h hi with ⟨ha, hread, ht, -, hw⟩ | ⟨hi', -, hidle⟩
  · rw [hw, hC i ha hread ht]
  · exact hidle (hS.worker i hi')

/-! ## The tasks accepted before the call -/

/-- No step takes an acceptance back. -/
theorem step_accepted_subset {s s' : State} {a : Action} (h : step s a = some s') :
    s.accepted ⊆ s'.accepted := by
  intro t ht
  rcases step_cases h with ⟨i, -, hc⟩ | hw
  · rcases hc.queue with ⟨-, -, -, ha⟩ | ⟨-, -, ha⟩
    · rw [ha]
      exact List.mem_append_left _ ht
    · rwa [ha]
  · rwa [hw.frame.2.2.2.1]

theorem run_accepted_subset {as : List Action} {s s' : State} (h : run step s as = some s') :
    s.accepted ⊆ s'.accepted :=
  run_inv (I := fun m => s.accepted ⊆ m.accepted)
    (fun _ _ _ hsub hstep => List.Subset.trans hsub (step_accepted_subset hstep)) as h
    (List.Subset.refl _)

/-- An accepted task is finished, with the worker, or in the queue. -/
theorem Inv.accepted_eq {s : State} (hI : Inv s) :
    s.accepted = s.finished ++ s.worker.inRun ++ s.worker.inHand ++ s.tasks := by
  obtain ⟨htaken, hstarted⟩ := hI.order
  rw [hI.split, htaken, hstarted]

/-- **What `empty` tells.** Take any run in which a call of `empty` is about to
return `true`. The tasks accepted before the call are all finished exactly when
the worker is not between the pop and the end of one of them; and they are
whenever every read of an empty queue along the run finds the worker with no task
at all. -/
theorem empty_quiescent_iff {pre mid : List Action} {i : Tid} {s₀ s₁ s₂ : State}
    (hpre : run step init pre = some s₀) (hcall : step s₀ (.call i .empty) = some s₁)
    (hmid : run step s₁ mid = some s₂) (hret : s₂.caller i = .emptyUnlock true) :
    (Along step ReadsIdle init (pre ++ .call i .empty :: mid) →
      ∀ t ∈ s₀.accepted, t ∈ s₂.finished) ∧
    ((∀ t ∈ s₀.accepted, t ∈ s₂.finished) ↔
      ∀ t ∈ s₂.worker.busyWith, t ∉ s₀.accepted) := by
  have hrun : run step init (pre ++ .call i .empty :: mid) = some s₂ :=
    run_append_some.mpr ⟨s₀, hpre, run_cons_some.mpr ⟨s₁, hcall, hmid⟩⟩
  have hsaw := reachable_sawEmpty ⟨_, hrun⟩
  have hacc := hsaw.inv.accepted_eq
  rw [hsaw.tasks i hret, List.append_nil] at hacc
  have hsub : s₀.accepted ⊆ s₂.accepted :=
    List.Subset.trans (step_accepted_subset hcall) (run_accepted_subset hmid)
  have hiff : (∀ t ∈ s₀.accepted, t ∈ s₂.finished) ↔
      ∀ t ∈ s₂.worker.busyWith, t ∉ s₀.accepted := by
    constructor
    · intro hfin t ht hmem
      -- a task in the worker's hand would be accepted twice
      have hnd := hsaw.inv.nodup
      rw [hacc, List.append_assoc, List.nodup_append] at hnd
      have hbusy : t ∈ s₂.worker.inRun ++ s₂.worker.inHand := by
        rcases List.mem_append.mp ht with hh | hr
        · exact List.mem_append_right _ hh
        · exact List.mem_append_left _ hr
      exact hnd.2.2 t (hfin t hmem) t hbusy rfl
    · intro hbusy t ht
      have hmem := hsub ht
      rw [hacc, List.append_assoc] at hmem
      rcases List.mem_append.mp hmem with hf | hw
      · exact hf
      · refine absurd ht (hbusy t ?_)
        rcases List.mem_append.mp hw with hr | hh
        · exact List.mem_append_right _ hr
        · exact List.mem_append_left _ hh
  refine ⟨fun hA => hiff.mpr ?_, hiff⟩
  have hidle : SawIdle s₂ := run_inv_along sawIdle_step _ hrun hA ⟨init_inv, by simp [init]⟩
  rw [hidle.worker i hret]
  simp

/-- Thread 0 enqueues a task, and the worker pops it. -/
def popRun : List Action :=
  [.call 0 .enqueue, .caller 0, .caller 0, .caller 0, .caller 0, .caller 0, .caller 0,
   .caller 0, .worker, .worker, .worker, .worker, .worker, .worker]

/-- Thread 1 calls `empty` while the worker holds the only task. -/
theorem empty_not_quiescent :
    ¬ ∀ (pre mid : List Action) (i : Tid) (s₀ s₁ s₂ : State), run step init pre = some s₀ →
      step s₀ (.call i .empty) = some s₁ → run step s₁ mid = some s₂ →
      s₂.caller i = .emptyUnlock true → ∀ t ∈ s₀.accepted, t ∈ s₂.finished := by
  intro hall
  have hfin := hall popRun [.caller 1, .caller 1] 1 _ _ _ rfl rfl rfl rfl (0, 0) (by decide)
  exact absurd hfin (by decide)

/-- The same call after the worker has finished the task. -/
theorem empty_quiescent_demo :
    ∃ s₀ s₁ s₂, run step init (popRun ++ [.worker, .worker]) = some s₀ ∧
      step s₀ (.call 1 .empty) = some s₁ ∧ run step s₁ [.caller 1, .caller 1] = some s₂ ∧
      s₂.caller 1 = .emptyUnlock true ∧ s₀.accepted = [(0, 0)] ∧
      ∀ t ∈ s₀.accepted, t ∈ s₂.finished := by
  have hquiet := empty_quiescent_iff
    (show run step init (popRun ++ [.worker, .worker]) = some _ from rfl)
    (show step _ (.call 1 .empty) = some _ from rfl)
    (show run step _ [.caller 1, .caller 1] = some _ from rfl) rfl
  exact ⟨_, _, _, rfl, rfl, rfl, rfl, rfl, hquiet.2.mpr (by decide)⟩

end Cor.Mt

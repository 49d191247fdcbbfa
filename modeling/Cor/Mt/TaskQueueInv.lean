import Cor.Mt.TaskQueueStep

/-!
# The invariant of the task queue

`Inv` is what holds of every reachable state: who holds the mutex, how the accepted
tasks split into taken and waiting ones, what a call of `enqueue` has answered, and
why a sleeping worker may sleep. `CallerSpec.inv` and `WorkerSpec.inv` carry it over
one step, field by field, and `reachable_inv` to all reachable states.
-/

namespace Cor.Mt

open Cor.Lib

/-- The mutex is held by exactly the thread that is inside a locked region. -/
structure Exclusive (s : State) : Prop where
  caller : ∀ i, (s.caller i).holds = true ↔ s.mutex = some (.caller i)
  worker : s.worker.holds = true ↔ s.mutex = some .worker

/-- What is known about the calls of `enqueue` of thread `i`: its accepted tasks
are those of its completed calls and, once pushed, of the current one; a call
has returned `true` exactly when its task was accepted. -/
structure History (s : State) (i : Tid) : Prop where
  bound : ∀ k, (i, k) ∈ s.accepted →
    k < s.calls i ∨ (k = s.calls i ∧ (s.caller i).pushed = true)
  pushed : (s.caller i).pushed = true → s.task i ∈ s.accepted
  answers : ∀ k r, ((i, k), r) ∈ s.answers →
    k < s.calls i ∧ (r = true ↔ (i, k) ∈ s.accepted)

/-- The invariant of every reachable state. -/
structure Inv (s : State) : Prop where
  excl : Exclusive s
  split : s.accepted = s.taken ++ s.tasks
  order : s.taken = s.started ++ s.worker.inHand ∧ s.started = s.finished ++ s.worker.inRun
  pushes : ∀ i, s.caller i = .enqueuePush → s.isRunning = true
  takes : s.worker = .processTake → s.tasks ≠ []
  history : ∀ i, History s i
  nodup : s.accepted.Nodup
  blocks : s.worker = .waitBlock → s.tasks = [] ∧ s.isRunning = true
  wakes : s.worker = .blocked →
    (s.tasks = [] ∧ s.isRunning = true) ∨ ∃ i, (s.caller i).owesNotify = true

theorem init_inv : Inv init where
  excl := ⟨fun _ => by simp [init, Caller.holds], by simp [init, Worker.holds]⟩
  split := rfl
  order := ⟨rfl, rfl⟩
  pushes := by simp [init]
  takes := by simp [init]
  history := fun _ => ⟨by simp [init], by simp [init, Caller.pushed], by simp [init]⟩
  nodup := List.nodup_nil
  blocks := by simp [init]
  wakes := by simp [init]

/-! ## Steps of a caller -/

section Callers

variable {s s' : State} {i : Tid}

theorem CallerSpec.worker_cases (h : CallerSpec s i s') :
    s'.worker = s.worker ∨ (s.worker = .blocked ∧ s'.worker = .woken) := by
  rcases h.worker with hw | ⟨hw, -⟩
  · rw [hw]; exact notify_cases s.worker
  · exact Or.inl hw

theorem CallerSpec.worker_holds (h : CallerSpec s i s') : s'.worker.holds = s.worker.holds := by
  rcases h.worker_cases with hw | ⟨hw, hw'⟩
  · rw [hw]
  · rw [hw, hw']; rfl

/-- A caller inside a locked region excludes the worker and every other caller. -/
theorem Exclusive.alone (hE : Exclusive s) {j : Tid} (hi : (s.caller i).holds = true) :
    s.worker.holds = false ∧ ((s.caller j).holds = true → j = i) := by
  have hm := (hE.caller i).mp hi
  constructor
  · cases hw : s.worker.holds with
    | false => rfl
    | true => rw [hE.worker.mp hw] at hm; simp at hm
  · intro hj
    have hmj := (hE.caller j).mp hj
    rw [hm] at hmj
    simpa using hmj.symm

theorem CallerSpec.exclusive (h : CallerSpec s i s') (hE : Exclusive s) : Exclusive s' := by
  have hwh := h.worker_holds
  have hoth : ∀ j, j ≠ i → (s'.caller j).holds = (s.caller j).holds := fun j hj => by
    rw [(h.other j hj).1]
  rcases h.mutex with ⟨hm, hh⟩ | ⟨hm, hm', hh⟩ | ⟨hh, hm', hh'⟩
  · refine ⟨fun j => ?_, by rw [hwh, hm]; exact hE.worker⟩
    by_cases hj : j = i
    · rw [hj, hh, hm]; exact hE.caller i
    · rw [hoth j hj, hm]; exact hE.caller j
  · refine ⟨fun j => ?_, ?_⟩
    · by_cases hj : j = i
      · rw [hj, hm']; simp [hh]
      · rw [hoth j hj, hE.caller j, hm, hm']
        simp [Ne.symm hj]
    · rw [hwh, hE.worker, hm, hm']; simp
  · have hmi := (hE.caller i).mp hh
    refine ⟨fun j => ?_, ?_⟩
    · by_cases hj : j = i
      · rw [hj, hm', hh']; simp
      · rw [hoth j hj, hE.caller j, hmi, hm']
        simp [Ne.symm hj]
    · rw [hwh, hE.worker, hmi, hm']; simp

/-- A thread at the push keeps the flag set: clearing it takes the mutex. -/
theorem CallerSpec.pushes (h : CallerSpec s i s') (hI : Inv s) :
    ∀ j, s'.caller j = .enqueuePush → s'.isRunning = true := by
  intro j hj
  have hpush : (s.caller j).holds = true ∧ s.isRunning = true := by
    by_cases hji : j = i
    · exact hji ▸ h.toPush (hji ▸ hj)
    · rw [(h.other j hji).1] at hj
      exact ⟨by rw [hj]; rfl, hI.pushes j hj⟩
  rcases h.running with ⟨hw, hw', -⟩ | ⟨-, hr⟩
  · have hji := (hI.excl.alone (j := j) (show (s.caller i).holds = true by rw [hw]; rfl)).2 hpush.1
    rw [hji, hw'] at hj
    exact absurd hj (by simp)
  · rw [hr]; exact hpush.2

theorem CallerSpec.nodup (h : CallerSpec s i s') (hI : Inv s) : s'.accepted.Nodup := by
  rcases h.queue with ⟨hp, -, -, ha⟩ | ⟨-, -, ha⟩
  · rw [ha, List.nodup_append]
    refine ⟨hI.nodup, by simp, ?_⟩
    intro t ht u hu htu
    rw [List.mem_singleton] at hu
    subst hu htu
    rcases (hI.history i).bound (s.calls i) ht with hlt | ⟨-, hpushed⟩
    · exact absurd hlt (Nat.lt_irrefl _)
    · rw [hp] at hpushed; exact absurd hpushed (by simp [Caller.pushed])
  · rw [ha]; exact hI.nodup

/-- The steps of thread `i` change which tasks of thread `j` are accepted only by
its own push. -/
theorem CallerSpec.mem_accepted (h : CallerSpec s i s') {j : Tid} {k : Nat} :
    (j, k) ∈ s'.accepted ↔
      (j, k) ∈ s.accepted ∨ (s.caller i = .enqueuePush ∧ j = i ∧ k = s.calls i) := by
  rcases h.queue with ⟨hp, -, -, ha⟩ | ⟨hp, -, ha⟩
  · rw [ha, List.mem_append, List.mem_singleton]
    simp [State.task, hp]
  · rw [ha]; simp [hp]

/-- The steps of thread `i` leave the history of every other thread alone. -/
theorem CallerSpec.history_other (h : CallerSpec s i s') {j : Tid} (hji : j ≠ i)
    (hH : History s j) : History s' j := by
  obtain ⟨hc, hk⟩ := h.other j hji
  have hmem : ∀ k, (j, k) ∈ s'.accepted ↔ (j, k) ∈ s.accepted := fun k => by
    rw [h.mem_accepted]; simp [hji]
  have hans : ∀ k b, ((j, k), b) ∈ s'.answers ↔ ((j, k), b) ∈ s.answers := fun k b => by
    rcases h.answers with ⟨r, -, -, -, ha⟩ | ⟨-, ha, -⟩
    · rw [ha, List.mem_append]; simp [State.task, hji]
    · rw [ha]
  refine ⟨fun k hm => ?_, fun hp => ?_, fun k b hm => ?_⟩
  · rw [hmem] at hm; rw [hk, hc]; exact hH.bound k hm
  · rw [hc] at hp; rw [State.task, hk, hmem]; exact hH.pushed hp
  · rw [hans] at hm; rw [hk, hmem]; exact hH.answers k b hm

/-- A call of `enqueue` returns: its task joins those of the completed calls, and it
was accepted exactly when the answer is `true`. -/
theorem CallerSpec.history_return (h : CallerSpec s i s') (hH : History s i) {r : Bool}
    (hr : s.caller i = .enqueueReturn r) (hidle : s'.caller i = .idle)
    (hcalls : s'.calls i = s.calls i + 1) (hans : s'.answers = s.answers ++ [(s.task i, r)]) :
    History s' i := by
  have hmem : ∀ k, (i, k) ∈ s'.accepted ↔ (i, k) ∈ s.accepted := fun k => by
    rw [h.mem_accepted, hr]; simp
  have hcur : (i, s.calls i) ∈ s.accepted ↔ r = true := by
    constructor
    · intro hm
      rcases hH.bound _ hm with hlt | ⟨-, hp⟩
      · exact absurd hlt (Nat.lt_irrefl _)
      · rw [hr] at hp; cases r <;> simp_all [Caller.pushed]
    · intro hrt
      exact hH.pushed (by rw [hr, hrt]; rfl)
  refine ⟨fun k hk => ?_, fun hp => ?_, fun k b hk => ?_⟩
  · rw [hmem] at hk
    rcases hH.bound k hk with hlt | ⟨heq, -⟩
    · left; omega
    · left; omega
  · rw [hidle] at hp; exact absurd hp (by simp [Caller.pushed])
  · rw [hans, List.mem_append, List.mem_singleton] at hk
    rw [hmem]
    rcases hk with hk | hk
    · obtain ⟨hlt, hiff⟩ := hH.answers k b hk
      exact ⟨by omega, hiff⟩
    · simp only [State.task, Prod.mk.injEq, true_and] at hk
      obtain ⟨rfl, rfl⟩ := hk
      exact ⟨by omega, hcur.symm⟩

/-- A call of `enqueue` pushes its task, which was not accepted before. -/
theorem CallerSpec.history_push (h : CallerSpec s i s') (hH : History s i)
    (hp : s.caller i = .enqueuePush) (hp' : s'.caller i = .enqueueUnlock)
    (hcalls : s'.calls i = s.calls i) (hans : s'.answers = s.answers) : History s' i := by
  refine ⟨fun k hk => ?_, fun _ => ?_, fun k b hk => ?_⟩
  · rw [h.mem_accepted] at hk
    rw [hcalls]
    rcases hk with hk | ⟨-, -, rfl⟩
    · rcases hH.bound k hk with hlt | ⟨-, hpu⟩
      · exact Or.inl hlt
      · rw [hp] at hpu; exact absurd hpu (by simp [Caller.pushed])
    · exact Or.inr ⟨rfl, by rw [hp']; rfl⟩
  · rw [State.task, hcalls, h.mem_accepted]
    exact Or.inr ⟨hp, rfl, rfl⟩
  · rw [hans] at hk
    obtain ⟨hlt, hiff⟩ := hH.answers k b hk
    rw [hcalls, h.mem_accepted]
    exact ⟨hlt, by rw [hiff]; simp; omega⟩

theorem CallerSpec.history (h : CallerSpec s i s') (hI : Inv s) (j : Tid) : History s' j := by
  have hH := hI.history j
  by_cases hji : j = i
  · subst hji
    rcases h.answers with ⟨r, hr, hidle, hcalls, hans⟩ | ⟨hcalls, hans, hpushed⟩
    · exact h.history_return hH hr hidle hcalls hans
    rcases h.queue with ⟨hp, hp', -, -⟩ | ⟨hp, -, ha⟩
    · exact h.history_push hH hp hp' hcalls hans
    -- neither a push nor a return: nothing of the history changes
    refine ⟨fun k hk => ?_, fun hpu => ?_, fun k b hk => ?_⟩
    · rw [ha] at hk
      rw [hcalls, hpushed hp]
      exact hH.bound k hk
    · rw [hpushed hp] at hpu
      rw [State.task, hcalls, ha]
      exact hH.pushed hpu
    · rw [hans] at hk
      rw [hcalls, ha]
      exact hH.answers k b hk
  · exact h.history_other hji hH

/-- A push or a write happens under the mutex, so not while the worker is between
its predicate and its sleep. -/
theorem CallerSpec.blocks (h : CallerSpec s i s') (hI : Inv s) :
    s'.worker = .waitBlock → s'.tasks = [] ∧ s'.isRunning = true := by
  intro hw'
  have hw : s.worker = .waitBlock := by
    rcases h.worker_cases with hw | ⟨-, hw⟩
    · rw [← hw, hw']
    · rw [hw] at hw'; exact absurd hw' (by simp)
  obtain ⟨ht, hr⟩ := hI.blocks hw
  have hfree : (s.caller i).holds = false := by
    cases hh : (s.caller i).holds with
    | false => rfl
    | true =>
      have := (hI.excl.alone (j := i) hh).1
      rw [hw] at this
      exact absurd this (by simp [Worker.holds])
  rcases h.queue with ⟨hp, -, -, -⟩ | ⟨-, htasks, -⟩
  · rw [hp] at hfree; exact absurd hfree (by simp [Caller.holds])
  · rcases h.running with ⟨hp, -, -⟩ | ⟨-, hrun⟩
    · rw [hp] at hfree; exact absurd hfree (by simp [Caller.holds])
    · exact ⟨by rw [htasks, ht], by rw [hrun, hr]⟩

/-- **No wake-up is lost by a caller.** Whoever changes what the sleeping worker
waits for owes it a notification, and paying it wakes the worker. -/
theorem CallerSpec.wakes (h : CallerSpec s i s') (hI : Inv s) (hb : s'.worker = .blocked) :
    (s'.tasks = [] ∧ s'.isRunning = true) ∨ ∃ j, (s'.caller j).owesNotify = true := by
  rcases h.worker with hw | ⟨hw, howes⟩
  · exact absurd (hw ▸ hb) (notify_ne_blocked s.worker)
  · rcases h.queue with ⟨-, hp, -, -⟩ | ⟨-, htasks, -⟩
    · exact Or.inr ⟨i, by rw [hp]; rfl⟩
    · rcases h.running with ⟨-, hp, -⟩ | ⟨-, hrun⟩
      · exact Or.inr ⟨i, by rw [hp]; rfl⟩
      · rw [htasks, hrun]
        rcases hI.wakes (hw ▸ hb) with hq | ⟨j, hj⟩
        · exact Or.inl hq
        · by_cases hji : j = i
          · exact Or.inr ⟨i, howes (hji ▸ hj)⟩
          · exact Or.inr ⟨j, by rw [(h.other j hji).1]; exact hj⟩

theorem CallerSpec.inv (h : CallerSpec s i s') (hI : Inv s) : Inv s' where
  excl := h.exclusive hI.excl
  split := by
    rw [h.frame.1]
    rcases h.queue with ⟨-, -, ht, ha⟩ | ⟨-, ht, ha⟩
    · rw [ht, ha, hI.split, List.append_assoc]
    · rw [ht, ha, hI.split]
  order := by
    rw [h.frame.1, h.frame.2.1, h.frame.2.2]
    rcases h.worker_cases with hw | ⟨hw, hw'⟩
    · rw [hw]; exact hI.order
    · have := hI.order
      rw [hw] at this
      rw [hw']
      exact this
  pushes := h.pushes hI
  takes := by
    intro hw'
    have hw : s.worker = .processTake := by
      rcases h.worker_cases with hw | ⟨-, hw⟩
      · rw [← hw, hw']
      · rw [hw] at hw'; exact absurd hw' (by simp)
    rcases h.queue with ⟨-, -, ht, -⟩ | ⟨-, ht, -⟩
    · rw [ht]; simp
    · rw [ht]; exact hI.takes hw
  history := h.history hI
  nodup := h.nodup hI
  blocks := h.blocks hI
  wakes := h.wakes hI

end Callers

/-! ## Steps of the worker -/

section Worker

variable {s s' : State}

theorem WorkerSpec.exclusive (h : WorkerSpec s s') (hE : Exclusive s) : Exclusive s' := by
  obtain ⟨-, hc, -⟩ := h.frame
  rcases h.mutex with ⟨hm, hh⟩ | ⟨hm, hm', hh⟩ | ⟨hh, hm', hh'⟩
  · exact ⟨fun j => by rw [hc, hm]; exact hE.caller j, by rw [hh, hm]; exact hE.worker⟩
  · exact ⟨fun j => by rw [hc, hE.caller j, hm, hm']; simp, by rw [hm']; simp [hh]⟩
  · have hmw := hE.worker.mp hh
    exact ⟨fun j => by rw [hc, hE.caller j, hmw, hm']; simp, by rw [hm', hh']; simp⟩

theorem WorkerSpec.inv (h : WorkerSpec s s') (hI : Inv s) : Inv s' where
  excl := h.exclusive hI.excl
  split := by
    rw [h.frame.2.2.2.1, hI.split]
    rcases h.queue with ⟨t, -, -, ht, htk⟩ | ⟨-, ht, htk⟩
    · rw [ht, htk, List.append_assoc, List.singleton_append]
    · rw [ht, htk]
  order := h.order hI.order
  pushes := by
    obtain ⟨hr, hc, -⟩ := h.frame
    rw [hr, hc]
    exact hI.pushes
  takes := by
    intro hw'
    rcases h.queue with ⟨t, -, hu, -⟩ | ⟨-, ht, -⟩
    · rw [hu] at hw'; exact absurd hw' (by simp)
    · rw [ht]; exact h.toTake hw'
  history := by
    obtain ⟨-, hc, hk, ha, han⟩ := h.frame
    intro i
    have hH := hI.history i
    exact ⟨by rw [ha, hc, hk]; exact hH.bound, by rw [State.task, ha, hc, hk]; exact hH.pushed,
      by rw [ha, hk, han]; exact hH.answers⟩
  nodup := by rw [h.frame.2.2.2.1]; exact hI.nodup
  blocks := by
    intro hw'
    obtain ⟨-, ht, hr⟩ := h.toBlock hw'
    rcases h.queue with ⟨t, -, hu, -⟩ | ⟨-, htasks, -⟩
    · rw [hu] at hw'; exact absurd hw' (by simp)
    · exact ⟨by rw [htasks, ht], by rw [h.frame.1, hr]⟩
  wakes := by
    intro hw'
    obtain ⟨ht, hr⟩ := hI.blocks (h.toBlocked hw')
    rcases h.queue with ⟨t, -, hu, -⟩ | ⟨-, htasks, -⟩
    · rw [hu] at hw'; exact absurd hw' (by simp)
    · exact Or.inl ⟨by rw [htasks, ht], by rw [h.frame.1, hr]⟩

end Worker

/-- **Every step preserves the invariant.** -/
theorem step_inv (s : State) (a : Action) (s' : State) (hI : Inv s)
    (h : step s a = some s') : Inv s' := by
  rcases step_cases h with ⟨i, -, hc⟩ | hw
  · exact hc.inv hI
  · exact hw.inv hI

theorem reachable_inv {s : State} (h : Reachable step init s) : Inv s :=
  h.inv step_inv init_inv

end Cor.Mt

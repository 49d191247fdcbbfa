import Cor.Mt.Lifecycle
import Cor.Mt.TaskQueueDrains

/-!
# The life of a task queue ends

`Lifecycle` says when a life is safe; here it is said that it ends. The destructor of
`TaskQueueImpl` waits in `thread_.join()` for the worker, so it would hang if the
worker could sleep through the `stop` before it, and so would a `join` of the owner.

`life_ends` rules this out for every owner that calls `join` only after `stop`:
whatever the owner and the worker do, they come to an end in a bounded number of
steps, and there the owner has destroyed the queue, or was thrown out of
`thread_.join()`. Without a call of `join` it is always the former.
-/

namespace Cor.Mt

open Cor.Lib

/-! ## The moves of the owner -/

/-- What the owner can do, with what has to hold for it. -/
inductive OwnerMove (l : Life) : Life → Prop
  /-- a step inside the call it is in -/
  | inside {q : State} (ho : l.owner = .calls ∨ l.owner = .dtorStop)
      (hq : callerStep l.queue 0 = some q) : OwnerMove l { l with queue := q }
  | enters {o : Op} {rest : List Call} (ho : l.owner = .calls) (hc : l.calls = .op o :: rest)
      (hi : l.queue.caller 0 = .idle) :
      OwnerMove l { l with calls := rest, queue := l.queue.goto 0 o.entry }
  | joins {rest : List Call} (ho : l.owner = .calls) (hc : l.calls = .join :: rest)
      (hi : l.queue.caller 0 = .idle) : OwnerMove l { l with owner := .join false, calls := rest }
  | destroys (ho : l.owner = .calls) (hc : l.calls = []) (hi : l.queue.caller 0 = .idle) :
      OwnerMove l { l with owner := .dtorStop, queue := l.queue.goto 0 .stopCheck }
  | stopped (ho : l.owner = .dtorStop) (hi : l.queue.caller 0 = .idle) :
      OwnerMove l { l with owner := .join true }
  | invokes {dtor : Bool} (ho : l.owner = .join dtor) :
      OwnerMove l { l with
        joins := l.joins ++ [l.joinable]
        owner := if l.joinable then .joinWait dtor else .threw dtor }
  | joined {dtor : Bool} (ho : l.owner = .joinWait dtor) (hw : l.queue.worker = .exited) :
      OwnerMove l { l with
        joinable := false, owner := if dtor then .destroyed else .calls }

/-- Entering a member function is possible where the thread is idle. -/
theorem step_call {q : State} {o : Op} (hi : q.caller 0 = .idle) :
    step q (.call 0 o) = some (q.goto 0 o.entry) := by
  rw [step, if_pos hi]

theorem ownerStep_move {l l' : Life} (h : ownerStep l = some l') : OwnerMove l l' := by
  obtain ⟨queue, joinable, owner, calls, joins⟩ := l
  unfold ownerStep at h
  cases owner with
  | calls =>
    simp only at h
    split at h
    · obtain ⟨q, hq, rfl⟩ := Option.map_eq_some_iff.mp h
      exact .inside (Or.inl rfl) hq
    next hi =>
      have hi' : queue.caller 0 = .idle := not_not.mp hi
      cases calls with
      | nil =>
        simp only [Life.queueStep, step_call hi', Option.map_some, Option.some.injEq] at h
        subst h
        exact .destroys rfl rfl hi'
      | cons c rest =>
        cases c with
        | op o =>
          simp only [Life.queueStep, step_call hi', Option.map_some, Option.some.injEq] at h
          subst h
          exact .enters rfl rfl hi'
        | join =>
          obtain rfl := Option.some.inj h
          exact .joins rfl rfl hi'
  | dtorStop =>
    simp only at h
    split at h
    · obtain ⟨q, hq, rfl⟩ := Option.map_eq_some_iff.mp h
      exact .inside (Or.inr rfl) hq
    next hi =>
      obtain rfl := Option.some.inj h
      exact .stopped rfl (not_not.mp hi)
  | join dtor =>
    obtain rfl := Option.some.inj h
    exact .invokes rfl
  | joinWait dtor =>
    simp only at h
    split at h
    next hw =>
      obtain rfl := Option.some.inj h
      exact .joined rfl hw
    · cases h
  | threw dtor => cases h
  | destroyed => cases h

/-! ## The flag, where the owner waits -/

/-- Thread 0 is in a call of `stop` and has not seen or made the flag cleared. -/
def Caller.stopping : Caller → Bool
  | .stopCheck | .stopLock | .stopRecheck | .stopWrite => true
  | _ => false

/-- The flag is cleared, or thread 0 is about to clear it. -/
def Stopping (q : State) : Prop :=
  q.isRunning = true → (q.caller 0).stopping = true

/-- A step of thread 0 does not leave `stop` before the flag is cleared. -/
theorem callerStep_stopping {q q' : State} (h : callerStep q 0 = some q') (hS : Stopping q) :
    Stopping q' := by
  intro hr'
  have hr : q.isRunning = true := by
    rcases (callerStep_spec h).running with ⟨-, -, hr⟩ | ⟨-, hr⟩
    · rw [hr] at hr'; cases hr'
    · rw [← hr, hr']
  have hs := hS hr
  unfold callerStep at h
  cases hp : q.caller 0 <;> simp only [hp, Caller.stopping, reduceCtorEq] at hs
  all_goals simp only [hp, Option.some.injEq, lock_some] at h
  all_goals first | subst h | obtain ⟨hm, rfl⟩ := h
  all_goals simp_all [State.goto, Caller.stopping]

/-- The owner never waits for a worker that has not been told to stop, if it calls
`join` only after `stop`. -/
structure Told (l : Life) : Prop where
  going : Going {0} l.queue
  calls : l.owner = .calls → Stopping l.queue ∨ JoinsAfterStop l.calls
  dtor : l.owner = .dtorStop → Stopping l.queue
  waits : ∀ dtor, l.owner = .join dtor ∨ l.owner = .joinWait dtor →
    l.queue.isRunning = false ∧ l.queue.caller 0 = .idle
  destroyed : l.owner = .destroyed → l.queue.isRunning = false ∧ l.queue.caller 0 = .idle ∧
    l.queue.worker = .exited

/-- Between two calls, having been told is having stopped. -/
theorem Stopping.stopped {q : State} (hS : Stopping q) (hi : q.caller 0 = .idle) :
    q.isRunning = false := by
  cases hr : q.isRunning with
  | false => rfl
  | true =>
    have hs := hS hr
    rw [hi] at hs
    cases hs

theorem joinsAfterStop_cons {o : Op} {rest : List Call} (h : JoinsAfterStop (.op o :: rest))
    (ho : o ≠ .stop) : JoinsAfterStop rest := by
  intro pre post heq
  have hmem := h (.op o :: pre) post (by rw [heq, List.cons_append])
  rcases List.mem_cons.mp hmem with heq' | hmem
  · exact absurd (Call.op.inj heq').symm ho
  · exact hmem

theorem told_owner {l l' : Life} (hT : Told l) (h : OwnerMove l l') : Told l' := by
  cases h with
  | inside ho hq =>
    have hspec : CallerSpec l.queue 0 _ := callerStep_spec hq
    have hG := hT.going.callers (Finset.mem_singleton_self 0) hspec
    refine ⟨hG, fun hc => ?_, fun hd => callerStep_stopping hq (hT.dtor hd), ?_, ?_⟩
    · exact (hT.calls hc).imp_left (callerStep_stopping hq)
    · rintro dtor (hw | hw) <;> rcases ho with ho | ho <;> rw [ho] at hw <;> cases hw
    · intro hd
      rcases ho with ho | ho <;> rw [ho] at hd <;> cases hd
  | @enters o rest ho hc hi =>
    have hspec : CallerSpec l.queue 0 (l.queue.goto 0 o.entry) := call_spec hi
    have hG := hT.going.callers (Finset.mem_singleton_self 0) hspec
    refine ⟨hG, fun _ => ?_, fun hd => ?_, ?_, fun hd => ?_⟩
    · by_cases hstop : o = .stop
      · subst hstop
        exact Or.inl fun _ => by simp [State.goto, Op.entry, Caller.stopping]
      · rcases hT.calls ho with hS | hJ
        · refine Or.inl fun hr => ?_
          rw [show (l.queue.goto 0 o.entry).isRunning = l.queue.isRunning from rfl,
            hS.stopped hi] at hr
          cases hr
        · rw [hc] at hJ
          exact Or.inr (joinsAfterStop_cons hJ hstop)
    · rw [ho] at hd; cases hd
    · rintro dtor (hw | hw) <;> rw [ho] at hw <;> cases hw
    · rw [ho] at hd; cases hd
  | joins ho hc hi =>
    have hstopped : l.queue.isRunning = false := by
      rcases hT.calls ho with hS | hJ
      · exact hS.stopped hi
      · have hmem := hJ [] _ hc
        exact absurd hmem List.not_mem_nil
    refine ⟨hT.going, fun hc => ?_, fun hd => ?_, fun _ _ => ⟨hstopped, hi⟩, fun hd => ?_⟩
    · cases hc
    · cases hd
    · cases hd
  | destroys ho hc hi =>
    have hspec : CallerSpec l.queue 0 (l.queue.goto 0 Op.stop.entry) := call_spec hi
    have hG := hT.going.callers (Finset.mem_singleton_self 0) hspec
    refine ⟨hG, fun hc => ?_, fun _ _ => ?_, ?_, fun hd => ?_⟩
    · cases hc
    · simp [State.goto, Caller.stopping]
    · rintro dtor (hw | hw) <;> cases hw
    · cases hd
  | stopped ho hi =>
    have hstopped := (hT.dtor ho).stopped hi
    refine ⟨hT.going, fun hc => ?_, fun hd => ?_, fun _ _ => ⟨hstopped, hi⟩, fun hd => ?_⟩
    · cases hc
    · cases hd
    · cases hd
  | @invokes dtor ho =>
    have hw := hT.waits dtor (Or.inl ho)
    refine ⟨hT.going, fun hc => ?_, fun hd => ?_, fun _ _ => hw, fun hd => ?_⟩
    · cases hj : l.joinable <;> simp [hj] at hc
    · cases hj : l.joinable <;> simp [hj] at hd
    · cases hj : l.joinable <;> simp [hj] at hd
  | @joined dtor ho hexit =>
    have hw := hT.waits dtor (Or.inr ho)
    refine ⟨hT.going, fun _ => Or.inl fun hr => ?_, fun hd => ?_, fun _ _ => hw, fun _ =>
      ⟨hw.1, hw.2, hexit⟩⟩
    · rw [hw.1] at hr; cases hr
    · cases dtor <;> cases hd

/-- A step of the worker changes neither the flag nor thread 0. -/
theorem told_worker {l : Life} {q : State} (hT : Told l) (hG : Going {0} q)
    (hw : WorkerSpec l.queue q) (hexit : l.queue.worker ≠ .exited) :
    Told { l with queue := q } := by
  obtain ⟨hr, hc, -⟩ := hw.frame
  have hS : Stopping l.queue → Stopping q := by
    intro hS hr'
    rw [hc]
    exact hS (hr ▸ hr')
  refine ⟨hG, fun ho => (hT.calls ho).imp_left hS, fun ho => hS (hT.dtor ho), fun dtor ho => ?_,
    fun ho => absurd (hT.destroyed ho).2.2 hexit⟩
  show q.isRunning = false ∧ q.caller 0 = .idle
  rw [hr, hc]
  exact hT.waits dtor ho

theorem queueStep_told {l l' : Life} {a : Action} (hT : Told l) (ha : a = .worker ∨ a = .spurious)
    (h : l.queueStep a = some l') : Told l' := by
  obtain ⟨q, hq, rfl⟩ := Option.map_eq_some_iff.mp h
  have hwithin : a.Within {0} := by
    rcases ha with rfl | rfl <;> intro i op heq <;> cases heq
  have hG : Going {0} q := going_step _ a q hT.going hwithin hq
  rcases ha with rfl | rfl
  · refine told_worker hT hG (workerStep_spec hq) fun he => ?_
    rw [step, workerStep, he] at hq
    cases hq
  · simp only [step, Option.ite_none_right_eq_some, Option.some.injEq] at hq
    obtain ⟨hb, rfl⟩ := hq
    exact told_worker hT hG (spurious_spec hb) (by rw [hb]; simp)

theorem told_step (l : Life) (a : LifeAction) (l' : Life) (hT : Told l)
    (h : lifeStep l a = some l') : Told l' := by
  cases a with
  | owner => exact told_owner hT (ownerStep_move h)
  | worker => exact queueStep_told hT (Or.inl rfl) h
  | spurious => exact queueStep_told hT (Or.inr rfl) h

theorem told_init {calls : List Call} (hcalls : JoinsAfterStop calls) :
    Told (lifeInit calls) where
  going := init_going {0}
  calls := fun _ => Or.inr hcalls
  dtor := fun ho => by cases ho
  waits := by rintro dtor (ho | ho) <;> cases ho
  destroyed := fun ho => by cases ho

/-! ## The work of a life -/

/-- The steps of a call and of what follows from it. -/
def Call.price : Call → Nat
  | .op o => (Action.call 0 o).price
  | .join => 3

/-- What the owner has still to do outside the calls it is in, the destructor
included: its `stop`, and the invocation of `std::thread::join`. -/
def Life.toCome (l : Life) : Nat :=
  match l.owner with
  | .calls => (l.calls.map Call.price).sum + 18
  | .join false => (l.calls.map Call.price).sum + 20
  | .joinWait false => (l.calls.map Call.price).sum + 19
  | .dtorStop => 3
  | .join true => 2
  | .joinWait true => 1
  | .threw _ => 0
  | .destroyed => 0

def Life.work (l : Life) : Nat := l.queue.work {0} + l.toCome

def LifeAction.price : LifeAction → Nat
  | .owner | .worker => 0
  | .spurious => 5

theorem owner_work {l l' : Life} (hT : Told l) (h : OwnerMove l l') : l'.work + 1 ≤ l.work := by
  have henter : ∀ o : Op, l.queue.caller 0 = .idle →
      (l.queue.goto 0 o.entry).work {0} + 1 ≤ l.queue.work {0} + (Action.call 0 o).price := by
    intro o hi
    refine (work_paid {0}).pays _ (.call 0 o) _ hT.going (fun i op heq => ?_) (step_call hi)
    cases heq
    exact Finset.mem_singleton_self 0
  cases h with
  | @inside q ho hq =>
    have hpay : q.work {0} + 1 ≤ l.queue.work {0} + 0 :=
      (work_paid {0}).pays _ (.caller 0) q hT.going (fun i op heq => by cases heq) hq
    simp only [Life.work, Life.toCome]
    omega
  | @enters o rest ho hc hi =>
    have hpay := henter o hi
    simp only [Life.work, Life.toCome, ho, hc, List.map_cons, List.sum_cons, Call.price]
    omega
  | joins ho hc hi =>
    simp only [Life.work, Life.toCome, ho, hc, List.map_cons, List.sum_cons, Call.price]
    omega
  | destroys ho hc hi =>
    have hpay : (l.queue.goto 0 .stopCheck).work {0} + 1 ≤ l.queue.work {0} + 15 :=
      henter .stop hi
    simp only [Life.work, Life.toCome, ho]
    omega
  | stopped ho hi =>
    simp only [Life.work, Life.toCome, ho]
    omega
  | @invokes dtor ho =>
    simp only [Life.work, Life.toCome, ho]
    cases l.joinable <;> cases dtor <;> simp only [if_true, if_false, Bool.false_eq_true] <;>
      omega
  | @joined dtor ho hw =>
    simp only [Life.work, Life.toCome, ho]
    cases dtor <;> simp only [if_true, if_false, Bool.false_eq_true] <;> omega

/-- Every move is paid for: the calls to come by the owner, a spurious wake-up by
whoever makes it. -/
theorem life_paid : Paid lifeStep Told (fun _ => True) Life.work LifeAction.price where
  keeps := fun l a l' hT _ h => told_step l a l' hT h
  pays := by
    intro l a l' hT _ h
    cases a with
    | owner =>
      have hpay := owner_work hT (ownerStep_move h)
      simp only [LifeAction.price]
      omega
    | worker =>
      obtain ⟨q, hq, rfl⟩ := Option.map_eq_some_iff.mp h
      have hpay : q.work {0} + 1 ≤ l.queue.work {0} + 0 :=
        (work_paid {0}).pays _ .worker q hT.going (fun i op heq => by cases heq) hq
      simp only [Life.work, Life.toCome, LifeAction.price]
      omega
    | spurious =>
      obtain ⟨q, hq, rfl⟩ := Option.map_eq_some_iff.mp h
      have hpay : q.work {0} + 1 ≤ l.queue.work {0} + 5 :=
        (work_paid {0}).pays _ .spurious q hT.going (fun i op heq => by cases heq) hq
      simp only [Life.work, Life.toCome, LifeAction.price]
      omega

/-! ## The end -/

/-- The steps of the owner and of the worker. -/
def LifeAction.Own (a : LifeAction) : Prop := a ≠ .spurious

/-- Only caller 0 ever enters the queue, so where it is idle and the worker has exited
the queue is at rest. -/
theorem Told.atRest {l : Life} (hT : Told l) (ho : l.owner = .destroyed) : AtRest l.queue := by
  obtain ⟨hr, hi, hw⟩ := hT.destroyed ho
  have hidle : ∀ i, l.queue.caller i = .idle := by
    intro i
    by_cases h0 : i = 0
    · rw [h0, hi]
    · exact hT.going.idle i fun hmem => h0 (Finset.mem_singleton.mp hmem)
  refine ⟨hidle, ?_, Or.inl ⟨hw, hr⟩⟩
  cases hm : l.queue.mutex with
  | none => rfl
  | some o =>
    cases o with
    | worker =>
      have hh := hT.going.inv.excl.worker.mpr hm
      rw [hw] at hh
      cases hh
    | caller i =>
      have hh := (hT.going.inv.excl.caller i).mpr hm
      rw [hidle i] at hh
      cases hh

/-- The queue moves on while thread 0 is inside a call and nobody has gone to rest. -/
theorem Told.idle_of_stuck {l : Life} (hT : Told l) (hw : workerStep l.queue = none)
    (hc : callerStep l.queue 0 = none) : AtRest l.queue := by
  refine (stuck_iff_atRest hT.going.inv hT.going.ahead).mp ?_
  rintro a (rfl | ⟨i, rfl⟩)
  · exact hw
  · show callerStep l.queue i = none
    by_cases h0 : i = 0
    · rw [h0, hc]
    · have hi := hT.going.idle i fun hmem => h0 (Finset.mem_singleton.mp hmem)
      rw [callerStep, hi]

theorem ends_of_stuck {l : Life} (hT : Told l) (hstuck : Stuck lifeStep LifeAction.Own l) :
    l.owner = .destroyed ∨ ∃ dtor, l.owner = .threw dtor := by
  have howner : ownerStep l = none := hstuck .owner (by simp [LifeAction.Own])
  have hworker : workerStep l.queue = none :=
    Option.map_eq_none_iff.mp (hstuck .worker (by simp [LifeAction.Own]))
  -- inside a call, the owner or the worker goes on
  have hidle : callerStep l.queue 0 = none → l.queue.caller 0 = .idle :=
    fun hc => (hT.idle_of_stuck hworker hc).idle 0
  unfold ownerStep at howner
  cases ho : l.owner with
  | calls =>
    simp only [ho] at howner
    split at howner
    next hi => exact absurd (hidle (Option.map_eq_none_iff.mp howner)) hi
    next hi =>
      have hi' : l.queue.caller 0 = .idle := not_not.mp hi
      split at howner
      · simp [Life.queueStep, step_call hi'] at howner
      · cases howner
      · simp [Life.queueStep, step_call hi'] at howner
  | dtorStop =>
    simp only [ho] at howner
    split at howner
    next hi => exact absurd (hidle (Option.map_eq_none_iff.mp howner)) hi
    next => cases howner
  | join dtor =>
    simp only [ho] at howner
    cases howner
  | joinWait dtor =>
    obtain ⟨hr, hi⟩ := hT.waits dtor (Or.inr ho)
    have hrest : AtRest l.queue := hT.idle_of_stuck hworker (by rw [callerStep, hi])
    simp only [ho] at howner
    rcases hrest.worker with ⟨he, -⟩ | ⟨-, hr', -⟩
    · rw [if_pos he] at howner
      cases howner
    · rw [hr] at hr'
      cases hr'
  | threw dtor => exact Or.inr ⟨dtor, rfl⟩
  | destroyed => exact Or.inl rfl

/-- **A life ends.** Take any owner that calls `join` only after `stop`. The owner and
the worker take a bounded number of steps, and where they have come to an end the
queue is destroyed or `std::thread::join` has thrown, the latter only if the owner has
called `join`. A destroyed queue is at rest, with the worker gone. -/
theorem life_ends {calls : List Call} (hcalls : JoinsAfterStop calls) {as : List LifeAction}
    {l : Life} (h : run lifeStep (lifeInit calls) as = some l) :
    as.length ≤ 24 + (calls.map Call.price).sum + (as.map LifeAction.price).sum ∧
    (Stuck lifeStep LifeAction.Own l → l.owner = .destroyed ∨ ∃ dtor, l.owner = .threw dtor) ∧
    (.join ∉ calls → Stuck lifeStep LifeAction.Own l → l.owner = .destroyed) ∧
    (l.owner = .destroyed → AtRest l.queue) := by
  obtain ⟨hT, hlen⟩ := life_paid.run_paid as h (fun _ _ => trivial) (told_init hcalls)
  have hinit : (lifeInit calls).work = 24 + (calls.map Call.price).sum := by
    have hqueue : init.work {0} = 6 := by
      simp [State.work, State.workerWork, init, Caller.phase, Worker.phase]
    show init.work {0} + ((calls.map Call.price).sum + 18) = _
    omega
  refine ⟨by omega, ends_of_stuck hT, fun hno hstuck => ?_, hT.atRest⟩
  rcases ends_of_stuck hT hstuck with hd | ⟨dtor, hthrew⟩
  · exact hd
  · exact absurd hthrew ((safe_of_no_join hno as l h).2 dtor)

/-- An owner who enqueues a task and destroys the queue at once. -/
theorem life_ends_demo : ∃ l,
    run lifeStep (lifeInit [.op .enqueue])
      (List.replicate 15 .owner ++ [.worker] ++ List.replicate 3 .owner) = some l ∧
    l.owner = .destroyed ∧ AtRest l.queue := by
  have hcalls : JoinsAfterStop [.op .enqueue] := by
    intro pre post heq
    have hmem : Call.join ∈ [Call.op .enqueue] := by
      rw [heq]
      exact List.mem_append_right pre List.mem_cons_self
    simp at hmem
  have hends := life_ends hcalls (show run lifeStep (lifeInit [.op .enqueue])
    (List.replicate 15 .owner ++ [.worker] ++ List.replicate 3 .owner) = some _ from rfl)
  exact ⟨_, rfl, rfl, hends.2.2.2 rfl⟩

end Cor.Mt

import Cor.Mt.TaskQueueStep

/-!
# The life of a task queue

The owner of a `TaskQueue` makes some calls and destroys it. `join` is
`thread_.join()`, and the destructor of `TaskQueueImpl` calls `stop` and then `join`
itself. `std::thread::join` waits for the worker, after which the thread is not
joinable any more; invoked on a thread that is not joinable it throws, which in the
destructor terminates the program.

Nothing remembers that `join` was called. `life_safe_iff` says that the life of the
queue is safe exactly when the owner leaves joining to the destructor.

The owner is caller 0 of the machine of the queue; there are no other callers here.
-/

namespace Cor.Mt

open Cor.Lib (run run_cons_some run_append_some run_inv)

/-- A public call of the owner. -/
inductive Call
  | op (o : Op)
  | join
  deriving DecidableEq, Repr

/-- Where the owner is: in its calls, in the `stop` of the destructor, or in
`thread_.join()`, of the destructor or not: about to invoke it, waiting in it, or
thrown out of it. -/
inductive Owning
  | calls
  | dtorStop
  | join (dtor : Bool)
  | joinWait (dtor : Bool)
  | threw (dtor : Bool)
  | destroyed
  deriving DecidableEq, Repr

/-- The queue, whether `thread_` is joinable, the owner and the calls it has still to
make, and what each invocation of `std::thread::join` has found. -/
structure Life where
  queue : State
  joinable : Bool
  owner : Owning
  calls : List Call
  joins : List Bool

/-- The queue has been constructed. -/
def lifeInit (calls : List Call) : Life where
  queue := init
  joinable := true
  owner := .calls
  calls := calls
  joins := []

/-- The queue takes a step. -/
def Life.queueStep (l : Life) (a : Action) : Option Life :=
  (step l.queue a).map fun q => { l with queue := q }

/-- The next step of the owner. -/
def ownerStep (l : Life) : Option Life :=
  match l.owner with
  | .calls =>
    if l.queue.caller 0 ≠ .idle then l.queueStep (.caller 0)
    else
      match l.calls with
      | .op o :: rest => { l with calls := rest }.queueStep (.call 0 o)
      | .join :: rest => some { l with owner := .join false, calls := rest }
      -- ~TaskQueueImpl() { stop(); join(); }
      | [] => { l with owner := .dtorStop }.queueStep (.call 0 .stop)
  | .dtorStop =>
    if l.queue.caller 0 ≠ .idle then l.queueStep (.caller 0)
    else some { l with owner := .join true }
  -- thread_.join();
  | .join dtor =>
    some { l with
      joins := l.joins ++ [l.joinable]
      owner := if l.joinable then .joinWait dtor else .threw dtor }
  | .joinWait dtor =>
    if l.queue.worker = .exited then
      some { l with joinable := false, owner := if dtor then .destroyed else .calls }
    else none
  | .threw _ => none
  | .destroyed => none

inductive LifeAction
  | owner
  | worker
  | spurious
  deriving DecidableEq, Repr

def lifeStep (l : Life) : LifeAction → Option Life
  | .owner => ownerStep l
  | .worker => l.queueStep .worker
  | .spurious => l.queueStep .spurious

/-- `join` is only called after `stop`. -/
def JoinsAfterStop (calls : List Call) : Prop :=
  ∀ pre post, calls = pre ++ .join :: post → .op .stop ∈ pre

/-- Every invocation of `std::thread::join` finds a joinable thread, and none throws. -/
def LifeSafe (calls : List Call) : Prop :=
  ∀ (as : List LifeAction) (l : Life), run lifeStep (lifeInit calls) as = some l →
    false ∉ l.joins ∧ ∀ dtor, l.owner ≠ .threw dtor

/-! ## What the owner can do -/

inductive OwnerSpec (l : Life) : Life → Prop
  /-- a step inside a member function of the queue -/
  | inside {a : Action} {q : State} (hq : step l.queue a = some q) :
      OwnerSpec l { l with queue := q }
  | enters {o : Op} {rest : List Call} {q : State} (hc : l.calls = .op o :: rest)
      (hq : step l.queue (.call 0 o) = some q) : OwnerSpec l { l with calls := rest, queue := q }
  | joins {rest : List Call} (ho : l.owner = .calls) (hc : l.calls = .join :: rest) :
      OwnerSpec l { l with owner := .join false, calls := rest }
  | destroys {q : State} (ho : l.owner = .calls) (hc : l.calls = [])
      (hq : step l.queue (.call 0 .stop) = some q) :
      OwnerSpec l { l with owner := .dtorStop, queue := q }
  | stopped (ho : l.owner = .dtorStop) : OwnerSpec l { l with owner := .join true }
  | invokes {dtor : Bool} (ho : l.owner = .join dtor) :
      OwnerSpec l { l with
        joins := l.joins ++ [l.joinable]
        owner := if l.joinable then .joinWait dtor else .threw dtor }
  | joined {dtor : Bool} (ho : l.owner = .joinWait dtor) :
      OwnerSpec l { l with
        joinable := false, owner := if dtor then .destroyed else .calls }

theorem ownerStep_spec {l l' : Life} (h : ownerStep l = some l') : OwnerSpec l l' := by
  unfold ownerStep at h
  split at h
  next ho =>
    split at h
    · obtain ⟨q, hq, rfl⟩ := Option.map_eq_some_iff.mp h
      exact .inside hq
    · split at h
      next o rest hc =>
        obtain ⟨q, hq, rfl⟩ := Option.map_eq_some_iff.mp h
        exact .enters hc hq
      next rest hc =>
        obtain rfl := Option.some.inj h
        exact .joins ho hc
      next hc =>
        obtain ⟨q, hq, rfl⟩ := Option.map_eq_some_iff.mp h
        exact .destroys ho hc hq
  next ho =>
    split at h
    · obtain ⟨q, hq, rfl⟩ := Option.map_eq_some_iff.mp h
      exact .inside hq
    · obtain rfl := Option.some.inj h
      exact .stopped ho
  next dtor ho =>
    obtain rfl := Option.some.inj h
    exact .invokes ho
  next dtor ho =>
    split at h
    · obtain rfl := Option.some.inj h
      exact .joined ho
    · exact nomatch h
  next => exact nomatch h
  next => exact nomatch h

/-- A step of another thread is a step of the queue. -/
theorem lifeStep_cases {l l' : Life} {a : LifeAction} (h : lifeStep l a = some l') :
    OwnerSpec l l' := by
  cases a with
  | owner => exact ownerStep_spec h
  | worker =>
    obtain ⟨q, hq, rfl⟩ := Option.map_eq_some_iff.mp h
    exact .inside hq
  | spurious =>
    obtain ⟨q, hq, rfl⟩ := Option.map_eq_some_iff.mp h
    exact .inside hq

/-! ## Without a call of `join` -/

/-- Until the destructor invokes it, nobody has invoked `std::thread::join`. -/
structure Unjoined (l : Life) : Prop where
  calls : .join ∉ l.calls
  fresh : l.owner = .calls ∨ l.owner = .dtorStop ∨ l.owner = .join true → l.joinable = true
  dtor : l.owner ≠ .join false ∧ l.owner ≠ .joinWait false
  safe : false ∉ l.joins ∧ ∀ dtor, l.owner ≠ .threw dtor

theorem unjoined_step (l : Life) (a : LifeAction) (l' : Life) (hU : Unjoined l)
    (h : lifeStep l a = some l') : Unjoined l' := by
  have hcalls := hU.calls
  cases lifeStep_cases h with
  | inside hq => exact ⟨hcalls, hU.fresh, hU.dtor, hU.safe⟩
  | enters hc hq =>
    rw [hc, List.mem_cons, not_or] at hcalls
    exact ⟨hcalls.2, hU.fresh, hU.dtor, hU.safe⟩
  | joins ho hc =>
    rw [hc] at hcalls
    exact absurd List.mem_cons_self hcalls
  | destroys ho hc hq =>
    have hj := hU.fresh (Or.inl ho)
    exact ⟨hcalls, fun _ => hj, ⟨by simp, by simp⟩, hU.safe.1, by simp⟩
  | stopped ho =>
    have hj := hU.fresh (Or.inr (Or.inl ho))
    exact ⟨hcalls, fun _ => hj, ⟨by simp, by simp⟩, hU.safe.1, by simp⟩
  | @invokes dtor ho =>
    cases dtor with
    | false => exact absurd ho hU.dtor.1
    | true =>
      have hj := hU.fresh (Or.inr (Or.inr ho))
      have hsafe := hU.safe.1
      rw [hj]
      refine ⟨hcalls, fun _ => rfl, ⟨by simp, by simp⟩, ?_, by simp⟩
      simp [hsafe]
  | @joined dtor ho =>
    cases dtor with
    | false => exact absurd ho hU.dtor.2
    | true => exact ⟨hcalls, by simp, ⟨by simp, by simp⟩, hU.safe.1, by simp⟩

theorem safe_of_no_join {calls : List Call} (hno : .join ∉ calls) : LifeSafe calls := by
  intro as l hrun
  have hU : Unjoined (lifeInit calls) :=
    ⟨hno, fun _ => rfl, ⟨by simp [lifeInit], by simp [lifeInit]⟩, by simp [lifeInit],
      by simp [lifeInit]⟩
  exact (run_inv unjoined_step as hrun hU).safe

/-! ## With a call of `join` -/

/-- The owner is between two calls, and nobody holds the mutex. -/
structure Ready (l : Life) : Prop where
  owner : l.owner = .calls
  idle : l.queue.caller 0 = .idle
  free : l.queue.mutex = none
  awake : l.queue.worker ≠ .blocked

theorem Ready.caller_eq {l : Life} (hl : Ready l) :
    l.queue.caller = Function.update l.queue.caller 0 .idle := by
  rw [← hl.idle, Function.update_eq_self]

/-- Alone, the owner completes a call; the worker does not move. -/
theorem op_runs {l : Life} {o : Op} {rest : List Call} (hl : Ready l)
    (hc : l.calls = .op o :: rest) : ∃ as l', run lifeStep l as = some l' ∧ Ready l' ∧
      l'.calls = rest ∧ l'.joinable = l.joinable ∧ l'.queue.worker = l.queue.worker ∧
      (l.queue.isRunning = false ∨ o = .stop → l'.queue.isRunning = false) := by
  have hcaller := hl.caller_eq
  obtain ⟨howner, -, hfree, hawake⟩ := hl
  obtain ⟨⟨isRunning, tasks, mutex, worker, caller, calls, accepted, taken, started, finished,
    answers⟩, joinable, owner, lifeCalls, joins⟩ := l
  obtain rfl : owner = .calls := howner
  obtain rfl : mutex = none := hfree
  obtain rfl : lifeCalls = .op o :: rest := hc
  have hnotify : worker.notify = worker := by
    rcases notify_cases worker with hn | ⟨hb, -⟩
    · exact hn
    · exact absurd hb hawake
  have hstill : worker.notify ≠ .blocked := notify_ne_blocked worker
  rw [show caller = _ from hcaller]
  cases o with
  | empty =>
    exact ⟨[.owner, .owner, .owner, .owner], _, rfl, ⟨rfl, rfl, rfl, hawake⟩, rfl, rfl, rfl,
      fun h => h.elim id fun ho => nomatch ho⟩
  | stop =>
    cases isRunning with
    | false =>
      exact ⟨[.owner, .owner], _, rfl, ⟨rfl, rfl, rfl, hawake⟩, rfl, rfl, rfl, fun _ => rfl⟩
    | true =>
      exact ⟨[.owner, .owner, .owner, .owner, .owner, .owner, .owner], _, rfl,
        ⟨rfl, rfl, rfl, hstill⟩, rfl, rfl, hnotify, fun _ => rfl⟩
  | enqueue =>
    cases isRunning with
    | false =>
      exact ⟨[.owner, .owner, .owner], _, rfl, ⟨rfl, rfl, rfl, hawake⟩, rfl, rfl, rfl, fun _ => rfl⟩
    | true =>
      exact ⟨[.owner, .owner, .owner, .owner, .owner, .owner, .owner, .owner], _, rfl,
        ⟨rfl, rfl, rfl, hstill⟩, rfl, rfl, hnotify,
          fun h => h.elim id fun ho => nomatch ho⟩

/-- Alone, the owner completes calls that are not `join`, and after a `stop` among them
the flag is cleared. -/
theorem ops_run : ∀ (pre : List Call) {rest : List Call} {l : Life}, Ready l →
    l.calls = pre ++ rest → .join ∉ pre → ∃ as l', run lifeStep l as = some l' ∧ Ready l' ∧
      l'.calls = rest ∧ l'.joinable = l.joinable ∧ l'.queue.worker = l.queue.worker ∧
      (l.queue.isRunning = false ∨ .op .stop ∈ pre → l'.queue.isRunning = false)
  | [], rest, l, hl, hc, _ =>
    ⟨[], l, rfl, hl, hc, rfl, rfl, fun h => h.elim id fun hm => absurd hm List.not_mem_nil⟩
  | c :: pre, rest, l, hl, hc, hno => by
    rw [List.mem_cons, not_or] at hno
    cases c with
    | join => exact absurd rfl hno.1
    | op o =>
      obtain ⟨as, l₁, hrun, hl₁, hc₁, hj₁, hw₁, hstop₁⟩ := op_runs hl hc
      obtain ⟨bs, l₂, hrun₂, hl₂, hc₂, hj₂, hw₂, hstop₂⟩ := ops_run pre hl₁ hc₁ hno.2
      refine ⟨as ++ bs, l₂, run_append_some.mpr ⟨l₁, hrun, hrun₂⟩, hl₂, hc₂, hj₂.trans hj₁,
        hw₂.trans hw₁, ?_⟩
      rintro (hflag | hmem)
      · exact hstop₂ (Or.inl (hstop₁ (Or.inl hflag)))
      · rcases List.mem_cons.mp hmem with heq | hmem
        · exact hstop₂ (Or.inl (hstop₁ (Or.inr (Call.op.inj heq.symm))))
        · exact hstop₂ (Or.inr hmem)

/-- The calls up to the first `join`. -/
theorem split_at_join (calls : List Call) : ∃ pre rest, calls = pre ++ rest ∧ .join ∉ pre ∧
    (rest = [] ∨ ∃ post, rest = .join :: post) := by
  by_cases hmem : .join ∈ calls
  · obtain ⟨pre, post, heq, hno⟩ := List.eq_append_cons_of_mem hmem
    exact ⟨pre, .join :: post, heq, hno, Or.inr ⟨post, rfl⟩⟩
  · exact ⟨calls, [], (List.append_nil calls).symm, hmem, Or.inl rfl⟩

/-- The worker has not entered the loop when the flag is cleared: it exits, and the
join returns. -/
theorem first_join {l : Life} {post : List Call} (hl : Ready l)
    (hw : l.queue.worker = .loopCheck) (hstop : l.queue.isRunning = false)
    (hj : l.joinable = true) (hc : l.calls = .join :: post) :
    ∃ as l', run lifeStep l as = some l' ∧ Ready l' ∧ l'.joinable = false ∧
      l'.queue.isRunning = false := by
  have hcaller := hl.caller_eq
  obtain ⟨howner, -, hfree, -⟩ := hl
  obtain ⟨⟨isRunning, tasks, mutex, worker, caller, calls, accepted, taken, started, finished,
    answers⟩, joinable, owner, lifeCalls, joins⟩ := l
  obtain rfl : owner = .calls := howner
  obtain rfl : mutex = none := hfree
  obtain rfl : worker = .loopCheck := hw
  obtain rfl : isRunning = false := hstop
  obtain rfl : joinable = true := hj
  obtain rfl : lifeCalls = .join :: post := hc
  rw [show caller = _ from hcaller]
  have hawake : Worker.exited ≠ .blocked := fun h => nomatch h
  exact ⟨[.owner, .owner, .worker, .owner], _, rfl, ⟨rfl, rfl, rfl, hawake⟩, rfl, rfl⟩

/-- The next invocation of `std::thread::join` after one that returned: at the next
call of `join`, or in the destructor. -/
theorem second_join {l : Life} (hl : Ready l) (hj : l.joinable = false)
    (hstop : l.queue.isRunning = false) :
    ∃ as l', run lifeStep l as = some l' ∧ false ∈ l'.joins := by
  obtain ⟨pre, rest, hc, hno, hrest⟩ := split_at_join l.calls
  obtain ⟨as, l₁, hrun, hl₁, hc₁, hj₁, hw₁, hstop₁⟩ := ops_run pre hl hc hno
  have hstopped := hstop₁ (Or.inl hstop)
  rw [hj] at hj₁
  suffices hbad : ∃ bs l', run lifeStep l₁ bs = some l' ∧ false ∈ l'.joins by
    obtain ⟨bs, l', hrun', hmem⟩ := hbad
    exact ⟨as ++ bs, l', run_append_some.mpr ⟨l₁, hrun, hrun'⟩, hmem⟩
  have hcaller := hl₁.caller_eq
  obtain ⟨howner, -, -, -⟩ := hl₁
  obtain ⟨⟨isRunning, tasks, mutex, worker, caller, calls, accepted, taken, started, finished,
    answers⟩, joinable, owner, lifeCalls, joins⟩ := l₁
  obtain rfl : owner = .calls := howner
  obtain rfl : isRunning = false := hstopped
  obtain rfl : joinable = false := hj₁
  obtain rfl : lifeCalls = rest := hc₁
  rw [show caller = _ from hcaller]
  rcases hrest with rfl | ⟨post, rfl⟩
  · -- the destructor stops a stopped queue, and joins
    exact ⟨[.owner, .owner, .owner, .owner], _, rfl, List.mem_append_right _ List.mem_cons_self⟩
  · exact ⟨[.owner, .owner], _, rfl, List.mem_append_right _ List.mem_cons_self⟩

/-- **Life cycle.** `std::thread::join` is only ever invoked on a joinable thread, and
nothing throws, exactly when the owner never calls `join`. -/
theorem life_safe_iff (calls : List Call) (hcalls : JoinsAfterStop calls) :
    LifeSafe calls ↔ .join ∉ calls := by
  refine ⟨fun hsafe => ?_, safe_of_no_join⟩
  intro hmem
  obtain ⟨pre, post, heq, hno⟩ := List.eq_append_cons_of_mem hmem
  have hstop : .op .stop ∈ pre := hcalls pre post heq
  have hinit : Ready (lifeInit calls) := ⟨rfl, rfl, rfl, fun h => nomatch h⟩
  obtain ⟨as, l₁, hrun₁, hl₁, hc₁, hj₁, hw₁, hstop₁⟩ := ops_run pre hinit heq hno
  have hstopped := hstop₁ (Or.inr hstop)
  obtain ⟨bs, l₂, hrun₂, hl₂, hj₂, hstop₂⟩ := first_join hl₁ hw₁ hstopped hj₁ hc₁
  obtain ⟨cs, l₃, hrun₃, hfalse⟩ := second_join hl₂ hj₂ hstop₂
  have hrun : run lifeStep (lifeInit calls) (as ++ (bs ++ cs)) = some l₃ :=
    run_append_some.mpr ⟨l₁, hrun₁, run_append_some.mpr ⟨l₂, hrun₂, hrun₃⟩⟩
  exact (hsafe _ l₃ hrun).1 hfalse

/-- An owner who enqueues, stops, and leaves joining to the destructor. -/
theorem life_safe_demo : LifeSafe [.op .enqueue, .op .stop, .op .empty] ↔
    .join ∉ [Call.op .enqueue, .op .stop, .op .empty] :=
  life_safe_iff _ fun pre post h => by
    have hmem : Call.join ∈ [Call.op .enqueue, .op .stop, .op .empty] := by
      rw [h]
      exact List.mem_append_right pre List.mem_cons_self
    simp at hmem

/-- `stop(); join();` and then the destructor, which joins again. -/
theorem life_unsafe : JoinsAfterStop [.op .stop, .join] ∧ ¬ LifeSafe [.op .stop, .join] := by
  constructor
  · intro pre post h
    cases pre with
    | nil => exact nomatch h
    | cons c pre =>
      obtain ⟨rfl, -⟩ := List.cons.inj h
      exact List.mem_cons_self
  · intro hsafe
    let toJoin : List LifeAction := List.replicate 9 .owner ++ [.worker, .owner]
    have hrun := hsafe (toJoin ++ [.owner, .owner, .owner, .owner]) _ rfl
    exact hrun.2 true rfl

end Cor.Mt

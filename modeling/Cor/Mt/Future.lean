import Cor.Mt.Completion

/-!
# The future: functions for other threads, and waiting for them

`Future` and its `BasicCondition` as an interleaving of threads, in the manner of
`Completion`. Threads run the functions that `wrap` and `waker` return, each any number of
times, and any number of threads wait. `done` notifies with the mutex held; which blocked
thread `notify_one` reaches is the environment's choice.

What `before` and `after` do is not modelled, only that they return or throw. The history of
a run is in `ran`, the calls whose `before` returned, and `doneBy`, the calls of
`BasicCondition::done` by the call they were made in. A call is named by its number.
-/

namespace Cor.Mt.Future

open Cor.Lib
open Completion (Tid CvStatus)

/-- What a thread calls: a function returned by `wrap`, one returned by `waker`, or `wait`. -/
inductive Op
  | wrapped
  | waker
  | wait
  deriving DecidableEq, Repr

/-- Where a thread is. `blocked` is inside `done_.wait_for`, not notified; `woken` and `expired`
have to take the mutex again. -/
inductive Pc
  | before
  | callDone
  | doneLock
  | doneSet
  | doneNotify
  | doneUnlock
  | after
  | waitLock
  | waitTest
  | waitBlock
  | blocked
  | woken
  | expired
  | waitLeave (status : CvStatus)
  | waitReturn (status : CvStatus)
  deriving DecidableEq, Repr

/-- A call in progress, with its number. -/
structure Call where
  pc : Pc
  op : Op
  id : Nat
  deriving DecidableEq, Repr

/-- The members of `BasicCondition`, the calls in progress by their threads, how many calls
have begun, and the history. -/
structure State where
  awake : Bool
  mutex : Option Tid
  calls : Pool Call
  begun : Nat
  ran : List Nat
  doneBy : List (Op × Nat)

/-- `BasicCondition() : awake_(false)` -/
def init : State where
  awake := false
  mutex := none
  calls := ∅
  begun := 0
  ran := []
  doneBy := []

/-- The call `c` of thread `i` moves on to `pc`. -/
def State.goto (s : State) (i : Tid) (c : Call) (pc : Pc) : State :=
  { s with calls := s.calls.insert i { c with pc := pc } }

/-- The call of thread `i` is over. -/
def State.return (s : State) (i : Tid) : State :=
  { s with calls := s.calls.erase i }

/-- The call `c` of thread `i` takes the mutex and moves on to `pc`; not enabled while the
mutex is held. -/
def State.lock (s : State) (i : Tid) (c : Call) (pc : Pc) : Option State :=
  if s.mutex = none then some { s.goto i c pc with mutex := some i } else none

/-- The next step of the call `c` of thread `i`. A blocked call has none, and what happens
at `doneNotify` is for the environment to choose. -/
def callerStep (s : State) (i : Tid) (c : Call) : Option State :=
  match c.pc with
  -- the function returned by wrap: before(); c->done(); after();
  | .before => some { s.goto i c .callDone with ran := s.ran ++ [c.id] }
  | .callDone => some { s.goto i c .doneLock with doneBy := s.doneBy ++ [(c.op, c.id)] }
  | .after => some (s.return i)
  -- void BasicCondition::done()
  | .doneLock => s.lock i c .doneSet
  | .doneSet => some { s.goto i c .doneNotify with awake := true }
  | .doneNotify => none
  | .doneUnlock =>
    if c.op = .wrapped then some { s.goto i c .after with mutex := none }
    else some { s.return i with mutex := none }
  -- std::cv_status BasicCondition::wait(rel_time)
  | .waitLock => s.lock i c .waitTest
  | .waitTest => some (s.goto i c (if s.awake then .waitLeave .noTimeout else .waitBlock))
  | .waitBlock => some { s.goto i c .blocked with mutex := none }
  | .blocked => none
  | .woken => s.lock i c (.waitLeave .noTimeout)
  | .expired => s.lock i c (.waitLeave .timeout)
  | .waitLeave r => some { s.goto i c (.waitReturn r) with mutex := none }
  | .waitReturn _ => some (s.return i)

/-- How many threads are blocked, and not notified. -/
def State.blocked (s : State) : Nat := s.calls.tally (fun c => c.pc == .blocked) true

def Op.entry : Op → Pc
  | .wrapped => .before
  | .waker => .callDone
  | .wait => .waitLock

/-- A thread begins a call. -/
def State.enter (s : State) (i : Tid) (op : Op) : State :=
  { s with calls := s.calls.insert i ⟨op.entry, op, s.begun⟩, begun := s.begun + 1 }

/-- One move of the system: a thread begins a call or takes its next step in it, the `before`
or `after` of thread `i` throws, `notify_one` of thread `i` reaches thread `j`, or nobody,
thread `j` wakes up spuriously, or its timeout expires. -/
inductive Action
  | call (i : Tid) (op : Op)
  | caller (i : Tid)
  | throws (i : Tid)
  | notify (i j : Tid)
  | notifyNobody (i : Tid)
  | spurious (j : Tid)
  | expire (j : Tid)
  deriving DecidableEq, Repr

/-- The blocked call of thread `j` wakes up. -/
def State.wake (s : State) (j : Tid) : Option State :=
  match s.calls.lookup j with
  | some c => if c.pc = .blocked then some (s.goto j c .woken) else none
  | none => none

def step (s : State) : Action → Option State
  | .call i op => if s.calls.lookup i = none then some (s.enter i op) else none
  | .caller i =>
    match s.calls.lookup i with
    | some c => callerStep s i c
    | none => none
  | .throws i =>
    match s.calls.lookup i with
    | some c => if c.pc = .before ∨ c.pc = .after then some (s.return i) else none
    | none => none
  | .notify i j =>
    match s.calls.lookup i with
    | some c => if c.pc = .doneNotify then (s.goto i c .doneUnlock).wake j else none
    | none => none
  | .notifyNobody i =>
    match s.calls.lookup i with
    | some c =>
      if c.pc = .doneNotify ∧ s.blocked = 0 then some (s.goto i c .doneUnlock) else none
    | none => none
  | .spurious j => s.wake j
  | .expire j =>
    match s.calls.lookup j with
    | some c =>
      if c.pc = .blocked ∨ c.pc = .woken then some (s.goto j c .expired) else none
    | none => none

/-! ## What a step can do -/

/-- The moves of one call that change nothing but the mutex. -/
inductive Moves (awake : Bool) : Pc → Pc → Prop
  | doneLock : Moves awake .doneLock .doneSet
  | doneUnlock : Moves awake .doneUnlock .after
  | waitLock : Moves awake .waitLock .waitTest
  | waitAwake (h : awake = true) : Moves awake .waitTest (.waitLeave .noTimeout)
  | waitAsleep (h : awake = false) : Moves awake .waitTest .waitBlock
  | waitBlock : Moves awake .waitBlock .blocked
  | woken : Moves awake .woken (.waitLeave .noTimeout)
  | expired : Moves awake .expired (.waitLeave .timeout)
  | waitLeave {r : CvStatus} : Moves awake (.waitLeave r) (.waitReturn r)

/-- What a step does. -/
inductive Spec (s : State) : Action → State → Prop
  | enters {i : Tid} {op : Op} (hi : s.calls.lookup i = none) :
    Spec s (.call i op) (s.enter i op)
  | runs {i : Tid} {c : Call} (hi : s.calls.lookup i = some c) (hc : c.pc = .before) :
    Spec s (.caller i) { s.goto i c .callDone with ran := s.ran ++ [c.id] }
  | calls {i : Tid} {c : Call} (hi : s.calls.lookup i = some c) (hc : c.pc = .callDone) :
    Spec s (.caller i) { s.goto i c .doneLock with doneBy := s.doneBy ++ [(c.op, c.id)] }
  | sets {i : Tid} {c : Call} (hi : s.calls.lookup i = some c) (hc : c.pc = .doneSet) :
    Spec s (.caller i) { s.goto i c .doneNotify with awake := true }
  | moves {i : Tid} {c : Call} {pc : Pc} {m : Option Tid} (hi : s.calls.lookup i = some c)
      (hm : Moves s.awake c.pc pc) : Spec s (.caller i) { s.goto i c pc with mutex := m }
  | returns {a : Action} {i : Tid} {m : Option Tid} :
    Spec s a { s.return i with mutex := m }
  | notifies {i j : Tid} {c d : Call} (hi : s.calls.lookup i = some c) (hc : c.pc = .doneNotify)
      (hj : (s.goto i c .doneUnlock).calls.lookup j = some d) (hd : d.pc = .blocked) :
    Spec s (.notify i j) ((s.goto i c .doneUnlock).goto j d .woken)
  | notifiesNobody {i : Tid} {c : Call} (hi : s.calls.lookup i = some c)
      (hc : c.pc = .doneNotify) : Spec s (.notifyNobody i) (s.goto i c .doneUnlock)
  | wakes {j : Tid} {d : Call} (hj : s.calls.lookup j = some d) (hd : d.pc = .blocked) :
    Spec s (.spurious j) (s.goto j d .woken)
  | expires {j : Tid} {d : Call} (hj : s.calls.lookup j = some d)
      (hd : d.pc = .blocked ∨ d.pc = .woken) : Spec s (.expire j) (s.goto j d .expired)

theorem lock_some {s s' : State} {i : Tid} {c : Call} {pc : Pc} :
    s.lock i c pc = some s' ↔ s.mutex = none ∧ { s.goto i c pc with mutex := some i } = s' := by
  unfold State.lock
  split <;> simp_all

theorem wake_some {s s' : State} {j : Tid} (h : s.wake j = some s') :
    ∃ d, s.calls.lookup j = some d ∧ d.pc = .blocked ∧ s' = s.goto j d .woken := by
  unfold State.wake at h
  split at h
  · next d hj =>
    obtain ⟨hd, hs⟩ := Option.ite_none_right_eq_some.mp h
    exact ⟨d, hj, hd, (Option.some.inj hs).symm⟩
  · exact nomatch h

theorem callerStep_spec {s s' : State} {i : Tid} {c : Call} (hi : s.calls.lookup i = some c)
    (h : callerStep s i c = some s') : Spec s (.caller i) s' := by
  unfold callerStep at h
  split at h
  next hc =>
    obtain rfl := Option.some.inj h
    exact .runs hi hc
  next hc =>
    obtain rfl := Option.some.inj h
    exact .calls hi hc
  next hc =>
    obtain rfl := Option.some.inj h
    exact .returns
  next hc =>
    obtain ⟨-, rfl⟩ := lock_some.mp h
    exact .moves hi (hc ▸ .doneLock)
  next hc =>
    obtain rfl := Option.some.inj h
    exact .sets hi hc
  next => exact nomatch h
  next hc =>
    split at h
    · obtain rfl := Option.some.inj h
      exact .moves hi (hc ▸ .doneUnlock)
    · obtain rfl := Option.some.inj h
      exact .returns
  next hc =>
    obtain ⟨-, rfl⟩ := lock_some.mp h
    exact .moves hi (hc ▸ .waitLock)
  next hc =>
    obtain rfl := Option.some.inj h
    split
    · next ha => exact .moves hi (hc ▸ .waitAwake ha)
    · next ha => exact .moves hi (hc ▸ .waitAsleep (eq_false_of_ne_true ha))
  next hc =>
    obtain rfl := Option.some.inj h
    exact .moves hi (hc ▸ .waitBlock)
  next => exact nomatch h
  next hc =>
    obtain ⟨-, rfl⟩ := lock_some.mp h
    exact .moves hi (hc ▸ .woken)
  next hc =>
    obtain ⟨-, rfl⟩ := lock_some.mp h
    exact .moves hi (hc ▸ .expired)
  next r hc =>
    obtain rfl := Option.some.inj h
    exact .moves hi (hc ▸ .waitLeave)
  next r hc =>
    obtain rfl := Option.some.inj h
    exact .returns

/-- **The inversion lemma of `step`.** -/
theorem step_spec {s s' : State} {a : Action} (h : step s a = some s') : Spec s a s' := by
  cases a with
  | call i op =>
    obtain ⟨hi, hs⟩ := Option.ite_none_right_eq_some.mp h
    obtain rfl := Option.some.inj hs
    exact .enters hi
  | caller i =>
    simp only [step] at h
    split at h
    · next c hi => exact callerStep_spec hi h
    · exact nomatch h
  | throws i =>
    simp only [step] at h
    split at h
    · obtain ⟨-, hs⟩ := Option.ite_none_right_eq_some.mp h
      obtain rfl := Option.some.inj hs
      exact .returns
    · exact nomatch h
  | notify i j =>
    simp only [step] at h
    split at h
    · next c hi =>
      obtain ⟨hc, hwake⟩ := Option.ite_none_right_eq_some.mp h
      obtain ⟨d, hj, hd, rfl⟩ := wake_some hwake
      exact .notifies hi hc hj hd
    · exact nomatch h
  | notifyNobody i =>
    simp only [step] at h
    split at h
    · next c hi =>
      obtain ⟨⟨hc, -⟩, hs⟩ := Option.ite_none_right_eq_some.mp h
      obtain rfl := Option.some.inj hs
      exact .notifiesNobody hi hc
    · exact nomatch h
  | spurious j =>
    obtain ⟨d, hj, hd, rfl⟩ := wake_some h
    exact .wakes hj hd
  | expire j =>
    simp only [step] at h
    split at h
    · next d hj =>
      obtain ⟨hd, hs⟩ := Option.ite_none_right_eq_some.mp h
      obtain rfl := Option.some.inj hs
      exact .expires hj hd
    · exact nomatch h

end Cor.Mt.Future

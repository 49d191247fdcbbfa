import Cor.Lib.Pool
import Cor.Lib.Run

/-!
# The completion: callers and the condition variable

`Completion` as an interleaving of threads, in the manner of `TaskQueue`: a thread
inside a member function is a program counter, a step executes the source up to the
next point between two accesses to shared memory, and `mutex_` is explicit.

Any number of threads can be inside a member function at once, one call each, and
any number of them can wait. So the condition variable is not a part of one thread
here: `done_.wait` releases the mutex and blocks in one step, `notify_one` unblocks one
of the blocked threads, the choice of which is the environment's, or none when there
is none, a blocked thread can be woken for no reason, and the timeout of `wait_for`
can expire until the thread has the mutex again.

The history of a run is in `values`, what `counter_` has been, one entry for each time
it was written. `counter_` is a `long`; that it overflows is not modelled.
-/

namespace Cor.Mt.Completion

open Cor.Lib

abbrev Tid := Nat

/-- `std::cv_status` -/
inductive CvStatus
  | noTimeout
  | timeout
  deriving DecidableEq, Repr

/-- Where a thread is. `timed` tells `wait_for` from `wait`, which returns nothing: its
status is always `noTimeout`. `blocked` is inside `done_.wait`, not notified; `woken` and
`expired` have to take the mutex again. -/
inductive Pc
  | upLock
  | upAdd
  | upUnlock
  | downLock
  | downSub
  | downTest
  | downUnlock
  | downNotify
  | downLeave
  | waitLock (timed : Bool)
  | waitTest (timed : Bool)
  | waitBlock (timed : Bool)
  | blocked (timed : Bool)
  | woken (timed : Bool)
  | expired
  | waitLeave (status : CvStatus)
  | waitReturn (status : CvStatus)
  deriving DecidableEq, Repr

/-- A call in progress, and the entry of `values` that `counter_` had when it began. -/
structure Call where
  pc : Pc
  since : Nat
  deriving DecidableEq, Repr

/-- The members of `Completion`, the calls in progress by their threads, and the history:
`values` as above, `ups` how often `counter_` was incremented, and `downs` how many calls of
`down` have begun. -/
structure State where
  counter : Int
  mutex : Option Tid
  calls : Pool Call
  values : List Int
  ups : Nat
  downs : Nat

/-- `Completion() : counter_(0)` -/
def init : State where
  counter := 0
  mutex := none
  calls := ∅
  values := [0]
  ups := 0
  downs := 0

/-- The call `c` of thread `i` moves on to `pc`. -/
def State.goto (s : State) (i : Tid) (c : Call) (pc : Pc) : State :=
  { s with calls := s.calls.insert i { c with pc := pc } }

/-- The call of thread `i` returns. -/
def State.return (s : State) (i : Tid) : State :=
  { s with calls := s.calls.erase i }

/-- The call `c` of thread `i` takes the mutex and moves on to `pc`; not enabled while the
mutex is held. -/
def State.lock (s : State) (i : Tid) (c : Call) (pc : Pc) : Option State :=
  if s.mutex = none then some { s.goto i c pc with mutex := some i } else none

/-- The next step of the call `c` of thread `i`. A blocked call has none, and what happens
at `downNotify` is for the environment to choose. -/
def callerStep (s : State) (i : Tid) (c : Call) : Option State :=
  match c.pc with
  -- void Completion::up()
  | .upLock => s.lock i c .upAdd
  | .upAdd =>
    some { s.goto i c .upUnlock with
      counter := s.counter + 1, values := s.values ++ [s.counter + 1], ups := s.ups + 1 }
  | .upUnlock => some { s.return i with mutex := none }
  -- void Completion::down()
  | .downLock => s.lock i c .downSub
  | .downSub =>
    some { s.goto i c .downTest with
      counter := s.counter - 1, values := s.values ++ [s.counter - 1] }
  | .downTest => some (s.goto i c (if s.counter = 0 then .downUnlock else .downLeave))
  | .downUnlock => some { s.goto i c .downNotify with mutex := none }
  | .downNotify => none
  | .downLeave => some { s.return i with mutex := none }
  -- void Completion::wait(), std::cv_status Completion::wait_for(timeout)
  | .waitLock t => s.lock i c (.waitTest t)
  | .waitTest t =>
    some (s.goto i c (if s.counter = 0 then .waitLeave .noTimeout else .waitBlock t))
  | .waitBlock t => some { s.goto i c (.blocked t) with mutex := none }
  | .blocked _ => none
  | .woken _ => s.lock i c (.waitLeave .noTimeout)
  | .expired => s.lock i c (.waitLeave .timeout)
  | .waitLeave r => some { s.goto i c (.waitReturn r) with mutex := none }
  | .waitReturn _ => some (s.return i)

def Pc.isBlocked : Pc → Bool
  | .blocked _ => true
  | _ => false

/-- The thread is between its locked decrement of `counter_` and its call of `notify_one`, or
has yet to see that it need not make one. -/
def Pc.owesNotify : Pc → Bool
  | .downTest | .downUnlock | .downNotify => true
  | _ => false

/-- How many calls in progress are at a counter with `f`. -/
def State.count (s : State) (f : Pc → Bool) : Nat := s.calls.tally (fun c => f c.pc) true

/-- How many threads are blocked, and not notified. -/
def State.blocked (s : State) : Nat := s.count Pc.isBlocked

/-- How many threads owe a notification. -/
def State.owing (s : State) : Nat := s.count Pc.owesNotify

inductive Op
  | up
  | down
  | wait
  | waitFor
  deriving DecidableEq, Repr

def Op.entry : Op → Pc
  | .up => .upLock
  | .down => .downLock
  | .wait => .waitLock false
  | .waitFor => .waitLock true

/-- A thread enters a member function. -/
def State.enter (s : State) (i : Tid) (op : Op) : State :=
  { s with
    calls := s.calls.insert i ⟨op.entry, s.values.length - 1⟩
    downs := if op = .down then s.downs + 1 else s.downs }

/-- One move of the system: a thread enters a member function or takes its next step in it,
`notify_one` of thread `i` reaches thread `j`, or nobody, thread `j` wakes up spuriously, or
its timeout expires. -/
inductive Action
  | call (i : Tid) (op : Op)
  | caller (i : Tid)
  | notify (i j : Tid)
  | notifyNobody (i : Tid)
  | spurious (j : Tid)
  | expire (j : Tid)
  deriving DecidableEq, Repr

/-- The blocked call of thread `j` wakes up. -/
def State.wake (s : State) (j : Tid) : Option State :=
  match s.calls.lookup j with
  | some ⟨.blocked t, since⟩ => some (s.goto j ⟨.blocked t, since⟩ (.woken t))
  | _ => none

/-- The timeout of thread `j` expires. -/
def State.expire (s : State) (j : Tid) : Option State :=
  match s.calls.lookup j with
  | some ⟨.blocked true, since⟩ => some (s.goto j ⟨.blocked true, since⟩ .expired)
  | some ⟨.woken true, since⟩ => some (s.goto j ⟨.woken true, since⟩ .expired)
  | _ => none

def step (s : State) : Action → Option State
  | .call i op => if s.calls.lookup i = none then some (s.enter i op) else none
  | .caller i => (s.calls.lookup i).bind fun c => callerStep s i c
  | .notify i j =>
    if (s.calls.lookup i).map Call.pc = some .downNotify then (s.return i).wake j else none
  | .notifyNobody i =>
    if (s.calls.lookup i).map Call.pc = some .downNotify ∧ s.blocked = 0 then some (s.return i)
    else none
  | .spurious j => s.wake j
  | .expire j => s.expire j

end Cor.Mt.Completion

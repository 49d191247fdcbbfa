import Cor.Mt.Completion

/-!
# What one step of the completion can do

`Spec` is the inversion of `step`: what it does to the members, to the history and to the
calls in progress. A change to a member function of `Completion` is a change to this file and
the one before it; the invariants read `Spec` only.
-/

namespace Cor.Mt.Completion

open Cor.Lib

/-- The counters at which a thread holds the mutex. -/
def Pc.holds : Pc → Bool
  | .upAdd | .upUnlock => true
  | .downSub | .downTest | .downUnlock | .downLeave => true
  | .waitTest _ | .waitBlock _ | .waitLeave _ => true
  | _ => false

/-- The call of `down` has not decremented `counter_` yet. -/
def Pc.owesDecrement : Pc → Bool
  | .downLock | .downSub => true
  | _ => false

/-- How many calls of `down` have still to decrement `counter_`. -/
def State.pending (s : State) : Nat := s.count Pc.owesDecrement

/-- The thread that an action of the condition variable wakes up. -/
def Action.wakes : Action → Option Tid
  | .notify _ j | .spurious j => some j
  | _ => none

/-- The moves of one call that take the mutex. -/
inductive Takes : Pc → Pc → Prop
  | up : Takes .upLock .upAdd
  | down : Takes .downLock .downSub
  | wait {t : Bool} : Takes (.waitLock t) (.waitTest t)
  | woken {t : Bool} : Takes (.woken t) (.waitLeave .noTimeout)
  | expired : Takes .expired (.waitLeave .timeout)

/-- The moves of one call that release the mutex. -/
inductive Releases : Pc → Pc → Prop
  | down : Releases .downUnlock .downNotify
  | block {t : Bool} : Releases (.waitBlock t) (.blocked t)
  | leave {r : CvStatus} : Releases (.waitLeave r) (.waitReturn r)

/-- The tests of `counter_`, all with the mutex held. -/
inductive Tests (counter : Int) : Pc → Pc → Prop
  | downZero (h : counter = 0) : Tests counter .downTest .downUnlock
  | down (h : counter ≠ 0) : Tests counter .downTest .downLeave
  | waitZero {t : Bool} (h : counter = 0) : Tests counter (.waitTest t) (.waitLeave .noTimeout)
  | wait {t : Bool} (h : counter ≠ 0) : Tests counter (.waitTest t) (.waitBlock t)

/-- The timeout can expire until the thread has the mutex again. -/
inductive Expires : Pc → Prop
  | blocked : Expires (.blocked true)
  | woken : Expires (.woken true)

/-- What a step does. -/
inductive Spec (s : State) : Action → State → Prop
  | enters {i : Tid} {op : Op} (hi : s.calls.lookup i = none) :
      Spec s (.call i op) (s.enter i op)
  | takes {i : Tid} {c : Call} {pc : Pc} (hi : s.calls.lookup i = some c)
      (hm : s.mutex = none) (ht : Takes c.pc pc) :
      Spec s (.caller i) { s.goto i c pc with mutex := some i }
  | adds {i : Tid} {c : Call} (hi : s.calls.lookup i = some c) (hc : c.pc = .upAdd) :
      Spec s (.caller i) { s.goto i c .upUnlock with
        counter := s.counter + 1, values := s.values ++ [s.counter + 1], ups := s.ups + 1 }
  | subtracts {i : Tid} {c : Call} (hi : s.calls.lookup i = some c) (hc : c.pc = .downSub) :
      Spec s (.caller i) { s.goto i c .downTest with
        counter := s.counter - 1, values := s.values ++ [s.counter - 1] }
  | tests {i : Tid} {c : Call} {pc : Pc} (hi : s.calls.lookup i = some c)
      (ht : Tests s.counter c.pc pc) : Spec s (.caller i) (s.goto i c pc)
  | releases {i : Tid} {c : Call} {pc : Pc} (hi : s.calls.lookup i = some c)
      (hr : Releases c.pc pc) : Spec s (.caller i) { s.goto i c pc with mutex := none }
  | leaves {i : Tid} {c : Call} (hi : s.calls.lookup i = some c)
      (hc : c.pc = .upUnlock ∨ c.pc = .downLeave) :
      Spec s (.caller i) { s.return i with mutex := none }
  | returns {i : Tid} {c : Call} {r : CvStatus} (hi : s.calls.lookup i = some c)
      (hc : c.pc = .waitReturn r) : Spec s (.caller i) (s.return i)
  | notifies {i j : Tid} {c d : Call} {t : Bool} (hi : s.calls.lookup i = some c)
      (hc : c.pc = .downNotify) (hj : (s.return i).calls.lookup j = some d)
      (hd : d.pc = .blocked t) :
      Spec s (.notify i j) ((s.return i).goto j d (.woken t))
  | notifiesNobody {i : Tid} {c : Call} (hi : s.calls.lookup i = some c)
      (hc : c.pc = .downNotify) (hb : s.blocked = 0) : Spec s (.notifyNobody i) (s.return i)
  | wakes {j : Tid} {d : Call} {t : Bool} (hj : s.calls.lookup j = some d)
      (hd : d.pc = .blocked t) : Spec s (.spurious j) (s.goto j d (.woken t))
  | expires {j : Tid} {d : Call} (hj : s.calls.lookup j = some d) (hd : Expires d.pc) :
      Spec s (.expire j) (s.goto j d .expired)

theorem step_caller {s : State} {i : Tid} {c : Call} (hi : s.calls.lookup i = some c) :
    step s (.caller i) = callerStep s i c := by
  simp only [step, hi, Option.bind_some]

/-- What a step `a` to `s'` does to a call that is in progress before and after it. -/
inductive Moved (s : State) (a : Action) (s' : State) (j : Tid) : Pc → Pc → Prop
  | takes {p q : Pc} (hm : s.mutex = none) (hm' : s'.mutex = some j) (ht : Takes p q) :
      Moved s a s' j p q
  | adds (hm : s'.mutex = s.mutex) : Moved s a s' j .upAdd .upUnlock
  | subtracts (hm : s'.mutex = s.mutex) : Moved s a s' j .downSub .downTest
  | tests {p q : Pc} (hm : s'.mutex = s.mutex) (hn : s'.counter = s.counter)
      (ht : Tests s.counter p q) : Moved s a s' j p q
  | releases {p q : Pc} (hr : Releases p q) : Moved s a s' j p q
  | wakes {t : Bool} (hw : j ∈ a.wakes) : Moved s a s' j (.blocked t) (.woken t)
  | expires {p : Pc} (hp : Expires p) : Moved s a s' j p .expired

theorem lock_some {s s' : State} {i : Tid} {c : Call} {pc : Pc} :
    s.lock i c pc = some s' ↔ s.mutex = none ∧ { s.goto i c pc with mutex := some i } = s' := by
  unfold State.lock
  split <;> simp_all

theorem wake_some {s s' : State} {j : Tid} (h : s.wake j = some s') :
    ∃ d t, s.calls.lookup j = some d ∧ d.pc = .blocked t ∧ s' = s.goto j d (.woken t) := by
  unfold State.wake at h
  split at h
  next t since hj => exact ⟨⟨.blocked t, since⟩, t, hj, rfl, (Option.some.inj h).symm⟩
  next => exact nomatch h

theorem expire_some {s s' : State} {j : Tid} (h : s.expire j = some s') :
    ∃ d, s.calls.lookup j = some d ∧ Expires d.pc ∧ s' = s.goto j d .expired := by
  unfold State.expire at h
  split at h
  next since hj => exact ⟨⟨.blocked true, since⟩, hj, .blocked, (Option.some.inj h).symm⟩
  next since hj => exact ⟨⟨.woken true, since⟩, hj, .woken, (Option.some.inj h).symm⟩
  next => exact nomatch h

theorem callerStep_spec {s s' : State} {i : Tid} {c : Call} (hi : s.calls.lookup i = some c)
    (h : callerStep s i c = some s') : Spec s (.caller i) s' := by
  unfold callerStep at h
  split at h
  next hc =>
    obtain ⟨hm, rfl⟩ := lock_some.mp h
    exact .takes hi hm (hc ▸ .up)
  next hc =>
    obtain rfl := Option.some.inj h
    exact .adds hi hc
  next hc =>
    obtain rfl := Option.some.inj h
    exact .leaves hi (Or.inl hc)
  next hc =>
    obtain ⟨hm, rfl⟩ := lock_some.mp h
    exact .takes hi hm (hc ▸ .down)
  next hc =>
    obtain rfl := Option.some.inj h
    exact .subtracts hi hc
  next hc =>
    obtain rfl := Option.some.inj h
    split
    next hz => exact .tests hi (hc ▸ .downZero hz)
    next hz => exact .tests hi (hc ▸ .down hz)
  next hc =>
    obtain rfl := Option.some.inj h
    exact .releases hi (hc ▸ .down)
  next => exact nomatch h
  next hc =>
    obtain rfl := Option.some.inj h
    exact .leaves hi (Or.inr hc)
  next t hc =>
    obtain ⟨hm, rfl⟩ := lock_some.mp h
    exact .takes hi hm (hc ▸ .wait)
  next t hc =>
    obtain rfl := Option.some.inj h
    split
    next hz => exact .tests hi (hc ▸ .waitZero hz)
    next hz => exact .tests hi (hc ▸ .wait hz)
  next t hc =>
    obtain rfl := Option.some.inj h
    exact .releases hi (hc ▸ .block)
  next => exact nomatch h
  next t hc =>
    obtain ⟨hm, rfl⟩ := lock_some.mp h
    exact .takes hi hm (hc ▸ .woken)
  next hc =>
    obtain ⟨hm, rfl⟩ := lock_some.mp h
    exact .takes hi hm (hc ▸ .expired)
  next r hc =>
    obtain rfl := Option.some.inj h
    exact .releases hi (hc ▸ .leave)
  next r hc =>
    obtain rfl := Option.some.inj h
    exact .returns hi hc

theorem step_spec {s s' : State} {a : Action} (h : step s a = some s') : Spec s a s' := by
  cases a with
  | call i op =>
    obtain ⟨hi, rfl⟩ := Option.ite_none_right_eq_some.mp h |>.imp_right Option.some.inj
    exact .enters hi
  | caller i =>
    obtain ⟨c, hi, hstep⟩ := Option.bind_eq_some_iff.mp h
    exact callerStep_spec hi hstep
  | notify i j =>
    obtain ⟨hpc, hwake⟩ := Option.ite_none_right_eq_some.mp h
    obtain ⟨c, hi, hc⟩ := Option.map_eq_some_iff.mp hpc
    obtain ⟨d, t, hj, hd, rfl⟩ := wake_some hwake
    exact .notifies hi hc hj hd
  | notifyNobody i =>
    obtain ⟨⟨hpc, hb⟩, hret⟩ := Option.ite_none_right_eq_some.mp h
    obtain ⟨c, hi, hc⟩ := Option.map_eq_some_iff.mp hpc
    obtain rfl := Option.some.inj hret
    exact .notifiesNobody hi hc hb
  | spurious j =>
    obtain ⟨d, t, hj, hd, rfl⟩ := wake_some h
    exact .wakes hj hd
  | expire j =>
    obtain ⟨d, hj, hd, rfl⟩ := expire_some h
    exact .expires hj hd

/-- After a move of thread `i`, a call that is in progress is its call, or is where it was. -/
theorem goto_call {s s' : State} {i j : Tid} {c d : Call} {pc : Pc}
    (hi : s.calls.lookup i = some c) (hj : (s.goto i c pc).calls.lookup j = some d)
    (hmoved : Moved s (.caller i) s' i c.pc pc) :
    (s.calls.lookup j = some d ∧ Action.caller i ≠ .caller j) ∨
    ∃ c, s.calls.lookup j = some c ∧ d.since = c.since ∧ Moved s (.caller i) s' j c.pc d.pc := by
  rcases Pool.lookup_insert_some hj with ⟨rfl, rfl⟩ | ⟨hne, hj⟩
  · exact Or.inr ⟨c, hi, rfl, hmoved⟩
  · exact Or.inl ⟨hj, fun h => hne (Action.caller.inj h).symm⟩

/-- A call that is in progress after a step has just begun, or it is where it was and another
thread moved, or it made a move. -/
theorem Spec.call {s s' : State} {a : Action} {j : Tid} {d : Call} (h : Spec s a s')
    (hj : s'.calls.lookup j = some d) :
    (∃ op : Op, d = ⟨op.entry, s.values.length - 1⟩) ∨
    (s.calls.lookup j = some d ∧ a ≠ .caller j) ∨
    ∃ c, s.calls.lookup j = some c ∧ d.since = c.since ∧ Moved s a s' j c.pc d.pc := by
  cases h with
  | @enters i op hi =>
    rcases Pool.lookup_insert_some hj with ⟨rfl, rfl⟩ | ⟨hne, hj⟩
    · exact Or.inl ⟨op, rfl⟩
    · exact Or.inr (Or.inl ⟨hj, fun h => nomatch h⟩)
  | takes hi hm ht => exact Or.inr (goto_call hi hj (.takes hm rfl ht))
  | adds hi hc => exact Or.inr (goto_call hi hj (hc ▸ .adds rfl))
  | subtracts hi hc => exact Or.inr (goto_call hi hj (hc ▸ .subtracts rfl))
  | tests hi ht => exact Or.inr (goto_call hi hj (.tests rfl rfl ht))
  | releases hi hr => exact Or.inr (goto_call hi hj (.releases hr))
  | leaves | returns =>
    obtain ⟨hne, hj⟩ := Pool.lookup_erase_some hj
    exact Or.inr (Or.inl ⟨hj, fun h => hne (Action.caller.inj h).symm⟩)
  | notifiesNobody =>
    exact Or.inr (Or.inl ⟨(Pool.lookup_erase_some hj).2, fun h => nomatch h⟩)
  | @notifies i k c e t hi hc hk he =>
    rcases Pool.lookup_insert_some hj with ⟨rfl, rfl⟩ | ⟨hne, hj⟩
    · exact Or.inr (Or.inr ⟨e, (Pool.lookup_erase_some hk).2, rfl, he ▸ .wakes rfl⟩)
    · exact Or.inr (Or.inl ⟨(Pool.lookup_erase_some hj).2, fun h => nomatch h⟩)
  | @wakes k e t hk he =>
    rcases Pool.lookup_insert_some hj with ⟨rfl, rfl⟩ | ⟨hne, hj⟩
    · exact Or.inr (Or.inr ⟨e, hk, rfl, he ▸ .wakes rfl⟩)
    · exact Or.inr (Or.inl ⟨hj, fun h => nomatch h⟩)
  | @expires k e hk he =>
    rcases Pool.lookup_insert_some hj with ⟨rfl, rfl⟩ | ⟨hne, hj⟩
    · exact Or.inr (Or.inr ⟨e, hk, rfl, .expires he⟩)
    · exact Or.inr (Or.inl ⟨hj, fun h => nomatch h⟩)

/-- The history only grows, and ends with the value of the counter. -/
theorem Spec.values {s s' : State} {a : Action} (h : Spec s a s') :
    (s'.values = s.values ∧ s'.counter = s.counter) ∨ s'.values = s.values ++ [s'.counter] := by
  cases h with
  | adds | subtracts => exact Or.inr rfl
  | _ => exact Or.inl ⟨rfl, rfl⟩

end Cor.Mt.Completion

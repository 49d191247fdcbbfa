import Cor.Mt.CompletionStep

/-!
# When a completion reports that the counter was zero

`wait` and `wait_for` do not test `counter_` again after `done_.wait`, as `TaskQueueImpl::loop`
does with the predicate it passes to `ready_.wait`. What they report is right when no wake-up
comes too early (`never_early`), and a wake-up that does can make it wrong (`returns_early`). A
wake-up that comes too early is spurious, or it is the `notify_one` of a `down` that took
`counter_` to zero before the call that it reaches began.
-/

namespace Cor.Mt.Completion

open Cor.Lib

/-- `counter_` was zero at some instant since the call `c` began. -/
def State.SawZero (s : State) (c : Call) : Prop := 0 ∈ s.values.drop c.since

/-- A thread is only woken up, by `notify_one` or spuriously, when `counter_` has been zero
since its call began. -/
def WakesAfterZero (s : State) (a : Action) : Prop :=
  ∀ j ∈ a.wakes, ∀ c ∈ s.calls.lookup j, s.SawZero c

instance (s : State) (a : Action) : Decidable (WakesAfterZero s a) :=
  inferInstanceAs (Decidable (∀ j ∈ a.wakes, ∀ c ∈ s.calls.lookup j, 0 ∈ s.values.drop c.since))

/-- The counters from which a call is certain to report that `counter_` was zero. -/
def Pc.reports : Pc → Bool
  | .woken _ => true
  | .waitLeave r | .waitReturn r => r == .noTimeout
  | _ => false

/-- What the history records, and that what a call is certain to report is so. -/
structure Reported (s : State) : Prop where
  last : s.values.getLast? = some s.counter
  since : ∀ i c, s.calls.lookup i = some c → c.since < s.values.length
  reports : ∀ i c, s.calls.lookup i = some c → c.pc.reports = true → s.SawZero c

/-- When `counter_` is zero, every call has seen that. -/
theorem Reported.sawZero {s : State} {i : Tid} {c : Call} (hR : Reported s)
    (hi : s.calls.lookup i = some c) (hz : s.counter = 0) : s.SawZero c := by
  have hlast := hR.last
  rw [hz] at hlast
  have hlt := hR.since i c hi
  have hdrop : (s.values.drop c.since).getLast? = some 0 := by
    rw [List.getLast?_drop, if_neg (by omega), hlast]
  exact List.mem_of_getLast? hdrop

/-- How a call gets to a counter that reports. -/
theorem Moved.reports {s s' : State} {a : Action} {j : Tid} {p q : Pc} (h : Moved s a s' j p q)
    (hq : q.reports = true) : p.reports = true ∨ s.counter = 0 ∨ j ∈ a.wakes := by
  cases h with
  | takes hm hm' ht =>
    cases ht with
    | woken => exact Or.inl rfl
    | _ => exact nomatch hq
  | tests hm hn ht =>
    cases ht with
    | waitZero hz => exact Or.inr (Or.inl hz)
    | _ => exact nomatch hq
  | releases hr =>
    cases hr with
    | leave => exact Or.inl hq
    | _ => exact nomatch hq
  | wakes hw => exact Or.inr (Or.inr hw)
  | adds | subtracts | expires => exact nomatch hq

theorem reported_init : Reported init where
  last := rfl
  since _ _ hi := nomatch hi
  reports _ _ hi := nomatch hi

theorem reported_step (s : State) (a : Action) (s' : State) (hR : Reported s)
    (hC : WakesAfterZero s a) (h : step s a = some s') : Reported s' := by
  have hspec := step_spec h
  have hlen : s.values.length ≤ s'.values.length := by
    rcases hspec.values with ⟨hv, -⟩ | hv
    · rw [hv]
    · rw [hv, List.length_append]
      omega
  have hpos : 0 < s.values.length := by
    have hlast := hR.last
    cases hvs : s.values with
    | nil => simp [hvs] at hlast
    | cons v vs => simp
  -- what a call has seen it goes on having seen
  have hkeep : ∀ c d : Call, d.since = c.since → s.SawZero c → s'.SawZero d := by
    intro c d hsince hsaw
    unfold State.SawZero at hsaw ⊢
    rw [hsince]
    rcases hspec.values with ⟨hv, -⟩ | hv
    · rwa [hv]
    · rw [hv, List.drop_append]
      exact List.mem_append_left _ hsaw
  refine ⟨?_, ?_, ?_⟩
  · rcases hspec.values with ⟨hv, hc⟩ | hv
    · rw [hv, hc, hR.last]
    · rw [hv, List.getLast?_concat]
  · intro j d hj
    rcases hspec.call hj with ⟨op, rfl⟩ | ⟨hj, -⟩ | ⟨c, hc, hsince, -⟩
    · show s.values.length - 1 < s'.values.length
      omega
    · have hlt := hR.since j d hj
      omega
    · have hlt := hR.since j c hc
      omega
  · intro j d hj hrep
    rcases hspec.call hj with ⟨op, rfl⟩ | ⟨hj, -⟩ | ⟨c, hc, hsince, hmoved⟩
    · cases op <;> exact nomatch hrep
    · exact hkeep d d rfl (hR.reports j d hj hrep)
    · apply hkeep c d hsince
      rcases hmoved.reports hrep with hcrep | hz | hwakes
      · exact hR.reports j c hc hcrep
      · exact hR.sawZero hc hz
      · exact hC j hwakes c hc

/-- **Never early.** When every wake-up is of a thread during whose call `counter_` has been
zero, `wait` returns, and `wait_for` returns `no_timeout`, only when it has been zero between
the call and the return. -/
theorem never_early {as : List Action} {s : State} (hrun : run step init as = some s)
    (hwakes : Along step WakesAfterZero init as) {j : Tid} {c : Call}
    (hj : s.calls.lookup j = some c) (hret : c.pc = .waitReturn .noTimeout) : s.SawZero c := by
  have hR : Reported s := run_inv_along reported_step as hrun hwakes reported_init
  exact hR.reports j c hj (by rw [hret]; rfl)

/-- What a wake-up does to the thread it wakes, which does not hold the mutex. -/
theorem Spec.wakes_up {s s' : State} {a : Action} {j : Tid} {c : Call} (h : Spec s a s')
    (hj : j ∈ a.wakes) (hc : s.calls.lookup j = some c) :
    (∃ t, s'.calls.lookup j = some ⟨.woken t, c.since⟩) ∧ s'.mutex = s.mutex ∧
      s'.values = s.values := by
  cases h with
  | @notifies i k e d t hi he hk hd =>
    obtain rfl : k = j := Option.some.inj hj
    obtain ⟨-, hk'⟩ := Pool.lookup_erase_some hk
    obtain rfl : c = d := Option.some.inj (hc.symm.trans hk')
    exact ⟨⟨t, Finmap.lookup_insert _⟩, rfl, rfl⟩
  | @wakes k d t hk hd =>
    obtain rfl : k = j := Option.some.inj hj
    obtain rfl : c = d := Option.some.inj (hc.symm.trans hk)
    exact ⟨⟨t, Finmap.lookup_insert _⟩, rfl, rfl⟩
  | _ => exact nomatch hj

/-- A thread that is woken too early, while the mutex is free, can return too early: nothing
makes it test the counter again. -/
theorem returns_early {s s' : State} {a : Action} {j : Tid} {c : Call} (hj : j ∈ a.wakes)
    (hc : s.calls.lookup j = some c) (hfree : s.mutex = none) (hsaw : ¬ s.SawZero c)
    (h : step s a = some s') : ∃ t d, run step s' [.caller j, .caller j] = some t ∧
      t.calls.lookup j = some d ∧ d.pc = .waitReturn .noTimeout ∧ ¬ t.SawZero d := by
  obtain ⟨⟨timed, hwoken⟩, hmutex, hvalues⟩ := (step_spec h).wakes_up hj hc
  rw [hfree] at hmutex
  have hlock : step s' (.caller j) = some { s'.goto j ⟨.woken timed, c.since⟩
      (.waitLeave .noTimeout) with mutex := some j } := by
    rw [step_caller hwoken]
    exact lock_some.mpr ⟨hmutex, rfl⟩
  have hleave := step_caller (s := { s'.goto j ⟨.woken timed, c.since⟩
    (.waitLeave .noTimeout) with mutex := some j }) (Finmap.lookup_insert _)
  refine ⟨_, _, run_cons_some.mpr ⟨_, hlock, run_cons_some.mpr ⟨_, hleave, rfl⟩⟩,
    Finmap.lookup_insert _, rfl, ?_⟩
  show ¬ 0 ∈ s'.values.drop c.since
  rw [hvalues]
  exact hsaw

/-- Thread 1 waits, blocks, and is notified by the `down` that takes the counter to zero. -/
def waitedFor : List Action :=
  [.call 0 .up, .caller 0, .caller 0, .caller 0, .call 1 .wait, .caller 1, .caller 1, .caller 1,
    .call 0 .down, .caller 0, .caller 0, .caller 0, .caller 0, .notify 0 1, .caller 1, .caller 1]

theorem never_early_demo : ∃ s c, run step init waitedFor = some s ∧
    s.calls.lookup 1 = some c ∧ c.pc = .waitReturn .noTimeout ∧ s.SawZero c :=
  ⟨_, _, rfl, rfl, rfl, @never_early waitedFor _ rfl (by decide) 1 _ rfl rfl⟩

/-- A `down` takes the counter to zero and has not notified yet when the counter goes up
again and thread 2 begins to wait: the late notification ends its wait. -/
def notifiedLate : List Action :=
  [.call 0 .up, .caller 0, .caller 0, .caller 0,
    .call 0 .down, .caller 0, .caller 0, .caller 0, .caller 0,
    .call 1 .up, .caller 1, .caller 1, .caller 1,
    .call 2 .wait, .caller 2, .caller 2, .caller 2, .notify 0 2, .caller 2, .caller 2]

theorem reports_early : ∃ s c, run step init notifiedLate = some s ∧
    s.calls.lookup 2 = some c ∧ c.pc = .waitReturn .noTimeout ∧ ¬ s.SawZero c :=
  ⟨_, _, rfl, rfl, rfl, by unfold State.SawZero; decide⟩

end Cor.Mt.Completion

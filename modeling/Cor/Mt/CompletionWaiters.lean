import Cor.Mt.CompletionStep

/-!
# Which waiters of a completion are notified

`down` calls `notify_one` where it takes `counter_` to zero, so of several waiters one is
notified. `no_waiter_left` says that nobody is left behind when each `down` that is about to take
the counter to zero finds no more threads blocked than there are notifications to come, its own
included; `waiter_left` that somebody can be left behind as soon as one does not.

The invariant is that while the counter is zero there are at most as many blocked threads as
notifications to come. No thread starts to block then, which needs mutual exclusion: the test
of the counter in `wait` and the start of `done_.wait` are under the mutex, and so are its changes.
-/

namespace Cor.Mt.Completion

open Cor.Lib

/-- The call that begins with an action. -/
def Action.begins : Action → Option Op
  | .call _ op => some op
  | _ => none

/-- The thread that takes a step in its call. -/
def Action.moves : Action → Option Tid
  | .caller i => some i
  | _ => none

/-- A call of `down` is matched by an increment that no earlier call of `down` is matched by. -/
def Matched (s : State) (a : Action) : Prop := a.begins = some .down → s.downs < s.ups

instance (s : State) (a : Action) : Decidable (Matched s a) :=
  inferInstanceAs (Decidable (a.begins = some .down → s.downs < s.ups))

/-- A `down` that is about to take the counter to zero finds at most as many blocked threads
as there are notifications to come, its own included. -/
def NotifiesEnough (s : State) (a : Action) : Prop :=
  ∀ i ∈ a.moves, ∀ c ∈ s.calls.lookup i, c.pc = .downSub → s.counter = 1 →
    s.blocked ≤ s.owing + 1

instance (s : State) (a : Action) : Decidable (NotifiesEnough s a) :=
  inferInstanceAs (Decidable (∀ i ∈ a.moves, ∀ c ∈ s.calls.lookup i, c.pc = .downSub →
    s.counter = 1 → s.blocked ≤ s.owing + 1))

/-- Nobody is blocked when the counter is zero and no notification is to come. -/
def NobodyLeft (s : State) : Prop := s.counter = 0 → s.owing = 0 → s.blocked = 0

/-! ## Counting calls -/

section Count

variable {s : State} {i : Tid} {c : Call} (f : Pc → Bool)

theorem unit_pc (c : Call) : Pool.unit (fun c : Call => f c.pc) true c = (f c.pc).toNat := by
  show (if true = f c.pc then 1 else 0) = (f c.pc).toNat
  cases f c.pc <;> rfl

theorem count_goto (hi : s.calls.lookup i = some c) (pc : Pc) :
    (s.goto i c pc).count f + (f c.pc).toNat = s.count f + (f pc).toNat := by
  have h := Pool.tally_insert_old (f := fun c : Call => f c.pc) (a := { c with pc := pc }) true hi
  rw [unit_pc, unit_pc] at h
  exact h

theorem count_return (hi : s.calls.lookup i = some c) :
    (s.return i).count f + (f c.pc).toNat = s.count f := by
  have h := Pool.tally_erase (f := fun c : Call => f c.pc) true hi
  rw [unit_pc] at h
  exact h

theorem count_enter (hi : s.calls.lookup i = none) (op : Op) :
    (s.enter i op).count f = s.count f + (f op.entry).toNat := by
  have h := Pool.tally_insert_new (f := fun c : Call => f c.pc)
    (a := ⟨op.entry, s.values.length - 1⟩) true hi
  rw [unit_pc] at h
  exact h

/-- A notification that reaches a blocked thread: one notification less to come, and one
blocked thread less. -/
theorem count_notify {j : Tid} {d : Call} {t : Bool} (hi : s.calls.lookup i = some c)
    (hc : c.pc = .downNotify) (hj : (s.return i).calls.lookup j = some d)
    (hd : d.pc = .blocked t) :
    ((s.return i).goto j d (.woken t)).blocked + 1 = s.blocked ∧
      ((s.return i).goto j d (.woken t)).owing + 1 = s.owing := by
  have hb := count_return Pc.isBlocked hi
  have ho := count_return Pc.owesNotify hi
  have hb' := count_goto Pc.isBlocked hj (.woken t)
  have ho' := count_goto Pc.owesNotify hj (.woken t)
  rw [hc] at hb ho
  rw [hd] at hb' ho'
  exact ⟨hb'.trans hb, (congrArg Nat.succ ho').trans ho⟩

end Count

/-- The increments and the calls of `down` account for the counter. -/
def Accounted (s : State) : Prop := s.counter + s.downs = s.ups + s.pending

theorem Accounted.keep {s s' : State} (hA : Accounted s) (hp : s'.pending = s.pending)
    (hn : s'.counter = s.counter) (hu : s'.ups = s.ups) (hd : s'.downs = s.downs) :
    Accounted s' := by
  unfold Accounted at hA ⊢
  rw [hp, hn, hu, hd]
  exact hA

/-- What a step does to the counter, to the threads that are blocked and to the notifications
that are to come. -/
inductive Counted (s : State) (a : Action) (s' : State) : Prop
  | keeps (hb : s'.blocked ≤ s.blocked) (ho : s'.owing = s.owing) (hn : s'.counter = s.counter)
  /-- a notification that wakes somebody, or finds nobody, or is not needed -/
  | notifies (hb : s'.blocked + 1 ≤ s.blocked ∨ s'.blocked = 0 ∨ s.counter ≠ 0)
      (ho : s'.owing + 1 = s.owing) (hn : s'.counter = s.counter)
  | adds (hn : s'.counter = s.counter + 1)
  | subtracts {i : Tid} {c : Call} (ha : a = .caller i) (hi : s.calls.lookup i = some c)
      (hc : c.pc = .downSub) (hb : s'.blocked = s.blocked) (ho : s'.owing = s.owing + 1)
      (hn : s'.counter = s.counter - 1)
  | blocks {i : Tid} {c : Call} {t : Bool} (hi : s.calls.lookup i = some c)
      (hc : c.pc = .waitBlock t) (hn : s'.counter = s.counter)

theorem Spec.counted {s s' : State} {a : Action} (h : Spec s a s') : Counted s a s' := by
  cases h with
  | @enters i op hi =>
    have hb := count_enter Pc.isBlocked hi op
    have ho := count_enter Pc.owesNotify hi op
    cases op <;> exact .keeps hb.le ho rfl
  | @takes i c pc hi hm ht =>
    have hb := count_goto Pc.isBlocked hi pc
    have ho := count_goto Pc.owesNotify hi pc
    generalize c.pc = from_ at ht hb ho
    cases ht <;> exact .keeps hb.le ho rfl
  | @adds i c hi hc => exact .adds rfl
  | @subtracts i c hi hc =>
    have hb := count_goto Pc.isBlocked hi .downTest
    have ho := count_goto Pc.owesNotify hi .downTest
    rw [hc] at hb ho
    exact .subtracts rfl hi hc hb ho rfl
  | @tests i c pc hi ht =>
    have hb := count_goto Pc.isBlocked hi pc
    have ho := count_goto Pc.owesNotify hi pc
    generalize c.pc = from_ at ht hb ho
    cases ht with
    | down hz => exact .notifies (Or.inr (Or.inr hz)) ho rfl
    | downZero => exact .keeps hb.le (Nat.succ.inj ho) rfl
    | waitZero | wait => exact .keeps hb.le ho rfl
  | @releases i c pc hi hr =>
    have hb := count_goto Pc.isBlocked hi pc
    have ho := count_goto Pc.owesNotify hi pc
    generalize hp : c.pc = from_ at hr hb ho
    cases hr with
    | down => exact .keeps hb.le (Nat.succ.inj ho) rfl
    | block => exact .blocks hi hp rfl
    | leave => exact .keeps hb.le ho rfl
  | @leaves i c hi hc =>
    have hb := count_return Pc.isBlocked hi
    have ho := count_return Pc.owesNotify hi
    rcases hc with hc | hc <;> rw [hc] at hb ho <;> exact .keeps hb.le ho rfl
  | @returns i c r hi hc =>
    have hb := count_return Pc.isBlocked hi
    have ho := count_return Pc.owesNotify hi
    rw [hc] at hb ho
    exact .keeps hb.le ho rfl
  | @notifies i j c d t hi hc hj hd =>
    obtain ⟨hb, ho⟩ := count_notify hi hc hj hd
    exact .notifies (Or.inl hb.le) ho rfl
  | @notifiesNobody i c hi hc hnone =>
    have hb := count_return Pc.isBlocked hi
    have ho := count_return Pc.owesNotify hi
    rw [hc] at hb ho
    exact .notifies (Or.inr (Or.inl (hb.trans hnone))) ho rfl
  | @wakes j d t hj hd =>
    have hb := count_goto Pc.isBlocked hj (.woken t)
    have ho := count_goto Pc.owesNotify hj (.woken t)
    rw [hd] at hb ho
    exact .keeps (Nat.le_of_succ_le hb.le) ho rfl
  | @expires j d hj hd =>
    have hb := count_goto Pc.isBlocked hj .expired
    have ho := count_goto Pc.owesNotify hj .expired
    generalize d.pc = from_ at hd hb ho
    cases hd with
    | blocked => exact .keeps (Nat.le_of_succ_le hb.le) ho rfl
    | woken => exact .keeps hb.le ho rfl

/-- The step at which a call of `down` begins adds one to be decremented, and the decrement
takes it away. -/
theorem Spec.accounted {s s' : State} {a : Action} (h : Spec s a s') (hA : Accounted s) :
    Accounted s' := by
  cases h with
  | @enters i op hi =>
    have hp := count_enter Pc.owesDecrement hi op
    cases op with
    | down =>
      show s.counter + ((s.downs + 1 : Nat) : Int) = s.ups + ((s.enter i .down).pending : Int)
      rw [show (s.enter i .down).pending = s.pending + 1 from hp]
      unfold Accounted at hA
      omega
    | _ => exact hA.keep hp rfl rfl rfl
  | @takes i c pc hi hm ht =>
    have hp := count_goto Pc.owesDecrement hi pc
    generalize c.pc = from_ at ht hp
    cases ht with
    | down => exact hA.keep (Nat.succ.inj hp) rfl rfl rfl
    | _ => exact hA.keep hp rfl rfl rfl
  | @adds i c hi hc =>
    have hp := count_goto Pc.owesDecrement hi .upUnlock
    rw [hc] at hp
    show s.counter + 1 + s.downs = ((s.ups + 1 : Nat) : Int) + (s.goto i c .upUnlock).pending
    rw [show (s.goto i c .upUnlock).pending = s.pending from hp]
    unfold Accounted at hA
    omega
  | @subtracts i c hi hc =>
    have hp := count_goto Pc.owesDecrement hi .downTest
    rw [hc] at hp
    show s.counter - 1 + s.downs = s.ups + ((s.goto i c .downTest).pending : Int)
    have hp' : (s.goto i c .downTest).pending + 1 = s.pending := hp
    unfold Accounted at hA
    omega
  | @tests i c pc hi ht =>
    have hp := count_goto Pc.owesDecrement hi pc
    generalize c.pc = from_ at ht hp
    cases ht <;> exact hA.keep hp rfl rfl rfl
  | @releases i c pc hi hr =>
    have hp := count_goto Pc.owesDecrement hi pc
    generalize c.pc = from_ at hr hp
    cases hr <;> exact hA.keep hp rfl rfl rfl
  | @leaves i c hi hc =>
    have hp := count_return Pc.owesDecrement hi
    rcases hc with hc | hc <;> rw [hc] at hp <;> exact hA.keep hp rfl rfl rfl
  | returns hi hc | notifiesNobody hi hc =>
    have hp := count_return Pc.owesDecrement hi
    rw [hc] at hp
    exact hA.keep hp rfl rfl rfl
  | @notifies i j c d t hi hc hj hd =>
    have hp := count_return Pc.owesDecrement hi
    have hp' := count_goto Pc.owesDecrement hj (.woken t)
    rw [hc] at hp
    rw [hd] at hp'
    exact hA.keep (hp'.trans hp) rfl rfl rfl
  | @wakes j d t hj hd =>
    have hp := count_goto Pc.owesDecrement hj (.woken t)
    rw [hd] at hp
    exact hA.keep hp rfl rfl rfl
  | @expires j d hj hd =>
    have hp := count_goto Pc.owesDecrement hj .expired
    generalize d.pc = from_ at hd hp
    cases hd <;> exact hA.keep hp rfl rfl rfl

/-- Only a `down` that begins is counted as one. -/
theorem Spec.downs {s s' : State} {a : Action} (h : Spec s a s') :
    (s'.downs = s.downs ∧ s.ups ≤ s'.ups) ∨
    ((∃ i, a = .call i .down) ∧ s'.downs = s.downs + 1 ∧ s'.ups = s.ups) := by
  cases h with
  | @enters i op hi =>
    cases op with
    | down => exact Or.inr ⟨⟨i, rfl⟩, rfl, rfl⟩
    | _ => exact Or.inl ⟨rfl, le_refl _⟩
  | adds => exact Or.inl ⟨rfl, Nat.le_succ _⟩
  | _ => exact Or.inl ⟨rfl, le_refl _⟩

/-! ## Mutual exclusion -/

/-- A thread at a counter that holds the mutex does hold it, and a thread that is about to
block has seen that the counter is not zero, which it still is not. -/
structure Exclusive (s : State) : Prop where
  holds : ∀ i c, s.calls.lookup i = some c → c.pc.holds = true → s.mutex = some i
  blocks : ∀ i c t, s.calls.lookup i = some c → c.pc = .waitBlock t → s.counter ≠ 0

/-- Who changes the mutex, or the counter: a thread that takes the mutex when it is free,
or one that holds it. -/
theorem Spec.guarded {s s' : State} {a : Action} (h : Spec s a s') :
    (s'.mutex = s.mutex ∧ s'.counter = s.counter) ∨
    (s.mutex = none ∧ s'.counter = s.counter) ∨
    ∃ i c, a = .caller i ∧ s.calls.lookup i = some c ∧ c.pc.holds = true := by
  cases h with
  | takes hi hm ht => exact Or.inr (Or.inl ⟨hm, rfl⟩)
  | @adds i c hi hc | @subtracts i c hi hc =>
    exact Or.inr (Or.inr ⟨i, c, rfl, hi, by rw [hc]; rfl⟩)
  | @releases i c pc hi hr =>
    refine Or.inr (Or.inr ⟨i, c, rfl, hi, ?_⟩)
    generalize c.pc = from_ at hr
    cases hr <;> rfl
  | @leaves i c hi hc =>
    refine Or.inr (Or.inr ⟨i, c, rfl, hi, ?_⟩)
    rcases hc with hc | hc <;> rw [hc] <;> rfl
  | _ => exact Or.inl ⟨rfl, rfl⟩

/-- What another thread does is not done under a mutex that this one holds. -/
theorem Exclusive.alone {s s' : State} {a : Action} {j : Tid} {d : Call} (hE : Exclusive s)
    (h : Spec s a s') (hj : s.calls.lookup j = some d) (hd : d.pc.holds = true)
    (ha : a ≠ .caller j) : s'.mutex = s.mutex ∧ s'.counter = s.counter := by
  have hmine := hE.holds j d hj hd
  rcases h.guarded with hsame | ⟨hnone, -⟩ | ⟨i, c, rfl, hi, hc⟩
  · exact hsame
  · rw [hmine] at hnone
    exact nomatch hnone
  · have hother := hE.holds i c hi hc
    rw [hmine, Option.some.injEq] at hother
    exact absurd (congrArg Action.caller hother.symm) ha

theorem Moved.holds {s s' : State} {a : Action} {j : Tid} {p q : Pc} (h : Moved s a s' j p q)
    (hq : q.holds = true) : s'.mutex = some j ∨ (p.holds = true ∧ s'.mutex = s.mutex) := by
  cases h with
  | takes hm hm' ht => exact Or.inl hm'
  | adds hm | subtracts hm => exact Or.inr ⟨rfl, hm⟩
  | tests hm hn ht =>
    refine Or.inr ⟨?_, hm⟩
    cases ht <;> rfl
  | releases hr =>
    cases hr <;> exact nomatch hq
  | wakes | expires => exact nomatch hq

theorem Moved.blocks {s s' : State} {a : Action} {j : Tid} {p q : Pc} {t : Bool}
    (h : Moved s a s' j p q) (hq : q = .waitBlock t) : s'.counter ≠ 0 := by
  cases h with
  | takes hm hm' ht =>
    rw [hq] at ht
    exact nomatch ht
  | tests hm hn ht =>
    rw [hq] at ht
    cases ht with
    | wait hz => exact hn ▸ hz
  | releases hr =>
    rw [hq] at hr
    exact nomatch hr
  | adds | subtracts | wakes | expires => exact nomatch hq

theorem exclusive_step (s : State) (a : Action) (s' : State) (hE : Exclusive s)
    (h : step s a = some s') : Exclusive s' := by
  have hspec := step_spec h
  constructor
  · intro j d hj hd
    rcases hspec.call hj with ⟨op, rfl⟩ | ⟨hj, ha⟩ | ⟨c, hc, -, hmoved⟩
    · cases op <;> exact nomatch hd
    · rw [(hE.alone hspec hj hd ha).1, hE.holds j d hj hd]
    · rcases hmoved.holds hd with hm | ⟨hp, hm⟩
      · exact hm
      · rw [hm, hE.holds j c hc hp]
  · intro j d t hj hd
    rcases hspec.call hj with ⟨op, rfl⟩ | ⟨hj, ha⟩ | ⟨c, hc, -, hmoved⟩
    · cases op <;> exact nomatch hd
    · rw [(hE.alone hspec hj (by rw [hd]; rfl) ha).2]
      exact hE.blocks j d t hj hd
    · exact hmoved.blocks hd

/-! ## Whole runs -/

/-- What holds along a run whose calls of `down` are all matched. -/
structure Inv (s : State) : Prop where
  exclusive : Exclusive s
  accounted : Accounted s
  matched : s.downs ≤ s.ups

theorem inv_init : Inv init where
  exclusive := ⟨fun _ _ hi => (nomatch hi), fun _ _ _ hi => (nomatch hi)⟩
  accounted := rfl
  matched := le_refl _

theorem inv_step (s : State) (a : Action) (s' : State) (hI : Inv s) (hM : Matched s a)
    (h : step s a = some s') : Inv s' := by
  have hspec := step_spec h
  refine ⟨exclusive_step s a s' hI.exclusive h, hspec.accounted hI.accounted, ?_⟩
  have hle := hI.matched
  rcases hspec.downs with ⟨hd, hu⟩ | ⟨⟨i, ha⟩, hd, hu⟩
  · omega
  · have hlt := hM (by rw [ha]; rfl)
    omega

/-- The counter is never negative, and positive after an increment. -/
theorem Inv.counter_nonneg {s : State} (hI : Inv s) : 0 ≤ s.counter := by
  have hA := hI.accounted
  have hle := hI.matched
  unfold Accounted at hA
  omega

/-- While the counter is zero, each blocked thread has a notification to come. -/
def Covered (s : State) : Prop := s.counter = 0 → s.blocked ≤ s.owing

theorem covered_step {s s' : State} {a : Action} (hI : Inv s) (hC : Covered s)
    (hN : NotifiesEnough s a) (h : step s a = some s') : Covered s' := by
  intro hz
  have hnonneg := hI.counter_nonneg
  cases (step_spec h).counted with
  | keeps hb ho hn =>
    have hle := hC (hn ▸ hz)
    omega
  | notifies hb ho hn =>
    have hle := hC (hn ▸ hz)
    rcases hb with hb | hb | hne
    · omega
    · omega
    · exact absurd (hn ▸ hz) hne
  | adds hn => omega
  | subtracts ha hi hc hb ho hn =>
    have hle := hN _ (by rw [ha]; rfl) _ hi hc (by omega)
    omega
  | blocks hi hc hn => exact absurd (hn ▸ hz) (hI.exclusive.blocks _ _ _ hi hc)

/-- **No waiter left behind.** When every `down` that takes the counter to zero finds no more
threads blocked than notifications to come, its own included, nobody is blocked in any state
where the counter is zero and no notification is to come. -/
theorem no_waiter_left {as : List Action} {s : State} (hrun : run step init as = some s)
    (hmatched : Along step Matched init as) (hnotifies : Along step NotifiesEnough init as) :
    NobodyLeft s := by
  have hstep : ∀ s a s', Inv s ∧ Covered s → Matched s a ∧ NotifiesEnough s a →
      step s a = some s' → Inv s' ∧ Covered s' := by
    intro s a s' hs ha h
    exact ⟨inv_step s a s' hs.1 ha.1 h, covered_step hs.1 hs.2 ha.2 h⟩
  have hs : Inv s ∧ Covered s :=
    run_inv_along hstep as hrun (along_and.mpr ⟨hmatched, hnotifies⟩) ⟨inv_init, fun _ => le_refl _⟩
  intro hz howe
  have hle := hs.2 hz
  omega

/-- Thread 0 takes the counter up and down again, while thread 1 waits. -/
def oneWaiter : List Action :=
  [.call 0 .up, .caller 0, .caller 0, .caller 0,
    .call 1 .wait, .caller 1, .caller 1, .caller 1,
    .call 0 .down, .caller 0, .caller 0, .caller 0, .caller 0, .notify 0 1]

theorem no_waiter_left_demo : ∃ s, run step init oneWaiter = some s ∧ NobodyLeft s :=
  ⟨_, rfl, no_waiter_left (show run step init oneWaiter = some _ from rfl) (by decide) (by decide)⟩

/-! ## A waiter that is left behind -/

theorem exists_of_count {s : State} {f : Pc → Bool} (h : 0 < s.count f) :
    ∃ i c, s.calls.lookup i = some c ∧ f c.pc = true :=
  Pool.exists_of_tally_pos h

/-- A thread that has released the mutex notifies one that is blocked. -/
theorem step_notify {s : State} {i j : Tid} {c d : Call} {t : Bool}
    (hi : s.calls.lookup i = some c) (hc : c.pc = .downNotify)
    (hj : (s.return i).calls.lookup j = some d) (hd : d.pc = .blocked t) :
    step s (.notify i j) = some ((s.return i).goto j d (.woken t)) := by
  obtain ⟨pc, since⟩ := d
  obtain rfl : pc = .blocked t := hd
  simp only [step, hi, Option.map_some, hc, if_true, State.wake, hj]

/-- Once the mutex is free, a thread that owes a notification is about to make it. -/
theorem Exclusive.about_to_notify {s : State} {i : Tid} {c : Call} (hE : Exclusive s)
    (hi : s.calls.lookup i = some c) (hc : c.pc.owesNotify = true) (hfree : s.mutex = none) :
    c.pc = .downNotify := by
  have hout : c.pc.holds ≠ true := by
    intro hholds
    have hmine := hE.holds i c hi hholds
    rw [hfree] at hmine
    exact nomatch hmine
  generalize c.pc = p at hc hout ⊢
  cases p <;> first | rfl | exact absurd rfl hout | cases hc

/-- With too few notifications to come, they are made one after the other, and somebody is
still blocked after the last. -/
theorem left_of_lt : ∀ (n : Nat) {s : State}, s.owing = n → n < s.blocked → s.counter = 0 →
    s.mutex = none → Exclusive s →
    ∃ as s', run step s as = some s' ∧ Along step Matched s as ∧ ¬ NobodyLeft s'
  | 0, s, howe, hlt, hz, _, _ =>
    ⟨[], s, rfl, trivial, fun hleft => absurd (hleft hz howe) (Nat.ne_of_gt hlt)⟩
  | n + 1, s, howe, hlt, hz, hfree, hE => by
    have hpos : 0 < s.count Pc.owesNotify := by
      show 0 < s.owing
      omega
    obtain ⟨i, c, hi, hc⟩ := exists_of_count hpos
    obtain ⟨j, d, hj, hd⟩ := exists_of_count (Nat.zero_lt_of_lt hlt : 0 < s.count Pc.isBlocked)
    have hpc := hE.about_to_notify hi hc hfree
    obtain ⟨t, ht⟩ : ∃ t, d.pc = .blocked t := by
      generalize d.pc = p at hd ⊢
      cases p <;> first | exact ⟨_, rfl⟩ | cases hd
    have hne : j ≠ i := by
      rintro rfl
      rw [hj, Option.some.injEq] at hi
      rw [hi, hpc] at ht
      exact nomatch ht
    have hj' : (s.return i).calls.lookup j = some d := (Finmap.lookup_erase_ne hne).trans hj
    have hstep := step_notify hi hpc hj' ht
    obtain ⟨hb, ho⟩ := count_notify hi hpc hj' ht
    have hz' : ((s.return i).goto j d (.woken t)).counter = 0 := hz
    have hfree' : ((s.return i).goto j d (.woken t)).mutex = none := hfree
    obtain ⟨as, s', hrun, hmatched, hleft⟩ := left_of_lt n (Nat.succ.inj (ho.trans howe))
      (by omega) hz' hfree' (exclusive_step s _ _ hE hstep)
    refine ⟨.notify i j :: as, s', run_cons_some.mpr ⟨_, hstep, hrun⟩, ⟨nofun, ?_⟩, hleft⟩
    intro s₁ hs₁
    rw [hstep, Option.some.injEq] at hs₁
    exact hs₁ ▸ hmatched

/-- After the decrement to zero the thread tests the counter and releases the mutex. -/
theorem releases_after_zero {s : State} {i : Tid} {c : Call} (hi : s.calls.lookup i = some c)
    (hc : c.pc = .downTest) (hz : s.counter = 0) :
    ∃ s', run step s [.caller i, .caller i] = some s' ∧ s'.mutex = none ∧ s'.counter = 0 ∧
      s'.blocked = s.blocked ∧ s'.owing = s.owing := by
  obtain ⟨pc, since⟩ := c
  obtain rfl : pc = .downTest := hc
  have hstep₁ : step s (.caller i) = some (s.goto i ⟨.downTest, since⟩ .downUnlock) := by
    rw [step_caller hi]
    simp only [callerStep, hz, if_true]
  have hi₁ : (s.goto i ⟨.downTest, since⟩ .downUnlock).calls.lookup i =
      some ⟨.downUnlock, since⟩ := Finmap.lookup_insert _
  have hb₁ := count_goto Pc.isBlocked hi .downUnlock
  have ho₁ := count_goto Pc.owesNotify hi .downUnlock
  have hb₂ := count_goto Pc.isBlocked hi₁ .downNotify
  have ho₂ := count_goto Pc.owesNotify hi₁ .downNotify
  have hstep₂ := step_caller hi₁
  exact ⟨_, run_cons_some.mpr ⟨_, hstep₁, run_cons_some.mpr ⟨_, hstep₂, rfl⟩⟩, rfl, hz,
    hb₂.trans hb₁, Nat.succ.inj (ho₂.trans ho₁)⟩

/-- **A waiter left behind.** After a `down` that takes the counter to zero and finds more
threads blocked than notifications to come, the threads that are in `down` can leave somebody
behind by just completing their calls. -/
theorem waiter_left {s s' : State} {a : Action} (hE : Exclusive s) (hN : ¬ NotifiesEnough s a)
    (h : step s a = some s') :
    ∃ as t, run step s' as = some t ∧ Along step Matched s' as ∧ ¬ NobodyLeft t := by
  unfold NotifiesEnough at hN
  push Not at hN
  obtain ⟨i, ha, c, hi, hc, hone, hlt⟩ := hN
  obtain rfl : a = .caller i := by
    cases a <;> cases ha
    rfl
  have hE' := exclusive_step s _ _ hE h
  obtain ⟨pc, since⟩ := c
  obtain rfl : pc = .downSub := hc
  rw [step_caller hi] at h
  have hs' := (Option.some.inj h).symm
  have hi' : s'.calls.lookup i = some ⟨.downTest, since⟩ := by
    rw [hs']
    exact Finmap.lookup_insert _
  have hz' : s'.counter = 0 := by
    rw [hs']
    show s.counter - 1 = 0
    omega
  have hb : s'.blocked = s.blocked := by
    rw [hs']
    exact count_goto Pc.isBlocked hi .downTest
  have ho : s'.owing = s.owing + 1 := by
    rw [hs']
    exact count_goto Pc.owesNotify hi .downTest
  obtain ⟨s₁, hrun₁, hfree, hz, hb₁, ho₁⟩ := releases_after_zero hi' rfl hz'
  have hE₁ : Exclusive s₁ := run_inv exclusive_step _ hrun₁ hE'
  have hlt₁ : s₁.owing < s₁.blocked := by
    rw [ho₁, hb₁, ho, hb]
    exact hlt
  obtain ⟨as, t, hrun, hmatched, hleft⟩ := left_of_lt s₁.owing rfl hlt₁ hz hfree hE₁
  refine ⟨[.caller i, .caller i] ++ as, t, run_append_some.mpr ⟨s₁, hrun₁, hrun⟩, ?_, hleft⟩
  refine (along_append _ hrun₁).mpr ⟨?_, hmatched⟩
  exact ⟨nofun, fun _ _ => ⟨nofun, fun _ _ => trivial⟩⟩

/-- Threads 1 and 2 wait, and thread 1 is notified. -/
def twoWaiters : List Action :=
  [.call 0 .up, .caller 0, .caller 0, .caller 0,
    .call 1 .wait, .caller 1, .caller 1, .caller 1,
    .call 2 .waitFor, .caller 2, .caller 2, .caller 2,
    .call 0 .down, .caller 0, .caller 0, .caller 0, .caller 0, .notify 0 1]

theorem second_waiter_left : ∃ s, run step init twoWaiters = some s ∧
    Along step Matched init twoWaiters ∧ ¬ NobodyLeft s :=
  ⟨_, rfl, by decide, fun hleft => absurd (hleft rfl rfl) (by decide)⟩

end Cor.Mt.Completion

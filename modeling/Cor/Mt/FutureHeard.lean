import Cor.Mt.Future

/-!
# Who hears that a future is done

`BasicCondition::done` sets `awake_` and notifies one thread, both under the mutex.

`done_heard` is about the runs that go on from a state where `awake_` is set: whoever
calls `wait` from then on is told `no_timeout` and never blocks, and of the threads
that were blocked each call of `done` wakes one, no more. So a single call is enough
exactly for a single waiter, the creator of the future: `waiters_woken` says that `n`
calls of `done` leave at most `W - n` threads blocked if no more than `W` wait at once.
-/

namespace Cor.Mt.Future

open Cor.Lib
open Completion (Tid CvStatus)

/-! ## The moves -/

/-- A move of the system, by whose it is. What a call does by itself is `callerStep`. -/
inductive Turn (s : State) : Action → State → Prop
  | enters {i : Tid} {op : Op} (hi : s.calls.lookup i = none) :
    Turn s (.call i op) (s.enter i op)
  | goes {i : Tid} {c : Call} {s' : State} (hi : s.calls.lookup i = some c)
      (h : callerStep s i c = some s') : Turn s (.caller i) s'
  | throws {i : Tid} {c : Call} (hi : s.calls.lookup i = some c)
      (hc : c.pc = .before ∨ c.pc = .after) : Turn s (.throws i) (s.return i)
  | notifies {i j : Tid} {c d : Call} (hi : s.calls.lookup i = some c) (hc : c.pc = .doneNotify)
      (hj : (s.goto i c .doneUnlock).calls.lookup j = some d) (hd : d.pc = .blocked) :
    Turn s (.notify i j) ((s.goto i c .doneUnlock).goto j d .woken)
  | notifiesNobody {i : Tid} {c : Call} (hi : s.calls.lookup i = some c)
      (hc : c.pc = .doneNotify) (hnone : s.blocked = 0) :
    Turn s (.notifyNobody i) (s.goto i c .doneUnlock)
  | wakes {j : Tid} {d : Call} (hj : s.calls.lookup j = some d) (hd : d.pc = .blocked) :
    Turn s (.spurious j) (s.goto j d .woken)
  | expires {j : Tid} {d : Call} (hj : s.calls.lookup j = some d)
      (hd : d.pc = .blocked ∨ d.pc = .woken) : Turn s (.expire j) (s.goto j d .expired)

theorem step_turn {s s' : State} {a : Action} (h : step s a = some s') : Turn s a s' := by
  cases a with
  | call i op =>
    obtain ⟨hi, hs⟩ := Option.ite_none_right_eq_some.mp h
    obtain rfl := Option.some.inj hs
    exact .enters hi
  | caller i =>
    simp only [step] at h
    split at h
    next c hi => exact .goes hi h
    next => cases h
  | throws i =>
    simp only [step] at h
    split at h
    next c hi =>
      obtain ⟨hc, hs⟩ := Option.ite_none_right_eq_some.mp h
      obtain rfl := Option.some.inj hs
      exact .throws hi hc
    next => cases h
  | notify i j =>
    simp only [step] at h
    split at h
    next c hi =>
      obtain ⟨hc, hwake⟩ := Option.ite_none_right_eq_some.mp h
      obtain ⟨d, hj, hd, rfl⟩ := wake_some hwake
      exact .notifies hi hc hj hd
    next => cases h
  | notifyNobody i =>
    simp only [step] at h
    split at h
    next c hi =>
      obtain ⟨⟨hc, hnone⟩, hs⟩ := Option.ite_none_right_eq_some.mp h
      obtain rfl := Option.some.inj hs
      exact .notifiesNobody hi hc hnone
    next => cases h
  | spurious j =>
    obtain ⟨d, hj, hd, rfl⟩ := wake_some h
    exact .wakes hj hd
  | expire j =>
    simp only [step] at h
    split at h
    next d hj =>
      obtain ⟨hd, hs⟩ := Option.ite_none_right_eq_some.mp h
      obtain rfl := Option.some.inj hs
      exact .expires hj hd
    next => cases h

/-! ## The mutex -/

/-- Where a call holds the mutex. -/
def Pc.holds : Pc → Bool
  | .doneSet | .doneNotify | .doneUnlock | .waitTest | .waitBlock | .waitLeave _ => true
  | _ => false

/-- Only the thread that has taken the mutex is where it is held. -/
def Held (calls : Pool Call) (mutex : Option Tid) : Prop :=
  ∀ i c, calls.lookup i = some c → c.pc.holds = true → mutex = some i

/-- A call moves on and leaves the mutex alone, takes it, or releases it. -/
theorem Held.insert {calls : Pool Call} {m m' : Option Tid} {i : Tid} {c : Call}
    (hH : Held calls m) (hown : c.pc.holds = true → m' = some i)
    (hm : m' = m ∨ m = none ∨ m = some i) : Held (calls.insert i c) m' := by
  intro j d hj hd
  rcases Pool.lookup_insert_some hj with ⟨rfl, rfl⟩ | ⟨hne, hj⟩
  · exact hown hd
  · have hmj : m = some j := hH j d hj hd
    rcases hm with rfl | rfl | rfl
    · exact hmj
    · cases hmj
    · exact absurd (Option.some.inj hmj).symm hne

/-- A call is over, and does not hold the mutex or releases it. -/
theorem Held.erase {calls : Pool Call} {m m' : Option Tid} {i : Tid} (hH : Held calls m)
    (hm : m' = m ∨ m = some i) : Held (calls.erase i) m' := by
  intro j d hj hd
  obtain ⟨hne, hj⟩ := Pool.lookup_erase_some hj
  have hmj : m = some j := hH j d hj hd
  rcases hm with rfl | rfl
  · exact hmj
  · exact absurd (Option.some.inj hmj).symm hne

/-- What a step of a call can do to the mutex. -/
theorem callerStep_held {s s' : State} {i : Tid} {c : Call} (hH : Held s.calls s.mutex)
    (hi : s.calls.lookup i = some c) (h : callerStep s i c = some s') :
    Held s'.calls s'.mutex := by
  have hown : c.pc.holds = true → s.mutex = some i := hH i c hi
  unfold callerStep at h
  cases hc : c.pc <;> simp only [hc, Option.some.injEq, lock_some, reduceCtorEq] at h
  case doneUnlock =>
    have hmi : s.mutex = some i := hown (by rw [hc]; rfl)
    split at h <;> obtain rfl := Option.some.inj h
    · exact hH.insert (fun hh => by cases hh) (Or.inr (Or.inr hmi))
    · exact hH.erase (Or.inr hmi)
  case after => subst h; exact hH.erase (Or.inl rfl)
  case waitReturn => subst h; exact hH.erase (Or.inl rfl)
  case before => subst h; exact hH.insert (fun hh => by cases hh) (Or.inl rfl)
  case callDone => subst h; exact hH.insert (fun hh => by cases hh) (Or.inl rfl)
  case doneSet => subst h; exact hH.insert (fun _ => hown (by rw [hc]; rfl)) (Or.inl rfl)
  case waitTest => subst h; exact hH.insert (fun _ => hown (by rw [hc]; rfl)) (Or.inl rfl)
  case waitBlock =>
    subst h
    exact hH.insert (fun hh => by cases hh) (Or.inr (Or.inr (hown (by rw [hc]; rfl))))
  case waitLeave =>
    subst h
    exact hH.insert (fun hh => by cases hh) (Or.inr (Or.inr (hown (by rw [hc]; rfl))))
  -- the others take the mutex
  all_goals
    obtain ⟨hm, rfl⟩ := h
    exact hH.insert (fun _ => rfl) (Or.inr (Or.inl hm))

theorem held_step {s s' : State} {a : Action} (hH : Held s.calls s.mutex)
    (h : step s a = some s') : Held s'.calls s'.mutex := by
  cases step_turn h with
  | @enters i op hi => exact hH.insert (fun hh => by cases op <;> cases hh) (Or.inl rfl)
  | goes hi h => exact callerStep_held hH hi h
  | throws hi hc => exact hH.erase (Or.inl rfl)
  | @notifies i j c d hi hc hj hd =>
    have hmi : s.mutex = some i := hH i c hi (by rw [hc]; rfl)
    have hH' : Held (s.goto i c .doneUnlock).calls s.mutex := hH.insert (fun _ => hmi) (Or.inl rfl)
    exact hH'.insert (fun hh => by cases hh) (Or.inl rfl)
  | @notifiesNobody i c hi hc hnone =>
    exact hH.insert (fun _ => hH i c hi (by rw [hc]; rfl)) (Or.inl rfl)
  | wakes hj hd => exact hH.insert (fun hh => by cases hh) (Or.inl rfl)
  | expires hj hd => exact hH.insert (fun hh => by cases hh) (Or.inl rfl)

/-! ## `awake_` -/

/-- Where a call of `wait` can be that is never told to wait: it does not block, and is
not told that its time is up. -/
def Pc.heard : Pc → Bool
  | .waitBlock | .blocked | .woken | .expired => false
  | .waitLeave r | .waitReturn r => r == .noTimeout
  | _ => true

/-- Where a call of `wait` can be. -/
def Pc.ofWait : Pc → Bool
  | .waitLock | .waitTest | .waitBlock | .blocked | .woken | .expired => true
  | .waitLeave _ | .waitReturn _ => true
  | _ => false

/-- What the step of a call does to `awake_` and to where the call is. -/
inductive Acts (s : State) (i : Tid) (c : Call) (s' : State) : Prop
  | sets (hc : c.pc = .doneSet) (ha : s'.awake = true)
      (hcalls : s'.calls = s.calls.insert i { c with pc := .doneNotify })
  | ends (hc : c.pc ≠ .blocked) (ha : s'.awake = s.awake) (hcalls : s'.calls = s.calls.erase i)
  | moves (pc : Pc) (hc : c.pc ≠ .blocked) (ha : s'.awake = s.awake)
      (hcalls : s'.calls = s.calls.insert i { c with pc := pc })
      (hblock : pc = .waitBlock → s.awake = false) (hsleep : pc = .blocked → c.pc = .waitBlock)
      (hheard : s.awake = true → c.pc.heard = true → pc.heard = true)
      (hwait : pc.ofWait = true → c.pc.ofWait = true) (hset : pc ≠ .doneNotify)

theorem callerStep_acts {s s' : State} {i : Tid} {c : Call} (h : callerStep s i c = some s') :
    Acts s i c s' ∧ s'.begun = s.begun := by
  unfold callerStep at h
  cases hc : c.pc <;> simp only [hc, Option.some.injEq, lock_some, reduceCtorEq] at h
  case doneSet => subst h; exact ⟨.sets hc rfl rfl, rfl⟩
  case doneUnlock =>
    split at h <;> obtain rfl := Option.some.inj h
    · exact ⟨.moves .after (by simp [hc]) rfl rfl (by simp) (by simp) (by simp [Pc.heard])
        (by simp [Pc.ofWait]) (by simp), rfl⟩
    · exact ⟨.ends (by simp [hc]) rfl rfl, rfl⟩
  case after => subst h; exact ⟨.ends (by simp [hc]) rfl rfl, rfl⟩
  case waitReturn => subst h; exact ⟨.ends (by simp [hc]) rfl rfl, rfl⟩
  case waitTest =>
    subst h
    refine ⟨.moves _ (by simp [hc]) rfl rfl ?_ ?_ ?_ ?_ ?_, rfl⟩ <;> cases s.awake <;>
      simp [Pc.heard, Pc.ofWait, hc]
  all_goals first | subst h | obtain ⟨hm, rfl⟩ := h
  all_goals
    exact ⟨.moves _ (by simp [hc]) rfl rfl (by simp) (by simp [hc]) (by simp [Pc.heard, hc])
      (by simp [Pc.ofWait, hc]) (by simp), rfl⟩

/-- What `awake_` says about a call in progress: it is not about to block once it is
set, and has set it where it is about to notify. A call was numbered as it began, and only
one of `wait` waits. -/
structure Fits (awake : Bool) (begun : Nat) (c : Call) : Prop where
  asleep : c.pc = .waitBlock → awake = false
  begun : c.id < begun
  set : c.pc = .doneNotify → awake = true
  waits : c.pc.ofWait = true → c.op = .wait

/-- The invariant of every reachable state. -/
structure Guard (s : State) : Prop where
  held : Held s.calls s.mutex
  calls : ∀ i c, s.calls.lookup i = some c → Fits s.awake s.begun c

theorem guard_init : Guard init where
  held := fun _ _ hi => by cases hi
  calls := fun _ _ hi => by cases hi

/-- A call of `done` has notified. -/
theorem Fits.doneUnlock {awake : Bool} {begun : Nat} {c : Call} (h : Fits awake begun c) :
    Fits awake begun { c with pc := .doneUnlock } :=
  ⟨fun hp => (by cases hp), h.begun, fun hp => (by cases hp), fun hp => (by cases hp)⟩

/-- A call of `wait` wakes up. -/
theorem Fits.wake {awake : Bool} {begun : Nat} {c : Call} (h : Fits awake begun c)
    (hc : c.pc.ofWait = true) {pc : Pc} (hpc : pc = .woken ∨ pc = .expired) :
    Fits awake begun { c with pc := pc } := by
  rcases hpc with rfl | rfl
  · exact ⟨fun hp => (by cases hp), h.begun, fun hp => (by cases hp), fun _ => h.waits hc⟩
  · exact ⟨fun hp => (by cases hp), h.begun, fun hp => (by cases hp), fun _ => h.waits hc⟩

theorem guard_step (s : State) (a : Action) (s' : State) (hG : Guard s)
    (h : step s a = some s') : Guard s' := by
  refine ⟨held_step hG.held h, ?_⟩
  cases step_turn h with
  | @enters i op hi =>
    refine Pool.forall_insert (fun j d hj => ?_) ⟨fun hp => ?_, Nat.lt_succ_self _,
      fun hp => ?_, fun hp => ?_⟩
    · have hd := hG.calls j d hj
      exact ⟨hd.asleep, Nat.lt_succ_of_lt hd.begun, hd.set, hd.waits⟩
    · cases op <;> cases hp
    · cases op <;> cases hp
    · cases op <;> first | rfl | cases hp
  | @goes i c _ hi h =>
    obtain ⟨hacts, hbegun⟩ := callerStep_acts h
    have hfit := hG.calls i c hi
    rw [hbegun]
    cases hacts with
    | sets hc ha hcalls =>
      rw [hcalls]
      intro j d hj
      rcases Pool.lookup_insert_some hj with ⟨-, rfl⟩ | ⟨hne, hj⟩
      · exact ⟨fun hp => (by cases hp), hfit.begun, fun _ => ha, fun hp => (by cases hp)⟩
      · refine ⟨fun hp => ?_, (hG.calls j d hj).begun, fun _ => ha, (hG.calls j d hj).waits⟩
        -- two threads would hold the mutex
        have hmi := hG.held i c hi (by rw [hc]; rfl)
        have hmj := hG.held j d hj (by rw [hp]; rfl)
        rw [hmi] at hmj
        exact absurd (Option.some.inj hmj).symm hne
    | ends hc ha hcalls =>
      rw [hcalls, ha]
      exact Pool.forall_erase hG.calls
    | moves pc hc ha hcalls hblock hsleep hheard hwait hset =>
      rw [hcalls, ha]
      exact Pool.forall_insert hG.calls ⟨hblock, hfit.begun, fun hp => absurd hp hset,
        fun hp => hfit.waits (hwait hp)⟩
  | throws hi hc => exact Pool.forall_erase hG.calls
  | @notifies i j c d hi hc hj hd =>
    have hcalls : ∀ k e, (s.goto i c .doneUnlock).calls.lookup k = some e →
        Fits s.awake s.begun e :=
      Pool.forall_insert hG.calls ((hG.calls i c hi).doneUnlock)
    exact Pool.forall_insert hcalls ((hcalls j d hj).wake (by rw [hd]; rfl) (Or.inl rfl))
  | @notifiesNobody i c hi hc hnone =>
    exact Pool.forall_insert hG.calls (hG.calls i c hi).doneUnlock
  | @wakes j d hj hd =>
    exact Pool.forall_insert hG.calls ((hG.calls j d hj).wake (by rw [hd]; rfl) (Or.inl rfl))
  | @expires j d hj hd =>
    refine Pool.forall_insert hG.calls ((hG.calls j d hj).wake ?_ (Or.inr rfl))
    rcases hd with hd | hd <;> rw [hd] <;> rfl

theorem reachable_guard {s : State} (h : Reachable step init s) : Guard s :=
  h.inv guard_step guard_init

/-! ## How many are blocked -/

section Blocked

variable {s : State} {i : Tid} {c : Call}

theorem unit_blocked (c : Call) :
    Pool.unit (fun c : Call => c.pc == .blocked) true c = (c.pc == .blocked).toNat := by
  unfold Pool.unit
  cases hc : c.pc == .blocked <;> simp [hc]

/-- What a call that moves does to the number of blocked threads. -/
theorem blocked_goto (hi : s.calls.lookup i = some c) (pc : Pc) :
    (s.goto i c pc).blocked + (c.pc == .blocked).toNat = s.blocked + (pc == .blocked).toNat := by
  have hc := unit_blocked c
  have hd := unit_blocked { c with pc := pc }
  rw [← hc]
  simp only at hd
  rw [← hd]
  exact Pool.tally_insert_old true hi

/-- And one that is over. -/
theorem blocked_return (hi : s.calls.lookup i = some c) :
    (s.return i).blocked + (c.pc == .blocked).toNat = s.blocked := by
  rw [← unit_blocked]
  exact Pool.tally_erase true hi

theorem blocked_enter (hi : s.calls.lookup i = none) (op : Op) :
    (s.enter i op).blocked = s.blocked := by
  have hentry : Pool.unit (fun c : Call => c.pc == .blocked) true ⟨op.entry, op, s.begun⟩ = 0 := by
    cases op <;> rfl
  have hnew := Pool.tally_insert_new (f := fun c : Call => c.pc == .blocked)
    (a := ⟨op.entry, op, s.begun⟩) true hi
  rw [hentry] at hnew
  exact hnew

theorem blocked_of_calls {s' t : State} (h : s'.calls = t.calls) : s'.blocked = t.blocked := by
  rw [State.blocked, h, State.blocked]

end Blocked

/-- The action is a notification, by a call of `done`. -/
def Action.notifies : Action → Bool
  | .notify _ _ | .notifyNobody _ => true
  | _ => false

/-- A thread wakes up without being notified. -/
def Action.strays : Action → Bool
  | .spurious _ | .expire _ => true
  | _ => false

/-- **One step once `awake_` is set**: nobody blocks any more, and a notification wakes
one of the blocked threads if there is any. -/
theorem blocked_step {s s' : State} {a : Action} (hG : Guard s) (ha : s.awake = true)
    (h : step s a = some s') :
    s'.awake = true ∧ s'.blocked ≤ s.blocked - a.notifies.toNat ∧
      (a.strays = false → s'.blocked = s.blocked - a.notifies.toNat) := by
  cases step_turn h with
  | @enters i op hi =>
    have hsame := blocked_enter hi op
    exact ⟨ha, Nat.le_of_eq hsame, fun _ => hsame⟩
  | @goes i c _ hi h =>
    obtain ⟨hacts, -⟩ := callerStep_acts h
    have hsame : s'.awake = true ∧ s'.blocked = s.blocked := by
      cases hacts with
      | sets hc ha' hcalls =>
        have hcount := blocked_goto hi .doneNotify
        rw [hc] at hcount
        exact ⟨ha', (blocked_of_calls hcalls).trans hcount⟩
      | ends hc ha' hcalls =>
        have hcount := blocked_return hi
        rw [beq_false_of_ne hc] at hcount
        exact ⟨ha'.trans ha, (blocked_of_calls hcalls).trans hcount⟩
      | moves pc hc ha' hcalls hblock hsleep hheard hwait hset =>
        have hpc : pc ≠ .blocked := by
          intro hp
          have hasleep := (hG.calls i c hi).asleep (hsleep hp)
          rw [ha] at hasleep
          cases hasleep
        have hcount := blocked_goto hi pc
        rw [beq_false_of_ne hc, beq_false_of_ne hpc] at hcount
        exact ⟨ha'.trans ha, (blocked_of_calls hcalls).trans hcount⟩
    exact ⟨hsame.1, Nat.le_of_eq hsame.2, fun _ => hsame.2⟩
  | @throws i c hi hc =>
    have hsame := blocked_return hi
    have hne : (c.pc == .blocked) = false := by
      rcases hc with hc | hc <;> rw [hc] <;> rfl
    rw [hne] at hsame
    exact ⟨ha, Nat.le_of_eq hsame, fun _ => hsame⟩
  | @notifies i j c d hi hc hj hd =>
    have hfirst := blocked_goto hi .doneUnlock
    have hsecond := blocked_goto hj .woken
    rw [hc] at hfirst
    rw [hd] at hsecond
    have hone : ((s.goto i c .doneUnlock).goto j d .woken).blocked + 1 = s.blocked :=
      hsecond.trans hfirst
    simp only [Action.notifies, Bool.toNat_true]
    exact ⟨ha, by omega, fun _ => by omega⟩
  | @notifiesNobody i c hi hc hnone =>
    have hsame := blocked_goto hi .doneUnlock
    rw [hc] at hsame
    have hzero : (s.goto i c .doneUnlock).blocked = s.blocked := hsame
    simp only [Action.notifies, Bool.toNat_true]
    exact ⟨ha, by omega, fun _ => by omega⟩
  | @wakes j d hj hd =>
    have hone := blocked_goto hj .woken
    rw [hd] at hone
    have hle : (s.goto j d .woken).blocked ≤ s.blocked := Nat.le.intro hone
    exact ⟨ha, hle, fun hstray => by cases hstray⟩
  | @expires j d hj hd =>
    have hcount := blocked_goto hj .expired
    have hle : (s.goto j d .expired).blocked ≤ s.blocked := Nat.le.intro hcount
    exact ⟨ha, hle, fun hstray => by cases hstray⟩

/-- **A run once `awake_` is set.** -/
theorem blocked_run : ∀ (as : List Action) {s s' : State}, Guard s → s.awake = true →
    run step s as = some s' →
      s'.awake = true ∧ s'.blocked ≤ s.blocked - as.countP Action.notifies ∧
      ((∀ a ∈ as, a.strays = false) → s'.blocked = s.blocked - as.countP Action.notifies)
  | [], s, s', _, ha, h => by
    rw [run_nil, Option.some.injEq] at h
    subst h
    exact ⟨ha, Nat.le_refl _, fun _ => rfl⟩
  | a :: as, s, s', hG, ha, h => by
    obtain ⟨s₁, h₁, h₂⟩ := run_cons_some.mp h
    obtain ⟨ha₁, hle₁, heq₁⟩ := blocked_step hG ha h₁
    obtain ⟨ha', hle, heq⟩ := blocked_run as (guard_step s a s₁ hG h₁) ha₁ h₂
    have hcount : (a :: as).countP Action.notifies =
        as.countP Action.notifies + a.notifies.toNat := by
      rw [List.countP_cons]
      cases a.notifies <;> rfl
    rw [hcount]
    refine ⟨ha', by omega, fun hstray => ?_⟩
    have hhere := heq₁ (hstray a List.mem_cons_self)
    have hrest := heq fun b hb => hstray b (List.mem_cons_of_mem a hb)
    omega

/-! ## Who calls `wait` once `awake_` is set -/

/-- A call that began when `n` had begun does not wait. -/
def Late (n : Nat) (c : Call) : Prop := n ≤ c.id → c.pc.heard = true

structure Heard (n : Nat) (s : State) : Prop where
  awake : s.awake = true
  begun : n ≤ s.begun
  calls : ∀ i c, s.calls.lookup i = some c → Late n c

theorem heard_step (n : Nat) (s : State) (a : Action) (s' : State) (hH : Heard n s)
    (h : step s a = some s') : Heard n s' := by
  -- a call that blocks, or did, began earlier
  have hwake : ∀ {d : Call}, Late n d → d.pc.heard = false → ∀ pc, Late n { d with pc := pc } := by
    intro d hlate hd pc hid
    rw [hlate hid] at hd
    cases hd
  cases step_turn h with
  | @enters i op hi =>
    refine ⟨hH.awake, Nat.le_succ_of_le hH.begun, ?_⟩
    refine Pool.forall_insert hH.calls fun _ => ?_
    cases op <;> rfl
  | @goes i c _ hi h =>
    obtain ⟨hacts, hbegun⟩ := callerStep_acts h
    have hn : n ≤ s'.begun := hbegun ▸ hH.begun
    cases hacts with
    | sets hc ha hcalls =>
      refine ⟨ha, hn, ?_⟩
      rw [hcalls]
      exact Pool.forall_insert hH.calls fun _ => rfl
    | ends hc ha hcalls =>
      refine ⟨ha.trans hH.awake, hn, ?_⟩
      rw [hcalls]
      exact Pool.forall_erase hH.calls
    | moves pc hc ha hcalls hblock hsleep hheard hwait hset =>
      refine ⟨ha.trans hH.awake, hn, ?_⟩
      rw [hcalls]
      exact Pool.forall_insert hH.calls
        fun hid => hheard hH.awake (hH.calls i c hi hid)
  | throws hi hc =>
    exact ⟨hH.awake, hH.begun,
      Pool.forall_erase hH.calls⟩
  | @notifies i j c d hi hc hj hd =>
    have hcalls : ∀ k e, (s.goto i c .doneUnlock).calls.lookup k = some e → Late n e :=
      Pool.forall_insert hH.calls fun _ => rfl
    exact ⟨hH.awake, hH.begun, Pool.forall_insert hcalls (hwake (hcalls j d hj) (by rw [hd]; rfl) _)⟩
  | notifiesNobody hi hc hnone =>
    exact ⟨hH.awake, hH.begun,
      Pool.forall_insert hH.calls fun _ => rfl⟩
  | @wakes j d hj hd =>
    exact ⟨hH.awake, hH.begun, Pool.forall_insert hH.calls (hwake (hH.calls j d hj) (by rw [hd]; rfl) _)⟩
  | @expires j d hj hd =>
    refine ⟨hH.awake, hH.begun, Pool.forall_insert hH.calls (hwake (hH.calls j d hj) ?_ _)⟩
    rcases hd with hd | hd <;> rw [hd] <;> rfl

/-- **Who hears `done`.** Let `awake_` be set in a reachable state, and let the run go on
from there. `awake_` stays set. Each call of `done` wakes one of the threads that were
blocked, if there is one left, and besides them only those leave `wait_for` that wake up
spuriously or time out. Whoever calls `wait` later does not block, and is told
`no_timeout`. -/
theorem done_heard {s s' : State} (h : Reachable step init s) (ha : s.awake = true)
    {as : List Action} (hrun : run step s as = some s') :
    s'.awake = true ∧ s'.blocked ≤ s.blocked - as.countP Action.notifies ∧
    ((∀ a ∈ as, a.strays = false) → s'.blocked = s.blocked - as.countP Action.notifies) ∧
    ∀ j c, s'.calls.lookup j = some c → s.begun ≤ c.id → c.pc.heard = true := by
  have hG := reachable_guard h
  obtain ⟨ha', hle, heq⟩ := blocked_run as hG ha hrun
  refine ⟨ha', hle, heq, ?_⟩
  have hH : Heard s.begun s :=
    ⟨ha, Nat.le_refl _, fun i c hi hid => absurd (hG.calls i c hi).begun (Nat.not_lt.mpr hid)⟩
  exact (run_inv (heard_step s.begun) as hrun hH).calls

/-- Threads 1 and 2 wait and block, and thread 0 is about to notify. -/
def twoBlocked : List Action :=
  [.call 1 .wait, .caller 1, .caller 1, .caller 1, .call 2 .wait, .caller 2, .caller 2,
    .caller 2, .call 0 .waker, .caller 0, .caller 0, .caller 0]

/-- A single call of `done` leaves one of two threads blocked. -/
theorem done_heard_two : ∃ s s', run step init twoBlocked = some s ∧
    run step s [.notify 0 1, .caller 0] = some s' ∧ s.blocked = 2 ∧ s'.blocked = 1 := by
  have hheard := @done_heard _ _ ⟨twoBlocked, rfl⟩ rfl [.notify 0 1, .caller 0] rfl
  exact ⟨_, _, rfl, rfl, rfl, hheard.2.2.1 (by decide)⟩

/-! ## As many calls of `done` as threads wait -/

/-- How many calls of `wait` are in progress. -/
def State.waiting (s : State) : Nat := s.calls.tally (fun c => c.op) .wait

/-- No more than `W` threads wait at once. -/
def AtMost (W : Nat) (s : State) : Action → Prop
  | .call _ .wait => s.waiting < W
  | _ => True

instance (W : Nat) (s : State) : (a : Action) → Decidable (AtMost W s a)
  | .call _ .wait => inferInstanceAs (Decidable (s.waiting < W))
  | .call _ .wrapped | .call _ .waker | .caller _ | .throws _ | .notify _ _ | .notifyNobody _
  | .spurious _ | .expire _ => inferInstanceAs (Decidable True)

/-- Who is blocked waits. -/
theorem Guard.blocked_le {s : State} (hG : Guard s) : s.blocked ≤ s.waiting := by
  refine Pool.tally_le fun i c hi hc => (hG.calls i c hi).waits ?_
  rw [beq_iff_eq.mp hc]
  rfl

theorem waiting_goto {s : State} {i : Tid} {c : Call} (hi : s.calls.lookup i = some c) (pc : Pc) :
    (s.goto i c pc).waiting = s.waiting := by
  have hold := Pool.tally_insert_old (f := fun c : Call => c.op) (a := { c with pc := pc })
    Op.wait hi
  exact Nat.add_right_cancel hold

theorem waiting_return {s : State} {i : Tid} {c : Call} (hi : s.calls.lookup i = some c) :
    (s.return i).waiting ≤ s.waiting := by
  have herase := Pool.tally_erase (f := fun c : Call => c.op) Op.wait hi
  exact Nat.le.intro herase

theorem waiting_enter {s : State} {i : Tid} (hi : s.calls.lookup i = none) (op : Op) :
    (s.enter i op).waiting = s.waiting + if op = .wait then 1 else 0 := by
  have hnew := Pool.tally_insert_new (f := fun c : Call => c.op)
    (a := ⟨op.entry, op, s.begun⟩) Op.wait hi
  have hunit : Pool.unit (fun c : Call => c.op) Op.wait ⟨op.entry, op, s.begun⟩ =
      if op = .wait then 1 else 0 := by
    cases op <;> rfl
  rw [hunit] at hnew
  exact hnew

theorem waiting_of_calls {s t : State} (h : s.calls = t.calls) : s.waiting = t.waiting := by
  rw [State.waiting, h, State.waiting]

theorem waiting_step {W : Nat} {s s' : State} {a : Action} (hW : s.waiting ≤ W)
    (hC : AtMost W s a) (h : step s a = some s') : s'.waiting ≤ W := by
  cases step_turn h with
  | @enters i op hi =>
    rw [waiting_enter hi]
    cases op with
    | wait => exact hC
    | wrapped => exact hW
    | waker => exact hW
  | @goes i c _ hi h =>
    refine Nat.le_trans ?_ hW
    cases (callerStep_acts h).1 with
    | sets hc ha hcalls =>
      exact Nat.le_of_eq ((waiting_of_calls hcalls).trans (waiting_goto hi .doneNotify))
    | ends hc ha hcalls => exact (waiting_of_calls hcalls).trans_le (waiting_return hi)
    | moves pc hc ha hcalls hblock hsleep hheard hwait hset =>
      exact Nat.le_of_eq ((waiting_of_calls hcalls).trans (waiting_goto hi pc))
  | throws hi hc => exact Nat.le_trans (waiting_return hi) hW
  | @notifies i j c d hi hc hj hd =>
    rw [waiting_goto hj .woken, waiting_goto hi .doneUnlock]
    exact hW
  | @notifiesNobody i c hi hc hnone => rw [waiting_goto hi .doneUnlock]; exact hW
  | wakes hj hd => rw [waiting_goto hj .woken]; exact hW
  | expires hj hd => rw [waiting_goto hj .expired]; exact hW

/-- A notification comes from where `awake_` is set. -/
theorem notifies_awake {s s' : State} {a : Action} (hG : Guard s) (ha : a.notifies = true)
    (h : step s a = some s') : s.awake = true := by
  cases step_turn h with
  | notifies hi hc hj hd => exact (hG.calls _ _ hi).set hc
  | notifiesNobody hi hc hnone => exact (hG.calls _ _ hi).set hc
  | _ => cases ha

/-- After `n` notifications, none before `awake_` was set, at most `W - n` of the `W`
threads that wait at once are blocked. -/
structure Leaves (W n : Nat) (s : State) : Prop where
  guard : Guard s
  waiting : s.waiting ≤ W
  asleep : s.awake = false → n = 0
  awake : s.awake = true → s.blocked ≤ W - n

theorem leaves_step {W n : Nat} {s s' : State} {a : Action} (hL : Leaves W n s)
    (hC : AtMost W s a) (h : step s a = some s') : Leaves W (n + a.notifies.toNat) s' := by
  have hG' : Guard s' := guard_step s a s' hL.guard h
  have hwait' : s'.waiting ≤ W := waiting_step hL.waiting hC h
  cases ha : s.awake with
  | true =>
    obtain ⟨ha', hle, -⟩ := blocked_step hL.guard ha h
    have hbound := hL.awake ha
    refine ⟨hG', hwait', fun hno => ?_, fun _ => by omega⟩
    rw [ha'] at hno
    cases hno
  | false =>
    have hnot : a.notifies = false := by
      cases hn : a.notifies with
      | false => rfl
      | true =>
        have hawake := notifies_awake hL.guard hn h
        rw [ha] at hawake
        cases hawake
    have hzero := hL.asleep ha
    have hle : s'.blocked ≤ W := Nat.le_trans hG'.blocked_le hwait'
    rw [hnot, Bool.toNat_false]
    exact ⟨hG', hwait', fun _ => hzero, fun _ => by omega⟩

theorem leaves_run {W : Nat} : ∀ (as : List Action) {n : Nat} {s s' : State}, Leaves W n s →
    run step s as = some s' → Along step (AtMost W) s as →
      Leaves W (n + as.countP Action.notifies) s'
  | [], n, s, s', hL, h, _ => by
    rw [run_nil, Option.some.injEq] at h
    subst h
    exact hL
  | a :: as, n, s, s', hL, h, hC => by
    obtain ⟨s₁, h₁, h₂⟩ := run_cons_some.mp h
    have hrest := leaves_run as (leaves_step hL hC.1 h₁) h₂ (hC.2 s₁ h₁)
    have hcount : n + a.notifies.toNat + as.countP Action.notifies =
        n + (a :: as).countP Action.notifies := by
      rw [List.countP_cons]
      cases a.notifies <;> simp
      omega
    exact hcount ▸ hrest

/-- **As many calls of `done` as threads wait.** If no more than `W` threads wait at once,
`n` notifications leave at most `W - n` of them blocked: a single one does for the single
creator of a future. -/
theorem waiters_woken {W : Nat} {as : List Action} {s : State}
    (hrun : run step init as = some s) (hW : Along step (AtMost W) init as)
    (ha : s.awake = true) : s.blocked ≤ W - as.countP Action.notifies := by
  have hinit : Leaves W 0 init := ⟨guard_init, Nat.zero_le W, fun _ => rfl, fun h => by cases h⟩
  have hL := (leaves_run as hinit hrun hW).awake ha
  rw [Nat.zero_add] at hL
  exact hL

/-- Thread 1 waits and blocks, and thread 0 runs its waker. -/
def oneBlocked : List Action :=
  [.call 1 .wait, .caller 1, .caller 1, .caller 1, .call 0 .waker, .caller 0, .caller 0,
    .caller 0, .notify 0 1]

theorem waiters_woken_one : ∃ s, run step init oneBlocked = some s ∧ s.awake = true ∧
    s.blocked ≤ 0 := by
  have hone : Along step (AtMost 1) init oneBlocked := by decide
  exact ⟨_, rfl, rfl, @waiters_woken 1 oneBlocked _ rfl hone rfl⟩

end Cor.Mt.Future

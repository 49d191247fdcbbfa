import Mathlib.Tactic.ByContra
import Cor.Lib.Run
import Cor.Lib.Pool

/-!
# `ScopeExit<T>`: how often the function is invoked

The objects that share one function: the one that `on_scope_exit` makes and those
that are move-constructed from it. An invocation takes time. While it lasts the
function may itself use the objects, so the state keeps a stack of the invocations
that have not ended, and the actions say when the innermost one returns or throws.

`is_called_` is set when `fn_()` has returned. So an object that is called while its
function runs invokes it again, and so does one whose explicit call threw: it stays
armed, and its destructor tries once more. `scopeExit_invoked` counts the
invocations of a run without the first kind of accident, and `scopeExit_once` is
what is left of the guarantee without both.
-/

namespace Cor.ScopeExit

open Cor.Lib

/-- `fn_`: the wrapped function, or what is left of it after a move. -/
inductive Fn
  | wrapped
  | movedFrom
deriving DecidableEq

/-- One `ScopeExit` object. -/
structure Obj where
  isCalled : Bool
  fn : Fn
deriving DecidableEq

/-- Who called `operator ()`. -/
inductive Caller
  | explicit
  | destructor
deriving DecidableEq

/-- An invocation of `fn_` that has not ended. -/
structure Frame where
  obj : Nat
  caller : Caller
deriving DecidableEq

/-- The live objects, the invocations that have not ended, the innermost one first, the
number of times the wrapped function was `invoked`, the number of times an explicit call of
it has `thrown`, and whether `std::terminate` was called. -/
structure State where
  objs : Pool Obj
  running : List Frame
  invoked : Nat
  thrown : Nat
  terminated : Bool

/-- `on_scope_exit(fn)`, which makes object 0. -/
def init : State := ⟨(∅ : Pool Obj).insert 0 ⟨false, .wrapped⟩, [], 0, 0, false⟩

inductive Op
  /-- `ScopeExit dst(std::move(src))` -/
  | move (src dst : Nat)
  /-- `o()` -/
  | call (o : Nat)
  /-- `~ScopeExit()` -/
  | destroy (o : Nat)
  /-- The innermost invocation returns. -/
  | returns
  /-- The innermost invocation throws. -/
  | throws
deriving DecidableEq

/-- `fn_()`: the invocation begins. -/
def State.invoke (s : State) (o : Nat) (x : Obj) (caller : Caller) : State :=
  { s with
    running := ⟨o, caller⟩ :: s.running
    invoked := s.invoked + if x.fn = .wrapped then 1 else 0 }

/-- One action; `none` if it is not possible, and after `std::terminate`. -/
def step (s : State) (op : Op) : Option State :=
  if s.terminated then none
  else match op with
  | .move src dst =>
    match s.objs.lookup src, s.objs.lookup dst with
    | some x, none =>
      some { s with objs := (s.objs.insert src ⟨true, .movedFrom⟩).insert dst x }
    | _, _ => none
  | .call o =>
    match s.objs.lookup o with
    | some x => if x.isCalled then some s else some (s.invoke o x .explicit)
    | none => none
  | .destroy o =>
    match s.objs.lookup o with
    | some x =>
      if x.isCalled then some { s with objs := s.objs.erase o }
      else some (s.invoke o x .destructor)
    | none => none
  | .returns =>
    match s.running with
    | ⟨o, caller⟩ :: running =>
      match s.objs.lookup o with
      | some x =>
        -- `is_called_ = true;`, and a destructor goes on to its end
        match caller with
        | .explicit => some { s with objs := s.objs.insert o { x with isCalled := true }, running }
        | .destructor => some { s with objs := s.objs.erase o, running }
      | none => none
    | [] => none
  | .throws =>
    match s.running with
    | ⟨_, .explicit⟩ :: running => some { s with running, thrown := s.thrown + 1 }
    -- the destructor is `noexcept`
    | ⟨_, .destructor⟩ :: _ => some { s with terminated := true }
    | [] => none

/-- What an action that is possible does, one case for each way it can go. -/
inductive StepSpec (s : State) : Op → State → Prop
  | move {src dst : Nat} {x : Obj} (hsrc : s.objs.lookup src = some x)
      (hdst : s.objs.lookup dst = none) :
      StepSpec s (.move src dst)
        { s with objs := (s.objs.insert src ⟨true, .movedFrom⟩).insert dst x }
  | callDone {o : Nat} {x : Obj} (ho : s.objs.lookup o = some x) (hx : x.isCalled = true) :
      StepSpec s (.call o) s
  | call {o : Nat} {x : Obj} (ho : s.objs.lookup o = some x) (hx : x.isCalled = false) :
      StepSpec s (.call o) (s.invoke o x .explicit)
  | destroyDone {o : Nat} {x : Obj} (ho : s.objs.lookup o = some x) (hx : x.isCalled = true) :
      StepSpec s (.destroy o) { s with objs := s.objs.erase o }
  | destroy {o : Nat} {x : Obj} (ho : s.objs.lookup o = some x) (hx : x.isCalled = false) :
      StepSpec s (.destroy o) (s.invoke o x .destructor)
  | callReturns {o : Nat} {x : Obj} {running : List Frame}
      (hrun : s.running = ⟨o, .explicit⟩ :: running) (ho : s.objs.lookup o = some x) :
      StepSpec s .returns { s with objs := s.objs.insert o { x with isCalled := true }, running }
  | destructorReturns {o : Nat} {x : Obj} {running : List Frame}
      (hrun : s.running = ⟨o, .destructor⟩ :: running) (ho : s.objs.lookup o = some x) :
      StepSpec s .returns { s with objs := s.objs.erase o, running }
  | callThrows {o : Nat} {running : List Frame} (hrun : s.running = ⟨o, .explicit⟩ :: running) :
      StepSpec s .throws { s with running, thrown := s.thrown + 1 }
  | destructorThrows {o : Nat} {running : List Frame}
      (hrun : s.running = ⟨o, .destructor⟩ :: running) :
      StepSpec s .throws { s with terminated := true }

/-- **The inversion lemma of `step`.** -/
theorem step_cases {s s' : State} {op : Op} (h : step s op = some s') :
    s.terminated = false ∧ StepSpec s op s' := by
  unfold step at h
  split at h
  · exact absurd h (by simp)
  next hterm =>
  refine ⟨eq_false_of_ne_true hterm, ?_⟩
  cases op with
  | move src dst =>
    simp only at h
    split at h
    next hsrc hdst =>
      obtain rfl := Option.some.inj h
      exact .move hsrc hdst
    next => exact absurd h (by simp)
  | call o =>
    simp only at h
    split at h
    next x ho =>
      split at h <;> obtain rfl := Option.some.inj h
      next hx => exact .callDone ho hx
      next hx => exact .call ho (eq_false_of_ne_true hx)
    next => exact absurd h (by simp)
  | destroy o =>
    simp only at h
    split at h
    next x ho =>
      split at h <;> obtain rfl := Option.some.inj h
      next hx => exact .destroyDone ho hx
      next hx => exact .destroy ho (eq_false_of_ne_true hx)
    next => exact absurd h (by simp)
  | returns =>
    simp only at h
    split at h
    next o caller running hrun =>
      split at h
      next x ho =>
        cases caller with
        | explicit =>
          obtain rfl := Option.some.inj h
          exact .callReturns hrun ho
        | destructor =>
          obtain rfl := Option.some.inj h
          exact .destructorReturns hrun ho
      next => exact absurd h (by simp)
    next => exact absurd h (by simp)
  | throws =>
    simp only at h
    split at h
    next o running hrun =>
      obtain rfl := Option.some.inj h
      exact .callThrows hrun
    next o running hrun =>
      obtain rfl := Option.some.inj h
      exact .destructorThrows hrun
    next => exact absurd h (by simp)

/-! ## The armed object -/

/-- Every live object has its flag set. -/
def Spent (objs : Pool Obj) : Prop := ∀ p x, objs.lookup p = some x → x.isCalled = true

/-- Object `o` holds the function and its flag is not set; those of the others are. -/
structure Armed (objs : Pool Obj) (o : Nat) : Prop where
  holds : objs.lookup o = some ⟨false, .wrapped⟩
  others : ∀ p x, objs.lookup p = some x → p ≠ o → x.isCalled = true

section Armed

variable {objs : Pool Obj} {o p src dst : Nat} {x : Obj}

theorem Armed.eq (h : Armed objs o) (hp : objs.lookup p = some x) (hx : x.isCalled = false) :
    p = o ∧ x = ⟨false, .wrapped⟩ := by
  by_cases hpo : p = o
  · subst hpo
    rw [h.holds] at hp
    exact ⟨rfl, (Option.some.inj hp).symm⟩
  · have hcalled := h.others p x hp hpo
    rw [hx] at hcalled
    exact nomatch hcalled

/-- A move from the armed object arms the new one. -/
theorem Armed.move (h : Armed objs src) (hsrc : objs.lookup src = some x) :
    Armed ((objs.insert src ⟨true, .movedFrom⟩).insert dst x) dst := by
  obtain rfl : x = ⟨false, .wrapped⟩ := by
    rw [h.holds] at hsrc
    exact (Option.some.inj hsrc).symm
  refine ⟨Finmap.lookup_insert _, ?_⟩
  intro p y hp hne
  rcases Pool.lookup_insert_some hp with ⟨hpd, -⟩ | ⟨-, hp⟩
  · exact absurd hpd hne
  rcases Pool.lookup_insert_some hp with ⟨-, rfl⟩ | ⟨hps, hp⟩
  · rfl
  · exact h.others p y hp hps

/-- A move between other objects leaves the armed one armed. -/
theorem Armed.move_other (h : Armed objs o) (hsrc : objs.lookup src = some x) (hne : src ≠ o)
    (hdst : objs.lookup dst = none) :
    Armed ((objs.insert src ⟨true, .movedFrom⟩).insert dst x) o := by
  have hod : o ≠ dst := by
    rintro rfl
    rw [h.holds] at hdst
    exact nomatch hdst
  refine ⟨?_, ?_⟩
  · rw [Finmap.lookup_insert_of_ne _ hod, Finmap.lookup_insert_of_ne _ (Ne.symm hne), h.holds]
  · intro p y hp hpo
    rcases Pool.lookup_insert_some hp with ⟨-, rfl⟩ | ⟨-, hp⟩
    · exact h.others src y hsrc hne
    rcases Pool.lookup_insert_some hp with ⟨-, rfl⟩ | ⟨-, hp⟩
    · rfl
    · exact h.others p y hp hpo

theorem Armed.erase_other (h : Armed objs o) (hne : p ≠ o) : Armed (objs.erase p) o := by
  refine ⟨?_, ?_⟩
  · rw [Finmap.lookup_erase_ne (Ne.symm hne), h.holds]
  · intro q y hq hqo
    exact h.others q y (Pool.lookup_erase_some hq).2 hqo

/-- When its flag is set no object is armed. -/
theorem Armed.fire (h : Armed objs o) : Spent (objs.insert o { x with isCalled := true }) := by
  intro p y hp
  rcases Pool.lookup_insert_some hp with ⟨-, rfl⟩ | ⟨hpo, hp⟩
  · rfl
  · exact h.others p y hp hpo

theorem Armed.destroy (h : Armed objs o) : Spent (objs.erase o) := by
  intro p y hp
  obtain ⟨hpo, hp⟩ := Pool.lookup_erase_some hp
  exact h.others p y hp hpo

theorem Spent.move (h : Spent objs) (hsrc : objs.lookup src = some x) :
    Spent ((objs.insert src ⟨true, .movedFrom⟩).insert dst x) :=
  Pool.forall_insert (Pool.forall_insert h rfl) (h src x hsrc)

theorem Spent.erase (h : Spent objs) : Spent (objs.erase p) := Pool.forall_erase h

theorem Spent.isCalled_ne (h : Spent objs) (hp : objs.lookup p = some x)
    (hx : x.isCalled = false) : False := by
  have hcalled := h p x hp
  rw [hx] at hcalled
  exact nomatch hcalled

end Armed

/-! ## The phases of a run -/

/-- Where the function stands: before an invocation, in one, or after one that returned. -/
inductive Phase (s : State) : Prop
  | armed (o : Nat) (hrun : s.running = []) (hcount : s.invoked = s.thrown)
      (h : Armed s.objs o)
  | running (o : Nat) (caller : Caller) (hrun : s.running = [⟨o, caller⟩])
      (hcount : s.invoked = s.thrown + 1) (h : Armed s.objs o)
  | spent (hrun : s.running = []) (hcount : s.invoked = s.thrown + 1) (h : Spent s.objs)

/-- No object is moved from, called or destroyed while its function runs. -/
def NotReentrant (s : State) : Op → Prop
  | .move src _ => src ∉ s.running.map Frame.obj
  | .call o => o ∉ s.running.map Frame.obj
  | .destroy o => o ∉ s.running.map Frame.obj
  | .returns => True
  | .throws => True

instance (s : State) : (op : Op) → Decidable (NotReentrant s op)
  | .move src _ => inferInstanceAs (Decidable (src ∉ s.running.map Frame.obj))
  | .call o => inferInstanceAs (Decidable (o ∉ s.running.map Frame.obj))
  | .destroy o => inferInstanceAs (Decidable (o ∉ s.running.map Frame.obj))
  | .returns => inferInstanceAs (Decidable True)
  | .throws => inferInstanceAs (Decidable True)

/-- An invocation made by an explicit call does not throw. -/
def CallReturns (s : State) (op : Op) : Prop :=
  op = .throws → ∀ f ∈ s.running.head?, f.caller = .destructor

instance (s : State) (op : Op) : Decidable (CallReturns s op) :=
  inferInstanceAs (Decidable (op = .throws → ∀ f ∈ s.running.head?, f.caller = .destructor))

theorem init_phase : Phase init := by
  refine .armed 0 rfl rfl ⟨Finmap.lookup_insert _, ?_⟩
  intro p x hp hne
  rcases Pool.lookup_insert_some hp with ⟨hp, -⟩ | ⟨-, hp⟩
  · exact absurd hp hne
  · rw [Finmap.lookup_empty] at hp
    exact nomatch hp

/-- An invocation begins on the armed object. -/
theorem invoke_phase {s : State} {o p : Nat} {x : Obj} (caller : Caller) (hrun : s.running = [])
    (hcount : s.invoked = s.thrown) (h : Armed s.objs o) (hp : s.objs.lookup p = some x)
    (hx : x.isCalled = false) : Phase (s.invoke p x caller) := by
  obtain ⟨rfl, rfl⟩ := h.eq hp hx
  refine .running p caller ?_ ?_ h
  · show ⟨p, caller⟩ :: s.running = _
    rw [hrun]
  · show s.invoked + 1 = s.thrown + 1
    rw [hcount]

/-- No invocation begins on an object while another runs. -/
theorem step_phase (s : State) (op : Op) (s' : State) (hP : Phase s) (hN : NotReentrant s op)
    (h : step s op = some s') : Phase s' := by
  obtain ⟨-, hspec⟩ := step_cases h
  -- without an invocation there is none to end
  have hidle : s.running = [] → ∀ {f : Frame} {rest : List Frame}, s.running ≠ f :: rest := by
    intro hrun f rest hrun'
    rw [hrun] at hrun'
    exact nomatch hrun'
  cases hP with
  | armed o hrun hcount hA =>
    cases hspec with
    | @move src dst x hsrc hdst =>
      by_cases hso : src = o
      · subst hso
        exact .armed dst hrun hcount (hA.move hsrc)
      · exact .armed o hrun hcount (hA.move_other hsrc hso hdst)
    | callDone ho hx => exact .armed o hrun hcount hA
    | call ho hx => exact invoke_phase _ hrun hcount hA ho hx
    | @destroyDone p x ho hx =>
      have hpo : p ≠ o := by
        rintro rfl
        rw [hA.holds] at ho
        obtain rfl := Option.some.inj ho
        exact nomatch hx
      exact .armed o hrun hcount (hA.erase_other hpo)
    | destroy ho hx => exact invoke_phase _ hrun hcount hA ho hx
    | callReturns hrun' ho => exact absurd hrun' (hidle hrun)
    | destructorReturns hrun' ho => exact absurd hrun' (hidle hrun)
    | callThrows hrun' => exact absurd hrun' (hidle hrun)
    | destructorThrows hrun' => exact absurd hrun' (hidle hrun)
  | running o caller hrun hcount hA =>
    have hother : ∀ {p : Nat}, p ∉ s.running.map Frame.obj → p ≠ o := by
      rintro p hp rfl
      rw [hrun] at hp
      exact hp (by simp)
    cases hspec with
    | move hsrc hdst => exact .running o caller hrun hcount (hA.move_other hsrc (hother hN) hdst)
    | callDone ho hx => exact .running o caller hrun hcount hA
    | call ho hx => exact absurd (hA.eq ho hx).1 (hother hN)
    | destroyDone ho hx => exact .running o caller hrun hcount (hA.erase_other (hother hN))
    | destroy ho hx => exact absurd (hA.eq ho hx).1 (hother hN)
    | callReturns hrun' ho =>
      rw [hrun, List.cons.injEq, Frame.mk.injEq] at hrun'
      obtain ⟨⟨rfl, -⟩, rfl⟩ := hrun'
      exact .spent rfl hcount hA.fire
    | destructorReturns hrun' ho =>
      rw [hrun, List.cons.injEq, Frame.mk.injEq] at hrun'
      obtain ⟨⟨rfl, -⟩, rfl⟩ := hrun'
      exact .spent rfl hcount hA.destroy
    | callThrows hrun' =>
      -- the flag was not set: the object is as armed as before
      rw [hrun, List.cons.injEq, Frame.mk.injEq] at hrun'
      obtain ⟨⟨rfl, -⟩, rfl⟩ := hrun'
      exact .armed o rfl hcount hA
    | destructorThrows hrun' => exact .running o caller hrun hcount hA
  | spent hrun hcount hS =>
    cases hspec with
    | move hsrc hdst => exact .spent hrun hcount (hS.move hsrc)
    | callDone ho hx => exact .spent hrun hcount hS
    | call ho hx => exact (hS.isCalled_ne ho hx).elim
    | destroyDone ho hx => exact .spent hrun hcount hS.erase
    | destroy ho hx => exact (hS.isCalled_ne ho hx).elim
    | callReturns hrun' ho => exact absurd hrun' (hidle hrun)
    | destructorReturns hrun' ho => exact absurd hrun' (hidle hrun)
    | callThrows hrun' => exact absurd hrun' (hidle hrun)
    | destructorThrows hrun' => exact absurd hrun' (hidle hrun)

/-! ## Whole runs -/

theorem run_phase {ops : List Op} {s : State} (h : run step init ops = some s)
    (hN : Along step NotReentrant init ops) : Phase s :=
  run_inv_along step_phase ops h hN init_phase

/-- **How often the function was invoked** once all the objects are gone: once for each
explicit call that threw, and once more. -/
theorem scopeExit_invoked {ops : List Op} {s : State} (h : run step init ops = some s)
    (hN : Along step NotReentrant init ops) (hend : s.objs = ∅) : s.invoked = s.thrown + 1 := by
  cases run_phase h hN with
  | armed o hrun hcount hA =>
    have hholds := hA.holds
    rw [hend, Finmap.lookup_empty] at hholds
    exact nomatch hholds
  | running o caller hrun hcount hA => exact hcount
  | spent hrun hcount hS => exact hcount

/-- Only an explicit call adds to the ones that threw. -/
theorem step_thrown {s s' : State} {op : Op} (h : step s op = some s') :
    s.thrown ≤ s'.thrown ∧ (CallReturns s op → s'.thrown = s.thrown) ∧
      (¬ CallReturns s op → s'.thrown = s.thrown + 1) := by
  obtain ⟨-, hspec⟩ := step_cases h
  cases hspec with
  | callThrows hrun =>
    refine ⟨Nat.le_succ _, ?_, fun _ => rfl⟩
    intro hC
    have hcaller := hC rfl
    rw [hrun] at hcaller
    exact nomatch hcaller ⟨_, .explicit⟩ rfl
  | destructorThrows hrun =>
    refine ⟨Nat.le_refl _, fun _ => rfl, ?_⟩
    intro hC
    refine absurd ?_ hC
    intro _ f hf
    rw [hrun, List.head?_cons, Option.mem_some_iff] at hf
    exact hf ▸ rfl
  | move | callDone | call | destroyDone | destroy | callReturns | destructorReturns =>
    exact ⟨Nat.le_refl _, fun _ => rfl, fun hC => absurd (fun hop => nomatch hop) hC⟩

/-- **A scope guard fires once** in every run in which no explicit call throws and no object
is used while its function runs: never twice, and not never when all the objects are gone. -/
theorem scopeExit_once {ops : List Op} {s : State} (h : run step init ops = some s)
    (hC : Along step (fun s op => NotReentrant s op ∧ CallReturns s op) init ops) :
    s.invoked ≤ 1 ∧ (s.objs = ∅ → s.invoked = 1) := by
  obtain ⟨hN, hR⟩ := along_and.mp hC
  have hthrown : s.thrown = 0 := by
    refine run_inv_along (I := fun t => t.thrown = 0) ?_ ops h hR rfl
    intro t op t' ht hRt hstep
    rw [(step_thrown hstep).2.1 hRt, ht]
  refine ⟨?_, ?_⟩
  · cases run_phase h hN with
    | armed o hrun hcount hA => omega
    | running o caller hrun hcount hA => omega
    | spent hrun hcount hS => omega
  · intro hend
    have hinvoked := scopeExit_invoked h hN hend
    omega

/-- A guard that is moved, called and destroyed. -/
def movedRun : List Op := [.move 0 1, .call 1, .returns, .call 0, .destroy 0, .destroy 1]

theorem scopeExit_once_demo : ∃ s, run step init movedRun = some s ∧ s.invoked ≤ 1 ∧
    (s.objs = ∅ → s.invoked = 1) :=
  ⟨_, rfl, scopeExit_once
    (show run step init movedRun = some _ from rfl) (by decide)⟩

/-- A guard whose explicit call throws, and is then destroyed. -/
def throwingRun : List Op := [.call 0, .throws, .destroy 0, .returns]

/-- The destructor invokes the function again; so does a call from within the function. -/
theorem scopeExit_fires_twice :
    (∃ s, run step init throwingRun = some s ∧ s.objs = ∅ ∧ s.invoked = 2) ∧
    ∃ s, run step init [.call 0, .call 0, .returns, .returns, .destroy 0] = some s ∧
      s.objs = ∅ ∧ s.invoked = 2 :=
  ⟨⟨_, rfl, rfl, rfl⟩, ⟨_, rfl, rfl, rfl⟩⟩

/-- Without an object used while its function runs, all of it depends on the explicit
calls. -/
theorem scopeExit_once_iff {ops : List Op} {s : State} (h : run step init ops = some s)
    (hN : Along step NotReentrant init ops) (hend : s.objs = ∅) :
    s.invoked = 1 ↔ Along step CallReturns init ops := by
  constructor
  · intro honce
    by_contra hR
    obtain ⟨pre, op, post, m, m', -, -, hstep, hthrows, hpost⟩ := not_along ops h hR
    have hpos : 0 < s.thrown := by
      refine run_inv (I := fun t => 0 < t.thrown) ?_ post hpost ?_
      · intro t op t' ht hst
        exact Nat.lt_of_lt_of_le ht (step_thrown hst).1
      · have hmore := (step_thrown hstep).2.2 hthrows
        omega
    have hinvoked := scopeExit_invoked h hN hend
    omega
  · intro hR
    exact (scopeExit_once h (along_and.mpr ⟨hN, hR⟩)).2 hend

end Cor.ScopeExit

import Cor.Lib.Run
import Cor.Lib.Pool

/-!
# `Handle<TraitsT>`: what becomes of a resource

Any number of `Handle` objects, as a pool of live objects each holding its
traits base and its value `v_`, under the member functions of the class. Next to
the objects the state records what the resources went through: the valid values
`given` to a constructor or to `reset`, those passed to `close_` (with the
traits object it was called on), those returned by `release`, and those
`overwritten` while an object still held them.

`close_` is taken not to throw and not to touch the handles.
-/

namespace Cor.Handle

open Cor.Lib

/-- What `Handle` uses of its traits: a test for valid values, the value that
stands for no resource, and the default construction of the traits base (`none`
where `TraitsT` has no default constructor, so that the constructors that need
it do not compile). The value that stands for no resource is not valid. -/
structure Traits (τ T : Type) where
  isValid : T → Bool
  invalid : T
  default : Option τ
  invalid_not_valid : isValid invalid = false

/-- `FdTraits`: file descriptors. -/
def fdTraits : Traits Unit Int32 where
  isValid v := decide (0 ≤ v)
  invalid := -1
  default := some ()
  invalid_not_valid := by decide

/-- `GenericHandleTraits<T, Invalid>`: the traits object is the closing function,
named here by an element of `τ`. -/
def genericHandleTraits (τ : Type) {T : Type} [DecidableEq T] (invalid : T) : Traits τ T where
  isValid v := decide (v ≠ invalid)
  invalid := invalid
  default := none
  invalid_not_valid := by simp

/-- One `Handle` object: its traits base and its value. -/
structure Obj (τ T : Type) where
  traits : τ
  v : T
  deriving DecidableEq, Repr

/-- The live objects and the history of the resources. -/
structure State (τ T : Type) where
  objs : Pool (Obj τ T)
  given : List T
  closed : List (τ × T)
  released : List T
  overwritten : List T

def init {τ T : Type} : State τ T := ⟨∅, [], [], [], []⟩

/-- Whether a constructor checks its value; the constructors without the argument
do not. -/
inductive HandleOption
  | onlyValidHandle
  | allowInvalidHandle
  deriving DecidableEq, Repr

/-- The member functions, with the objects they are called on. -/
inductive Op (τ T : Type)
  | construct (o : Nat) (traits : τ) (v : T) (option : HandleOption)
  | constructDefault (o : Nat)
  | moveConstruct (o src : Nat)
  | moveAssign (o src : Nat)
  | close (o : Nat)
  | reset (o : Nat) (v : T)
  | release (o : Nat)
  | destroy (o : Nat)
  deriving DecidableEq, Repr

variable {τ T : Type}

/-- The value as a list of resources: itself if it is valid. -/
def Traits.valids (tr : Traits τ T) (v : T) : List T := if tr.isValid v then [v] else []

/-- Object `o` gets the value `v`. -/
def State.set (s : State τ T) (o : Nat) (h : Obj τ T) (v : T) : State τ T :=
  { s with objs := s.objs.insert o { h with v := v } }

/-- `if (is_valid()) { close_(v_); v_ = invalid_(); }` -/
def close (tr : Traits τ T) (s : State τ T) (o : Nat) (h : Obj τ T) : State τ T :=
  if tr.isValid h.v then
    { s.set o h tr.invalid with closed := s.closed ++ [(h.traits, h.v)] }
  else s

section Close

variable (tr : Traits τ T) {s : State τ T} {o : Nat} {h : Obj τ T}

/-- What `close` leaves alone. -/
theorem close_frame (s : State τ T) (o : Nat) (h : Obj τ T) :
    (close tr s o h).given = s.given ∧
    (close tr s o h).released = s.released ∧
    (close tr s o h).overwritten = s.overwritten := by
  unfold close
  split <;> exact ⟨rfl, rfl, rfl⟩

/-- After `close` the object is there and holds no resource. -/
theorem close_lookup (ho : s.objs.lookup o = some h) :
    ∃ h', (close tr s o h).objs.lookup o = some h' ∧ tr.isValid h'.v = false := by
  unfold close
  split
  · exact ⟨_, Finmap.lookup_insert _, tr.invalid_not_valid⟩
  · next hn => exact ⟨h, ho, by simpa using hn⟩

end Close

/-- One call of a member function; `none` if the object is not alive (or already
is, for a constructor), or if the constructor does not compile. -/
def step (tr : Traits τ T) (s : State τ T) : Op τ T → Option (State τ T)
  | .construct o traits v option =>
    match s.objs.lookup o with
    | some _ => none
    | none =>
      -- `validate` throws "Handle is not valid": there is no object
      if option = .onlyValidHandle ∧ tr.isValid v = false then some s
      else some { s with
        objs := s.objs.insert o ⟨traits, v⟩, given := s.given ++ tr.valids v }
  | .constructDefault o =>
    match s.objs.lookup o, tr.default with
    | none, some traits => some { s with objs := s.objs.insert o ⟨traits, tr.invalid⟩ }
    | _, _ => none
  | .moveConstruct o src =>
    match s.objs.lookup o, s.objs.lookup src, tr.default with
    | none, some h, some traits =>
      some (State.set { s with objs := s.objs.insert o ⟨traits, h.v⟩ } src h tr.invalid)
    | _, _, _ => none
  | .moveAssign o src =>
    -- `v_ = from.v_; from.v_ = invalid_();`, with nothing in front
    match s.objs.lookup o, s.objs.lookup src with
    | some h, some f =>
      some { (s.set o h f.v).set src f tr.invalid with
        overwritten := s.overwritten ++ tr.valids h.v }
    | _, _ => none
  | .close o =>
    match s.objs.lookup o with
    | some h => some (close tr s o h)
    | none => none
  | .reset o v =>
    match s.objs.lookup o with
    | some h => some { (close tr s o h).set o h v with given := s.given ++ tr.valids v }
    | none => none
  | .release o =>
    match s.objs.lookup o with
    | some h => some { s.set o h tr.invalid with released := s.released ++ [h.v] }
    | none => none
  | .destroy o =>
    match s.objs.lookup o with
    | some h => some { close tr s o h with objs := (close tr s o h).objs.erase o }
    | none => none

/-- What a call that is possible does, one case for each way it can go. -/
inductive StepSpec (tr : Traits τ T) (s : State τ T) : Op τ T → State τ T → Prop
  | refused {o : Nat} {traits : τ} {v : T} (hv : tr.isValid v = false) :
      StepSpec tr s (.construct o traits v .onlyValidHandle) s
  | constructed {o : Nat} {traits : τ} {v : T} {option : HandleOption}
      (ho : s.objs.lookup o = none) :
      StepSpec tr s (.construct o traits v option)
        { s with objs := s.objs.insert o ⟨traits, v⟩, given := s.given ++ tr.valids v }
  | constructDefault {o : Nat} {traits : τ} (ho : s.objs.lookup o = none) :
      StepSpec tr s (.constructDefault o) { s with objs := s.objs.insert o ⟨traits, tr.invalid⟩ }
  | moveConstruct {o src : Nat} {traits : τ} {h : Obj τ T} (ho : s.objs.lookup o = none)
      (hsrc : s.objs.lookup src = some h) :
      StepSpec tr s (.moveConstruct o src)
        (State.set { s with objs := s.objs.insert o ⟨traits, h.v⟩ } src h tr.invalid)
  | moveAssign {o src : Nat} {h f : Obj τ T} (ho : s.objs.lookup o = some h)
      (hsrc : s.objs.lookup src = some f) :
      StepSpec tr s (.moveAssign o src) { (s.set o h f.v).set src f tr.invalid with
        overwritten := s.overwritten ++ tr.valids h.v }
  | close {o : Nat} {h : Obj τ T} (ho : s.objs.lookup o = some h) :
      StepSpec tr s (.close o) (Handle.close tr s o h)
  | reset {o : Nat} {v : T} {h : Obj τ T} (ho : s.objs.lookup o = some h) :
      StepSpec tr s (.reset o v)
        { (Handle.close tr s o h).set o h v with given := s.given ++ tr.valids v }
  | release {o : Nat} {h : Obj τ T} (ho : s.objs.lookup o = some h) :
      StepSpec tr s (.release o) { s.set o h tr.invalid with released := s.released ++ [h.v] }
  | destroy {o : Nat} {h : Obj τ T} (ho : s.objs.lookup o = some h) :
      StepSpec tr s (.destroy o)
        { Handle.close tr s o h with objs := (Handle.close tr s o h).objs.erase o }

/-- **The inversion lemma of `step`.** -/
theorem step_cases {tr : Traits τ T} {s s' : State τ T} {op : Op τ T}
    (h : step tr s op = some s') : StepSpec tr s op s' := by
  cases op with
  | construct o traits v option =>
    simp only [step] at h
    split at h
    · exact absurd h (by simp)
    · next ho =>
      split at h <;> obtain rfl := Option.some.inj h
      · next hv =>
        obtain ⟨rfl, hv⟩ := hv
        exact .refused hv
      · exact .constructed ho
  | constructDefault o =>
    simp only [step] at h
    split at h
    · next traits ho _ =>
      obtain rfl := Option.some.inj h
      exact .constructDefault ho
    · exact absurd h (by simp)
  | moveConstruct o src =>
    simp only [step] at h
    split at h
    · next ho hsrc _ =>
      obtain rfl := Option.some.inj h
      exact .moveConstruct ho hsrc
    · exact absurd h (by simp)
  | moveAssign o src =>
    simp only [step] at h
    split at h
    · next ho hsrc =>
      obtain rfl := Option.some.inj h
      exact .moveAssign ho hsrc
    · exact absurd h (by simp)
  | close o =>
    simp only [step] at h
    split at h
    · next ho =>
      obtain rfl := Option.some.inj h
      exact .close ho
    · exact absurd h (by simp)
  | reset o v =>
    simp only [step] at h
    split at h
    · next ho =>
      obtain rfl := Option.some.inj h
      exact .reset ho
    · exact absurd h (by simp)
  | release o =>
    simp only [step] at h
    split at h
    · next ho =>
      obtain rfl := Option.some.inj h
      exact .release ho
    · exact absurd h (by simp)
  | destroy o =>
    simp only [step] at h
    split at h
    · next ho =>
      obtain rfl := Option.some.inj h
      exact .destroy ho
    · exact absurd h (by simp)

end Cor.Handle

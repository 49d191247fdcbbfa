import Mathlib.Logic.Function.Basic
import Mathlib.Tactic.ByContra
import Cor.Base.Error
import Cor.Lib.Pool
import Cor.Lib.Run

/-!
# `Mutex::WLock`: critical sections

Any number of mutexes, threads and `WLock` objects, which wrap a `std::unique_lock` of the
mutex: it owns the mutex from its construction until it is unlocked, moved from or destroyed.
The threads take turns in any order, and a construction waits while the mutex is locked.

`Kept` is the invariant: a mutex is locked exactly while one lock owns it, and the history
of the calls on it alternates (`turn`). `sections_exclude` reads off it that critical sections
never overlap, whatever is moved or unlocked twice, provided that a lock is not released in
another thread than the one that locked, which `std::mutex` does not allow.
-/

namespace Cor.Mt.Mutex

open Cor.Lib

/-- `std::unique_lock`: its mutex, and whether it owns it. -/
structure WLock where
  device : Option Nat
  owns : Bool
deriving DecidableEq

/-- The mutex that a lock owns. -/
def WLock.owned (l : WLock) : Option Nat := if l.owns then l.device else none

/-- The calls on a mutex. -/
inductive Event
  | acquire (t m : Nat)
  | release (t m : Nat)
deriving DecidableEq

/-- The live locks, the thread that has locked each mutex, and the history. -/
structure State where
  locks : Pool WLock
  holder : Nat → Option Nat
  log : List Event
  thrown : List Exn

def init : State := ⟨∅, fun _ => none, [], []⟩

/-- The member functions, with the thread and the objects. -/
inductive Op
  | construct (t o m : Nat)
  | moveConstruct (t o src : Nat)
  | unlock (t o : Nat)
  | destroy (t o : Nat)
deriving DecidableEq

/-- What `unique_lock::unlock` throws when it does not own the mutex. -/
def notPermitted : Exn := ⟨.other (ascii "std::system_error"), ascii "Operation not permitted"⟩

/-- `unlock()` of the `unique_lock`. -/
def unlock (s : State) (t o : Nat) (l : WLock) : State :=
  if l.owns then
    match l.device with
    | some m => { s with
        locks := s.locks.insert o { l with owns := false }
        holder := Function.update s.holder m none
        log := s.log ++ [.release t m] }
    | none => s
  else { s with thrown := s.thrown ++ [notPermitted] }

/-- One call; `none` if it waits, or if an object is not alive (or already is, for a
constructor). -/
def step (s : State) : Op → Option State
  | .construct t o m =>
    match s.locks.lookup o, s.holder m with
    | none, none => some { s with
        locks := s.locks.insert o ⟨some m, true⟩
        holder := Function.update s.holder m (some t)
        log := s.log ++ [.acquire t m] }
    | _, _ => none
  | .moveConstruct _ o src =>
    match s.locks.lookup o, s.locks.lookup src with
    | none, some l => some { s with locks := (s.locks.insert o l).insert src ⟨none, false⟩ }
    | _, _ => none
  | .unlock t o =>
    match s.locks.lookup o with
    | some l => some (unlock s t o l)
    | none => none
  | .destroy t o =>
    match s.locks.lookup o with
    | some l =>
      let s := if l.owns then unlock s t o l else s
      some { s with locks := s.locks.erase o }
    | none => none

/-- The lock `o` is not released by `t` unless `t` locked its mutex. -/
def OwnedBy (s : State) (t o : Nat) : Prop :=
  ∀ m, (s.locks.lookup o).bind WLock.owned = some m → s.holder m = some t

instance (s : State) (t o : Nat) : Decidable (OwnedBy s t o) :=
  match h : (s.locks.lookup o).bind WLock.owned with
  | none => isTrue fun m hm => by
    rw [h] at hm
    cases hm
  | some m => decidable_of_iff (s.holder m = some t)
      ⟨fun hm m' h' => by
        rw [h] at h'
        obtain rfl := Option.some.inj h'
        exact hm, fun hall => hall m h⟩

def InThread (s : State) : Op → Prop
  | .unlock t o | .destroy t o => OwnedBy s t o
  | _ => True

instance (s : State) : ∀ op, Decidable (InThread s op)
  | .unlock t o => inferInstanceAs (Decidable (OwnedBy s t o))
  | .destroy t o => inferInstanceAs (Decidable (OwnedBy s t o))
  | .construct _ _ _ | .moveConstruct _ _ _ => inferInstanceAs (Decidable True)

/-! ## The invariant -/

/-- What a call does to the mutex `m` that `h` has locked: a thread locks it when it is free,
and the thread that has it locked unlocks it. -/
def turn (m : Nat) (h : Option Nat) : Event → Option (Option Nat)
  | .acquire t m' =>
    if m' = m then (if h = none then some (some t) else none) else some h
  | .release t m' =>
    if m' = m then (if h = some t then some none else none) else some h

/-- A mutex that is locked has one owner, one that is free has none. -/
def Counted (locks : Pool WLock) (holder : Nat → Option Nat) : Prop :=
  ∀ m, locks.tally WLock.owned (some m) = if holder m = none then 0 else 1

structure Kept (s : State) : Prop where
  counted : Counted s.locks s.holder
  device : ∀ o l, s.locks.lookup o = some l → l.owns = true → l.device ≠ none
  sections : ∀ m, s.log.foldlM (turn m) none = some (s.holder m)

theorem init_kept : Kept init where
  counted := fun _ => rfl
  device := fun _ _ h => by cases h
  sections := fun _ => rfl

/-! ## The owners -/

section

variable {locks : Pool WLock} {holder : Nat → Option Nat} {o m : Nat} {l l' : WLock}

theorem unit_owned (h : l.owned = some m) (m' : Nat) :
    Pool.unit WLock.owned (some m') l = if m' = m then 1 else 0 := by
  unfold Pool.unit
  rw [h]
  by_cases he : m' = m
  · rw [if_pos (congrArg some he), if_pos he]
  · rw [if_neg fun hs => he (Option.some.inj hs), if_neg he]

theorem unit_free (h : l.owned = none) (m' : Nat) : Pool.unit WLock.owned (some m') l = 0 :=
  if_neg fun hs => by
    rw [h] at hs
    cases hs

theorem counted_locked (hC : Counted locks holder) (ho : locks.lookup o = none)
    (hm : holder m = none) (t : Nat) :
    Counted (locks.insert o ⟨some m, true⟩) (Function.update holder m (some t)) := by
  intro m'
  rw [Pool.tally_insert_new (some m') ho, hC m', unit_owned (m := m) rfl]
  by_cases he : m' = m
  · rw [he, hm, Function.update_self, if_pos rfl, if_pos rfl, if_neg (Option.some_ne_none t)]
  · rw [if_neg he, Function.update_of_ne he, Nat.add_zero]

theorem counted_released (hC : Counted locks holder) (ho : locks.lookup o = some l)
    (hl : l.owned = some m) (hl' : l'.owned = none) (hm : holder m ≠ none) :
    Counted (locks.insert o l') (Function.update holder m none) := by
  intro m'
  have htally := Pool.tally_insert_old (f := WLock.owned) (a := l') (some m') ho
  rw [hC m', unit_owned hl, unit_free hl'] at htally
  by_cases he : m' = m
  · rw [he, if_pos rfl, if_neg hm] at htally
    rw [he, Function.update_self, if_pos rfl]
    omega
  · rw [if_neg he] at htally
    rw [Function.update_of_ne he]
    omega

/-- What the new lock owns the old one does not own any more. -/
theorem counted_moved {src : Nat} (hC : Counted locks holder) (ho : locks.lookup o = none)
    (hsrc : locks.lookup src = some l) :
    Counted ((locks.insert o l).insert src ⟨none, false⟩) holder := by
  intro m'
  have hne : src ≠ o := by
    rintro rfl
    rw [ho] at hsrc
    cases hsrc
  have hsrc' : (locks.insert o l).lookup src = some l := by
    rw [Finmap.lookup_insert_of_ne _ hne, hsrc]
  have hin := Pool.tally_insert_new (f := WLock.owned) (a := l) (some m') ho
  have hout := Pool.tally_insert_old (f := WLock.owned) (a := ⟨none, false⟩) (some m') hsrc'
  rw [unit_free (l := ⟨none, false⟩) rfl] at hout
  rw [← hC m']
  omega

theorem counted_erased (hC : Counted locks holder) (ho : locks.lookup o = some l)
    (hl : l.owned = none) : Counted (locks.erase o) holder := by
  intro m'
  have htally := Pool.tally_erase (f := WLock.owned) (some m') ho
  rw [unit_free hl] at htally
  rw [← hC m']
  omega

end

/-! ## Steps and runs -/

section

variable {s s' : State}

/-- One call more. -/
theorem sections_snoc (hK : Kept s) (e : Event) (m : Nat) :
    (s.log ++ [e]).foldlM (turn m) none = turn m (s.holder m) e := by
  rw [List.foldlM_append, hK.sections m]
  show (turn m (s.holder m) e >>= fun h => some h) = _
  cases turn m (s.holder m) e <;> rfl

/-- The turn of the mutex that is locked or unlocked, and of the others. -/
theorem turn_acquire {holder : Nat → Option Nat} {m : Nat} (hm : holder m = none) (t m' : Nat) :
    turn m' (holder m') (.acquire t m) = some (Function.update holder m (some t) m') := by
  show (if m = m' then (if holder m' = none then some (some t) else none) else some (holder m')) = _
  by_cases he : m = m'
  · subst he
    rw [if_pos rfl, if_pos hm, Function.update_self]
  · rw [if_neg he, Function.update_of_ne (Ne.symm he)]

theorem turn_release {holder : Nat → Option Nat} {t m : Nat} (hm : holder m = some t) (m' : Nat) :
    turn m' (holder m') (.release t m) = some (Function.update holder m none m') := by
  show (if m = m' then (if holder m' = some t then some none else none)
    else some (holder m')) = _
  by_cases he : m = m'
  · subst he
    rw [if_pos rfl, if_pos hm, Function.update_self]
  · rw [if_neg he, Function.update_of_ne (Ne.symm he)]

theorem construct_kept {t o m : Nat} (hK : Kept s) (h : step s (.construct t o m) = some s') :
    Kept s' := by
  unfold step at h
  cases ho : s.locks.lookup o with
  | some l =>
    simp only [ho] at h
    cases h
  | none =>
    cases hm : s.holder m with
    | some t' =>
      simp only [ho, hm] at h
      cases h
    | none =>
      simp only [ho, hm] at h
      obtain rfl := Option.some.inj h
      refine ⟨counted_locked hK.counted ho hm t,
        Pool.forall_insert hK.device fun _ => Option.some_ne_none m, fun m' => ?_⟩
      exact (sections_snoc hK (.acquire t m) m').trans (turn_acquire hm t m')

theorem move_kept {t o src : Nat} (hK : Kept s) (h : step s (.moveConstruct t o src) = some s') :
    Kept s' := by
  unfold step at h
  cases ho : s.locks.lookup o with
  | some l =>
    simp only [ho] at h
    cases h
  | none =>
    cases hsrc : s.locks.lookup src with
    | none =>
      simp only [ho, hsrc] at h
      cases h
    | some l =>
      simp only [ho, hsrc] at h
      obtain rfl := Option.some.inj h
      refine ⟨counted_moved hK.counted ho hsrc, ?_, hK.sections⟩
      exact Pool.forall_insert (Pool.forall_insert hK.device (hK.device src l hsrc))
        fun h => by cases h

/-- `unlock` of the `unique_lock`, after which it owns nothing. -/
theorem unlock_kept {t o : Nat} {l : WLock} (hK : Kept s) (ho : s.locks.lookup o = some l)
    (hT : OwnedBy s t o) : Kept (unlock s t o l) ∧
      ∃ l', (unlock s t o l).locks.lookup o = some l' ∧ l'.owned = none := by
  by_cases howns : l.owns = true
  · cases hd : l.device with
    | none => exact absurd hd (hK.device o l ho howns)
    | some m =>
      have howned : l.owned = some m := by rw [WLock.owned, if_pos howns, hd]
      have hholder : s.holder m = some t := hT m (by rw [ho]; exact howned)
      have hfree : ({ l with owns := false } : WLock).owned = none := if_neg Bool.false_ne_true
      have hunlock : unlock s t o l = { s with
          locks := s.locks.insert o { l with owns := false }
          holder := Function.update s.holder m none
          log := s.log ++ [.release t m] } := by
        unfold unlock
        rw [if_pos howns, hd]
      rw [hunlock]
      refine ⟨⟨?_, ?_, fun m' => ?_⟩, _, Finmap.lookup_insert _, hfree⟩
      · refine counted_released hK.counted ho howned hfree ?_
        rw [hholder]
        exact Option.some_ne_none t
      · exact Pool.forall_insert hK.device fun h => by cases h
      · exact (sections_snoc hK (.release t m) m').trans (turn_release hholder m')
  · unfold unlock
    rw [if_neg howns]
    exact ⟨⟨hK.counted, hK.device, hK.sections⟩, l, ho, if_neg howns⟩

/-- A lock that owns nothing is taken away. -/
theorem erase_kept {o : Nat} {l : WLock} (hK : Kept s) (ho : s.locks.lookup o = some l)
    (hl : l.owned = none) : Kept { s with locks := s.locks.erase o } :=
  ⟨counted_erased hK.counted ho hl, Pool.forall_erase hK.device, hK.sections⟩

/-- **One step.** -/
theorem step_kept (s : State) (op : Op) (s' : State) (hK : Kept s) (hT : InThread s op)
    (h : step s op = some s') : Kept s' := by
  cases op with
  | construct t o m => exact construct_kept hK h
  | moveConstruct t o src => exact move_kept hK h
  | unlock t o =>
    unfold step at h
    cases ho : s.locks.lookup o with
    | none =>
      simp only [ho] at h
      cases h
    | some l =>
      simp only [ho] at h
      obtain rfl := Option.some.inj h
      exact (unlock_kept hK ho hT).1
  | destroy t o =>
    unfold step at h
    cases ho : s.locks.lookup o with
    | none =>
      simp only [ho] at h
      cases h
    | some l =>
      simp only [ho] at h
      obtain rfl := Option.some.inj h
      by_cases howns : l.owns = true
      · obtain ⟨hK', l', ho', hl'⟩ := unlock_kept hK ho hT
        rw [if_pos howns]
        exact erase_kept hK' ho' hl'
      · rw [if_neg howns]
        exact erase_kept hK ho (if_neg howns)

/-- Two locks that own one mutex are one. -/
theorem Kept.one (hK : Kept s) {m o o' : Nat} {l l' : WLock} (ho : s.locks.lookup o = some l)
    (ho' : s.locks.lookup o' = some l') (hl : l.owned = some m) (hl' : l'.owned = some m) :
    o = o' := by
  by_contra hne
  have herase : (s.locks.erase o).lookup o' = some l' := by
    rw [Finmap.lookup_erase_ne (Ne.symm hne), ho']
  have ht := Pool.tally_erase (f := WLock.owned) (some m) ho
  have ht' := Pool.tally_erase (f := WLock.owned) (some m) herase
  rw [unit_owned hl, if_pos rfl, hK.counted m] at ht
  rw [unit_owned hl', if_pos rfl] at ht'
  split at ht <;> omega

theorem Kept.locked_iff (hK : Kept s) (m : Nat) :
    s.holder m ≠ none ↔ ∃ o l, s.locks.lookup o = some l ∧ l.owned = some m := by
  have hcount := hK.counted m
  constructor
  · intro hm
    rw [if_neg hm] at hcount
    exact Pool.exists_of_tally_pos (by omega)
  · rintro ⟨o, l, ho, hl⟩ hm
    have ht := Pool.tally_erase (f := WLock.owned) (some m) ho
    rw [unit_owned hl, if_pos rfl, hcount, if_pos hm] at ht
    omega

end

/-- **Critical sections exclude each other.** Take any run of any threads in which no lock is
released in another thread than the one that locked. The calls on each mutex alternate: it is
locked when it is free, and then unlocked by the thread that locked it. One lock at most owns
it at a time, and it is locked exactly while one does. Once all locks are gone, all mutexes
are free. -/
theorem sections_exclude {ops : List Op} {s : State} (h : run step init ops = some s)
    (hT : Along step InThread init ops) :
    (∀ m, s.log.foldlM (turn m) none = some (s.holder m)) ∧
    (∀ m o o' l l', s.locks.lookup o = some l → s.locks.lookup o' = some l' →
      l.owned = some m → l'.owned = some m → o = o') ∧
    (∀ m, s.holder m ≠ none ↔ ∃ o l, s.locks.lookup o = some l ∧ l.owned = some m) ∧
    (s.locks = ∅ → ∀ m, s.holder m = none) := by
  have hK : Kept s := run_inv_along step_kept ops h hT init_kept
  refine ⟨hK.sections, fun m o o' l l' ho ho' hl hl' => hK.one ho ho' hl hl', hK.locked_iff, ?_⟩
  intro hend m
  by_contra hm
  obtain ⟨o, l, ho, -⟩ := (hK.locked_iff m).mp hm
  rw [hend] at ho
  cases ho

/-- A lock is moved, unlocked twice, and its mutex taken by another thread. -/
def handOver : List Op :=
  [.construct 1 0 7, .moveConstruct 1 1 0, .unlock 1 0, .unlock 1 1, .unlock 1 1,
   .construct 2 2 7, .destroy 1 1, .destroy 2 2, .destroy 1 0]

theorem sections_exclude_demo : ∃ s : State, run step init handOver = some s ∧
    s.log = [.acquire 1 7, .release 1 7, .acquire 2 7, .release 2 7] ∧
    s.thrown = [notPermitted, notPermitted] ∧ s.holder 7 = none := by
  have hrun : run step init handOver = some _ := rfl
  exact ⟨_, hrun, rfl, rfl, (sections_exclude hrun (by decide)).2.2.2 rfl 7⟩

end Cor.Mt.Mutex

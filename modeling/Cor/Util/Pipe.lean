import Mathlib.Data.Finset.Basic
import Cor.Base.Error
import Cor.Util.HandleOwners

/-!
# `Pipe` and `posix::Pipe`: the descriptors of a process

Both classes hold the two ends of a pipe as two `FdHandle`s, so their member functions are
sequences of operations on handles. What is new is the other side: the table of open
descriptors of the process, which `::pipe` and `::close` change, and the rest of the
process, which opens and closes descriptors of its own in between. The kernel gives a
number again as soon as it is free, so a descriptor closed twice would be somebody else's
the second time.

`Kept` is the invariant: each open descriptor belongs to one handle or to the rest of the
process. One operation on a handle keeps it (`quiet_keeps`, `construct_keeps`), hence one
member function (`step_keeps`), hence a run. `pipes_keep_table` is the result.
-/

namespace Cor.Pipe

open Cor.Lib
open Handle (fdTraits)

/-- The handles, the table of open descriptors, the arguments of `::close` that were not
open, and the exceptions. -/
structure Process where
  handles : Handle.State Unit Int32
  opened : Finset Int32
  badCloses : List Int32
  thrown : List Exn

/-- A process with the open descriptors `base` and no pipe. -/
def start (base : Finset Int32) : Process := ⟨Handle.init, base, [], []⟩

/-- `posix::Pipe::End`. -/
inductive End
  | read
  | write
deriving DecidableEq

def End.idx : End → Nat
  | read => 0
  | write => 1

/-- The handle at index `i` of the pipe `p`, and a handle outside of pipes. -/
def endOf (p i : Nat) : Nat := 2 * (2 * p + i)
def single (n : Nat) : Nat := 2 * n + 1

/-- What happens in the process. -/
inductive Op
  /-- The rest of the process opens a descriptor, -/
  | opens (fd : Int32)
  /-- or closes one. -/
  | closes (fd : Int32)
  /-- `Pipe()` or `posix::Pipe::create()`, when `::pipe` answers `rc` and writes `fds` -/
  | create (p : Nat) (rc : Int32) (fds : Int32 × Int32)
  | move (p src : Nat)
  /-- `close(idx)` -/
  | close (p idx : Nat)
  | destroy (p : Nat)
  /-- `use<e>(p)` -/
  | use (n p : Nat) (e : End)
  | closeSingle (n : Nat)
  | destroySingle (n : Nat)
deriving DecidableEq

namespace Process

/-- `::close(fd)`. -/
def closeFd (s : Process) (fd : Int32) : Process :=
  if fd ∈ s.opened then { s with opened := s.opened.erase fd }
  else { s with badCloses := s.badCloses ++ [fd] }

/-- An operation on a handle. `close_` is `::close`. -/
def handle (s : Process) (op : Handle.Op Unit Int32) : Option Process :=
  match Handle.step fdTraits s.handles op with
  | none => none
  | some h =>
    let closed := (h.closed.drop s.handles.closed.length).map Prod.snd
    some { closed.foldl closeFd s with handles := h }

def throws (s : Process) (e : Exn) : Process := { s with thrown := s.thrown ++ [e] }

end Process

/-- `cor::Error("Can't open pipe, rc=%d", rc)`. -/
def cantOpen (rc : Int32) : Exn :=
  ⟨.corError, mkErrorMessage (ascii "Can't open pipe, rc=%d")
    (ascii "Can't open pipe, rc=" ++ ascii (toString rc.toInt))⟩

/-- What `fds.at(idx)` throws. -/
def outOfRange : Exn := ⟨.other (ascii "std::out_of_range"), ascii "array::at"⟩

open Process in
/-- One call; `none` if an object is not alive (or already is, for a constructor). -/
def step (s : Process) : Op → Option Process
  | .opens fd => some { s with opened := insert fd s.opened }
  | .closes fd => some { s with opened := s.opened.erase fd }
  | .create p rc fds =>
    if rc < 0 then some (s.throws (cantOpen rc))
    else do
      let s := { s with opened := insert fds.1 (insert fds.2 s.opened) }
      let s ← s.handle (.construct (endOf p 0) () fds.1 .allowInvalidHandle)
      s.handle (.construct (endOf p 1) () fds.2 .allowInvalidHandle)
  | .move p src => do
    let s ← s.handle (.moveConstruct (endOf p 0) (endOf src 0))
    s.handle (.moveConstruct (endOf p 1) (endOf src 1))
  | .close p idx =>
    if idx < 2 then s.handle (.close (endOf p idx))
    else
      match s.handles.objs.lookup (endOf p 0) with
      | none => none
      | some _ => some (s.throws outOfRange)
  | .destroy p => do
    -- the members of an array go in reverse order
    let s ← s.handle (.destroy (endOf p 1))
    s.handle (.destroy (endOf p 0))
  | .use n p e => s.handle (.moveConstruct (single n) (endOf p e.idx))
  | .closeSingle n => s.handle (.close (single n))
  | .destroySingle n => s.handle (.destroy (single n))

/-- What a run relies on. The kernel gives numbers that are not negative and not in use, and
`::pipe` two different ones. The rest of the process does not close what a handle holds. -/
def Lawful (s : Process) : Op → Prop
  | .opens fd => fd ∉ s.opened
  | .closes fd => s.handles.held fd = 0
  | .create _ rc fds => rc < 0 ∨ fds.1 ≠ fds.2 ∧ (0 ≤ fds.1 ∧ fds.1 ∉ s.opened) ∧
      0 ≤ fds.2 ∧ fds.2 ∉ s.opened
  | _ => True

instance (s : Process) : ∀ op, Decidable (Lawful s op)
  | .opens fd => inferInstanceAs (Decidable (fd ∉ s.opened))
  | .closes fd => inferInstanceAs (Decidable (s.handles.held fd = 0))
  | .create _ rc fds => inferInstanceAs (Decidable (rc < 0 ∨ fds.1 ≠ fds.2 ∧
      (0 ≤ fds.1 ∧ fds.1 ∉ s.opened) ∧ 0 ≤ fds.2 ∧ fds.2 ∉ s.opened))
  | .move _ _ | .close _ _ | .destroy _ | .use _ _ _ | .closeSingle _ | .destroySingle _ =>
    inferInstanceAs (Decidable True)

/-- The descriptors of the rest of the process, after it had `fds`. -/
def othersAfter (fds : Finset Int32) : Op → Finset Int32
  | .opens fd => insert fd fds
  | .closes fd => fds.erase fd
  | _ => fds

def others (base : Finset Int32) (ops : List Op) : Finset Int32 := ops.foldl othersAfter base

/-! ## The invariant -/

/-- Each open descriptor belongs to one handle or to the rest of the process, and nothing
else was closed. -/
structure Kept (s : Process) (rest : Finset Int32) : Prop where
  balance : ∀ fd, fdTraits.isValid fd = true → Handle.Balance s.handles fd
  once : ∀ fd, fdTraits.isValid fd = true → s.handles.held fd ≤ 1
  apart : ∀ fd ∈ rest, fdTraits.isValid fd = true → s.handles.held fd = 0
  table : ∀ fd, fd ∈ s.opened ↔
    fd ∈ rest ∨ fdTraits.isValid fd = true ∧ 0 < s.handles.held fd
  clean : s.badCloses = []

theorem start_kept (base : Finset Int32) : Kept (start base) base where
  balance := fun _ _ => rfl
  once := fun _ _ => Nat.zero_le 1
  apart := fun _ _ _ => rfl
  table := by
    intro fd
    constructor
    · exact .inl
    · rintro (h | ⟨-, h⟩)
      · exact h
      · exact absurd h (Nat.lt_irrefl 0)
  clean := rfl

/-- The member functions of handles that a pipe uses after it is created. -/
inductive Quiet : Handle.Op Unit Int32 → Prop
  | moveConstruct (o src : Nat) : Quiet (.moveConstruct o src)
  | close (o : Nat) : Quiet (.close o)
  | destroy (o : Nat) : Quiet (.destroy o)

section

variable {s s' : Process} {rest : Finset Int32}

/-- They give, release and overwrite nothing, and close at most one held value. -/
theorem quiet_logs {h h' : Handle.State Unit Int32} {op : Handle.Op Unit Int32} (hq : Quiet op)
    (hstep : Handle.step fdTraits h op = some h') :
    (h'.given = h.given ∧ h'.released = h.released ∧ h'.overwritten = h.overwritten) ∧
      (h'.closed = h.closed ∨ ∃ c, fdTraits.isValid c.2 = true ∧ 0 < h.held c.2 ∧
        h'.closed = h.closed ++ [c]) := by
  have hclose : ∀ {o : Nat} {d : Handle.Obj Unit Int32}, h.objs.lookup o = some d →
      ((Handle.close fdTraits h o d).closed = h.closed ∨
        ∃ c, fdTraits.isValid c.2 = true ∧ 0 < h.held c.2 ∧
          (Handle.close fdTraits h o d).closed = h.closed ++ [c]) := by
    intro o d ho
    rcases Handle.close_closed fdTraits h o d with hsame | ⟨hv, hadd⟩
    · exact .inl hsame
    · exact .inr ⟨_, hv, Handle.held_pos ho, hadd⟩
  cases hq with
  | moveConstruct o src =>
    cases Handle.step_cases hstep with
    | moveConstruct ho hsrc => exact ⟨⟨rfl, rfl, rfl⟩, .inl rfl⟩
  | close o =>
    cases Handle.step_cases hstep with
    | @close _ d ho => exact ⟨Handle.close_frame fdTraits h o d, hclose ho⟩
  | destroy o =>
    cases Handle.step_cases hstep with
    | @destroy _ d ho => exact ⟨Handle.close_frame fdTraits h o d, hclose ho⟩

theorem handle_some {op : Handle.Op Unit Int32} (h : s.handle op = some s') :
    ∃ hs, Handle.step fdTraits s.handles op = some hs ∧ s' =
      { ((hs.closed.drop s.handles.closed.length).map Prod.snd).foldl Process.closeFd s with
        handles := hs } := by
  unfold Process.handle at h
  cases hstep : Handle.step fdTraits s.handles op with
  | none =>
    rw [hstep] at h
    cases h
  | some hs =>
    rw [hstep] at h
    exact ⟨hs, rfl, (Option.some.inj h).symm⟩

/-- Handles that hold what they held. -/
theorem Kept.same {hs : Handle.State Unit Int32} (hK : Kept s rest)
    (hbal : ∀ fd, fdTraits.isValid fd = true → Handle.Balance hs fd)
    (hkeep : ∀ fd, fdTraits.isValid fd = true → hs.held fd = s.handles.held fd) :
    Kept { s with handles := hs } rest where
  balance := hbal
  once := by
    intro fd hv
    show hs.held fd ≤ 1
    rw [hkeep fd hv]
    exact hK.once fd hv
  apart := by
    intro fd hfd hv
    show hs.held fd = 0
    rw [hkeep fd hv]
    exact hK.apart fd hfd hv
  table := by
    intro fd
    refine (hK.table fd).trans (or_congr_right (and_congr_right fun hv => ?_))
    show 0 < s.handles.held fd ↔ 0 < hs.held fd
    rw [hkeep fd hv]
  clean := hK.clean

/-- Handles of which one has let go of its descriptor, which is closed. -/
theorem Kept.closed {hs : Handle.State Unit Int32} {c : Int32} (hK : Kept s rest)
    (hbal : ∀ fd, fdTraits.isValid fd = true → Handle.Balance hs fd)
    (hc : fdTraits.isValid c = true) (hpos : 0 < s.handles.held c)
    (hkeep : ∀ fd, fdTraits.isValid fd = true →
      hs.held fd = if fd = c then 0 else s.handles.held fd) :
    Kept { s.closeFd c with handles := hs } rest := by
  have hin : c ∈ s.opened := (hK.table c).mpr (.inr ⟨hc, hpos⟩)
  unfold Process.closeFd
  rw [if_pos hin]
  refine ⟨hbal, ?_, ?_, ?_, hK.clean⟩
  · intro fd hv
    show hs.held fd ≤ 1
    rw [hkeep fd hv]
    split
    · exact Nat.zero_le 1
    · exact hK.once fd hv
  · intro fd hfd hv
    show hs.held fd = 0
    rw [hkeep fd hv]
    split
    · rfl
    · exact hK.apart fd hfd hv
  · intro fd
    show fd ∈ s.opened.erase c ↔ fd ∈ rest ∨ fdTraits.isValid fd = true ∧ 0 < hs.held fd
    rw [Finset.mem_erase, hK.table fd]
    constructor
    · rintro ⟨hne, hfd | ⟨hv, hfd⟩⟩
      · exact .inl hfd
      · rw [hkeep fd hv, if_neg hne]
        exact .inr ⟨hv, hfd⟩
    · rintro (hfd | ⟨hv, hfd⟩)
      · refine ⟨?_, .inl hfd⟩
        rintro rfl
        have hzero := hK.apart fd hfd hc
        omega
      · rw [hkeep fd hv] at hfd
        by_cases hne : fd = c
        · rw [if_pos hne] at hfd
          exact absurd hfd (Nat.lt_irrefl 0)
        · rw [if_neg hne] at hfd
          exact ⟨hne, .inr ⟨hv, hfd⟩⟩

theorem quiet_keeps {op : Handle.Op Unit Int32} (hq : Quiet op) (hK : Kept s rest)
    (h : s.handle op = some s') : Kept s' rest := by
  obtain ⟨hs, hstep, rfl⟩ := handle_some h
  have hbal : ∀ fd, fdTraits.isValid fd = true → Handle.Balance hs fd :=
    fun fd hv => Handle.step_balance hv (hK.balance fd hv) hstep
  obtain ⟨⟨hg, hr, ho⟩, hclosed⟩ := quiet_logs hq hstep
  -- the held values change as the closed ones do
  have hheld : ∀ fd, fdTraits.isValid fd = true →
      hs.held fd + hs.closedCount fd = s.handles.held fd + s.handles.closedCount fd := by
    intro fd hv
    have hbefore := hK.balance fd hv
    have hafter := hbal fd hv
    unfold Handle.Balance at hbefore hafter
    rw [hg, hr, ho] at hafter
    omega
  unfold Handle.State.closedCount at hheld
  rcases hclosed with hsame | ⟨c, hc, hpos, hadd⟩
  · rw [hsame, List.drop_length]
    refine hK.same hbal fun fd hv => ?_
    have hone := hheld fd hv
    rw [hsame] at hone
    omega
  · rw [hadd, List.drop_left]
    refine hK.closed hbal hc hpos fun fd hv => ?_
    have hone := hheld fd hv
    have honce := hK.once fd hv
    rw [hadd, List.map_append, List.count_append, List.map_singleton, List.count_singleton] at hone
    by_cases hfd : fd = c.2
    · rw [if_pos hfd]
      rw [← hfd, if_pos (beq_self_eq_true fd)] at hone
      omega
    · rw [if_neg hfd]
      rw [if_neg (by simpa using Ne.symm hfd)] at hone
      omega

/-- Handles of which one has taken over a descriptor of the rest of the process. -/
theorem Kept.adopted {hs : Handle.State Unit Int32} {fd : Int32} (hK : Kept s (insert fd rest))
    (hfd : fd ∉ rest) (hv : fdTraits.isValid fd = true)
    (hbal : ∀ x, fdTraits.isValid x = true → Handle.Balance hs x)
    (hheld : ∀ x, hs.held x = s.handles.held x + if x = fd then 1 else 0) :
    Kept { s with handles := hs } rest := by
  have hzero : s.handles.held fd = 0 := hK.apart fd (Finset.mem_insert_self fd rest) hv
  have hthis : hs.held fd = 1 := by
    rw [hheld, if_pos rfl, hzero]
  have hother : ∀ x, x ≠ fd → hs.held x = s.handles.held x := by
    intro x hne
    rw [hheld, if_neg hne, Nat.add_zero]
  refine ⟨hbal, ?_, ?_, ?_, hK.clean⟩
  · intro x hx
    show hs.held x ≤ 1
    by_cases hne : x = fd
    · rw [hne, hthis]
    · rw [hother x hne]
      exact hK.once x hx
  · intro x hxr hx
    show hs.held x = 0
    rw [hother x fun he => hfd (he ▸ hxr)]
    exact hK.apart x (Finset.mem_insert_of_mem hxr) hx
  · intro x
    refine (hK.table x).trans ?_
    show _ ↔ x ∈ rest ∨ fdTraits.isValid x = true ∧ 0 < hs.held x
    rw [Finset.mem_insert]
    by_cases hne : x = fd
    · rw [hne, hthis]
      exact iff_of_true (.inl (.inl rfl)) (.inr ⟨hv, Nat.one_pos⟩)
    · rw [hother x hne]
      simp only [hne, false_or]

theorem construct_keeps {o : Nat} {fd : Int32} (hK : Kept s (insert fd rest)) (hfd : fd ∉ rest)
    (hv : fdTraits.isValid fd = true)
    (h : s.handle (.construct o () fd .allowInvalidHandle) = some s') : Kept s' rest := by
  obtain ⟨hs, hstep, rfl⟩ := handle_some h
  have hbal : ∀ x, fdTraits.isValid x = true → Handle.Balance hs x :=
    fun x hx => Handle.step_balance hx (hK.balance x hx) hstep
  cases Handle.step_cases hstep with
  | constructed ho =>
    rw [List.drop_length]
    refine hK.adopted hfd hv hbal fun x => ?_
    exact Pool.tally_insert_new (f := Handle.Obj.v) (a := (⟨(), fd⟩ : Handle.Obj Unit Int32)) x ho

/-! ## Steps and runs -/

theorem opens_keeps {fd : Int32} (hK : Kept s rest) (hfd : fd ∉ s.opened) :
    Kept { s with opened := insert fd s.opened } (insert fd rest) where
  balance := hK.balance
  once := hK.once
  apart := by
    intro x hx hv
    rcases Finset.mem_insert.mp hx with rfl | hx
    · by_contra hpos
      exact hfd ((hK.table x).mpr (.inr ⟨hv, Nat.pos_of_ne_zero hpos⟩))
    · exact hK.apart x hx hv
  table := by
    intro x
    show x ∈ insert fd s.opened ↔ _
    rw [Finset.mem_insert, Finset.mem_insert, hK.table x, or_assoc]
  clean := hK.clean

theorem closes_keeps {fd : Int32} (hK : Kept s rest) (hfd : s.handles.held fd = 0) :
    Kept { s with opened := s.opened.erase fd } (rest.erase fd) where
  balance := hK.balance
  once := hK.once
  apart := fun x hx hv => hK.apart x (Finset.mem_of_mem_erase hx) hv
  table := by
    intro x
    show x ∈ s.opened.erase fd ↔ _
    rw [Finset.mem_erase, Finset.mem_erase, hK.table x, and_or_left]
    refine or_congr_right ⟨fun h => h.2, fun h => ⟨?_, h⟩⟩
    rintro rfl
    have hpos : 0 < s.handles.held x := h.2
    omega
  clean := hK.clean

theorem throws_keeps (hK : Kept s rest) (e : Exn) : Kept (s.throws e) rest :=
  ⟨hK.balance, hK.once, hK.apart, hK.table, hK.clean⟩

/-- What the rest of the process has is open. -/
theorem Kept.not_rest {fd : Int32} (hK : Kept s rest) (hfd : fd ∉ s.opened) : fd ∉ rest :=
  fun h => hfd ((hK.table fd).mpr (.inl h))

/-- `::pipe` opens two descriptors, and the two handles take them over. -/
theorem create_keeps {p : Nat} {rc : Int32} {fds : Int32 × Int32} (hK : Kept s rest)
    (hL : Lawful s (.create p rc fds)) (h : step s (.create p rc fds) = some s') :
    Kept s' rest := by
  unfold step at h
  by_cases hrc : rc < 0
  · simp only [if_pos hrc] at h
    obtain rfl := Option.some.inj h
    exact throws_keeps hK _
  simp only [if_neg hrc] at h
  obtain ⟨hne, ⟨hv₁, hnew₁⟩, hv₂, hnew₂⟩ := hL.resolve_left hrc
  obtain ⟨s₁, h₁, h₂⟩ := Option.bind_eq_some_iff.mp h
  have hnew₁' : fds.1 ∉ insert fds.2 s.opened := by
    rw [Finset.mem_insert]
    rintro (he | hin)
    · exact hne he
    · exact hnew₁ hin
  have htwo := opens_keeps hK hnew₂
  have hopened := opens_keeps htwo hnew₁'
  have hfirst : Kept s₁ (insert fds.2 rest) :=
    construct_keeps hopened (htwo.not_rest hnew₁') (decide_eq_true hv₁) h₁
  exact construct_keeps hfirst (hK.not_rest hnew₂) (decide_eq_true hv₂) h₂

/-- Two operations on handles, one after the other. -/
theorem both_keep {op op' : Handle.Op Unit Int32} (hop : Quiet op) (hop' : Quiet op')
    (hK : Kept s rest) (h : ((s.handle op).bind fun s₁ => s₁.handle op') = some s') :
    Kept s' rest := by
  obtain ⟨s₁, h₁, h₂⟩ := Option.bind_eq_some_iff.mp h
  exact quiet_keeps hop' (quiet_keeps hop hK h₁) h₂

/-- **One step.** -/
theorem step_keeps {op : Op} (hK : Kept s rest) (hL : Lawful s op) (h : step s op = some s') :
    Kept s' (othersAfter rest op) := by
  cases op with
  | opens fd =>
    obtain rfl := Option.some.inj h
    exact opens_keeps hK hL
  | closes fd =>
    obtain rfl := Option.some.inj h
    exact closes_keeps hK hL
  | create p rc fds => exact create_keeps hK hL h
  | move p src => exact both_keep (.moveConstruct _ _) (.moveConstruct _ _) hK h
  | close p idx =>
    unfold step at h
    by_cases hidx : idx < 2
    · simp only [if_pos hidx] at h
      exact quiet_keeps (.close _) hK h
    · simp only [if_neg hidx] at h
      cases hlook : s.handles.objs.lookup (endOf p 0) with
      | none =>
        rw [hlook] at h
        cases h
      | some d =>
        rw [hlook] at h
        obtain rfl := Option.some.inj h
        exact throws_keeps hK _
  | destroy p => exact both_keep (.destroy _) (.destroy _) hK h
  | use n p e => exact quiet_keeps (.moveConstruct _ _) hK h
  | closeSingle n => exact quiet_keeps (.close _) hK h
  | destroySingle n => exact quiet_keeps (.destroy _) hK h

theorem run_keeps : ∀ (ops : List Op) {s : Process} {rest : Finset Int32}, Kept s rest →
    Along step Lawful s ops → run step s ops = some s' → Kept s' (ops.foldl othersAfter rest)
  | [], s, rest, hK, _, h => by
    rw [run_nil, Option.some.injEq] at h
    rw [← h]
    exact hK
  | op :: ops, s, rest, hK, hL, h => by
    obtain ⟨s₁, h₁, h₂⟩ := run_cons_some.mp h
    exact run_keeps ops (step_keeps hK hL.1 h₁) (hL.2 s₁ h₁) h₂

end

/-- **The table of descriptors.** Take any run in which pipes are created, moved, closed and
destroyed and their ends used on their own, while the rest of the process opens and closes
descriptors of its own, and the kernel gives numbers again. Then `::close` was never called
on a descriptor that is not open; those that are open are those of the rest of the process
and those that a handle holds, no descriptor is held twice or both held and somebody else's;
and once no handle is alive, the table is what the rest of the process made of it. -/
theorem pipes_keep_table {base : Finset Int32} {ops : List Op} {s : Process}
    (h : run step (start base) ops = some s) (hL : Along step Lawful (start base) ops) :
    s.badCloses = [] ∧
    (∀ fd, fd ∈ s.opened ↔ fd ∈ others base ops ∨ 0 ≤ fd ∧ 0 < s.handles.held fd) ∧
    (∀ fd, 0 ≤ fd → s.handles.held fd ≤ if fd ∈ others base ops then 0 else 1) ∧
    (s.handles.objs = ∅ → s.opened = others base ops) := by
  have hK : Kept s (others base ops) := run_keeps ops (start_kept base) hL h
  have htable : ∀ fd, fd ∈ s.opened ↔ fd ∈ others base ops ∨ 0 ≤ fd ∧ 0 < s.handles.held fd := by
    intro fd
    refine (hK.table fd).trans (or_congr_right (and_congr_left' ?_))
    exact decide_eq_true_iff
  refine ⟨hK.clean, htable, ?_, ?_⟩
  · intro fd hfd
    have hv : fdTraits.isValid fd = true := decide_eq_true hfd
    split
    · next hin => exact Nat.le_of_eq (hK.apart fd hin hv)
    · exact hK.once fd hv
  · intro hend
    ext fd
    rw [htable fd]
    have hnone : s.handles.held fd = 0 := by
      unfold Handle.State.held
      rw [hend, Pool.tally_empty]
    rw [hnone]
    simp

/-- The numbers 3 and 4 are given twice: the first pipe is moved, its end to read used on its
own and closed, and descriptor 3 is the one of the next `open`. -/
def reuseRun : List Op :=
  [.create 0 0 (3, 4), .move 1 0, .use 0 1 .read, .closeSingle 0, .opens 3, .close 1 1, .close 1 1,
   .close 1 2, .create 2 (-1) (0, 0), .create 2 0 (4, 5), .destroy 1, .destroy 0, .destroy 2,
   .destroySingle 0]

theorem pipes_keep_table_demo : ∃ s : Process, run step (start {0, 1, 2}) reuseRun = some s ∧
    s.thrown = [outOfRange, cantOpen (-1)] ∧ s.badCloses = [] ∧ s.opened = {0, 1, 2, 3} := by
  have hrun : run step (start {0, 1, 2}) reuseRun = some _ := rfl
  have hall := pipes_keep_table hrun (by decide)
  refine ⟨_, hrun, rfl, hall.1, (hall.2.2.2 rfl).trans ?_⟩
  decide

end Cor.Pipe

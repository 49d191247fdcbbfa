import Cor.Util.HandleOwners

/-!
# `Handle<GenericHandleTraits<T, Invalid>>`: each value and its closer

A generic handle is constructed with a value and the function that closes it. The
function is the traits base of the object, and neither move copies or moves that
base: move-assignment takes the value only, so what it takes is closed by the
function its target was constructed with.

To say which function a value was given with, the same machine is run on marked
values: a value given to a constructor is marked with the closer given with it, a
value given to `reset` is not marked. The marks change nothing (`run_unmarks`), and
where every move-assignment of a marked value is to a handle with the closer of the
mark, each value is closed by its own closer (`closed_by_own`).
-/

namespace Cor.Handle

open Cor.Lib

variable {τ T : Type}

/-! ## Marked values -/

/-- A value and the closer it was given to a constructor with, if it was. -/
structure Marked (τ T : Type) where
  v : T
  closer : Option τ
  deriving DecidableEq, Repr

/-- The traits look at the value and not at its mark. -/
def Traits.marked (tr : Traits τ T) : Traits τ (Marked τ T) where
  isValid m := tr.isValid m.v
  invalid := ⟨tr.invalid, none⟩
  default := tr.default
  invalid_not_valid := tr.invalid_not_valid

/-- The same call with its value marked. -/
def Op.marked : Op τ T → Op τ (Marked τ T)
  | .construct o closer v option => .construct o closer ⟨v, some closer⟩ option
  | .constructDefault o => .constructDefault o
  | .moveConstruct o src => .moveConstruct o src
  | .moveAssign o src => .moveAssign o src
  | .close o => .close o
  | .reset o v => .reset o ⟨v, none⟩
  | .release o => .release o
  | .destroy o => .destroy o

/-- One call on marked values. -/
def markedStep (tr : Traits τ T) (s : State τ (Marked τ T)) (op : Op τ T) :
    Option (State τ (Marked τ T)) :=
  step tr.marked s op.marked

/-- The object without the mark of its value. -/
def Obj.unmark (h : Obj τ (Marked τ T)) : Obj τ T := ⟨h.traits, h.v.v⟩

/-- The same objects, without the marks. -/
def UnmarksObjs (p : Pool (Obj τ (Marked τ T))) (q : Pool (Obj τ T)) : Prop :=
  ∀ o, q.lookup o = (p.lookup o).map Obj.unmark

/-- `t` is `s` without the marks. -/
structure Unmarks (s : State τ (Marked τ T)) (t : State τ T) : Prop where
  objs : UnmarksObjs s.objs t.objs
  given : t.given = s.given.map Marked.v
  closed : t.closed = s.closed.map fun c => (c.1, c.2.v)
  released : t.released = s.released.map Marked.v
  overwritten : t.overwritten = s.overwritten.map Marked.v

theorem init_unmarks : Unmarks (init : State τ (Marked τ T)) (init : State τ T) where
  objs := fun _ => rfl
  given := rfl
  closed := rfl
  released := rfl
  overwritten := rfl

section Unmark

variable {tr : Traits τ T} {s : State τ (Marked τ T)} {t : State τ T}
  {p : Pool (Obj τ (Marked τ T))} {q : Pool (Obj τ T)}

theorem UnmarksObjs.insert (hp : UnmarksObjs p q) (o : Nat) (h : Obj τ (Marked τ T)) :
    UnmarksObjs (p.insert o h) (q.insert o h.unmark) := by
  intro x
  by_cases hx : x = o
  · rw [hx, Finmap.lookup_insert, Finmap.lookup_insert]
    rfl
  · rw [Finmap.lookup_insert_of_ne _ hx, Finmap.lookup_insert_of_ne _ hx, hp x]

theorem UnmarksObjs.erase (hp : UnmarksObjs p q) (o : Nat) :
    UnmarksObjs (p.erase o) (q.erase o) := by
  intro x
  by_cases hx : x = o
  · rw [hx, Finmap.lookup_erase, Finmap.lookup_erase]
    rfl
  · rw [Finmap.lookup_erase_ne hx, Finmap.lookup_erase_ne hx, hp x]

theorem valids_unmark (m : Marked τ T) : (tr.marked.valids m).map Marked.v = tr.valids m.v := by
  show List.map Marked.v (if tr.isValid m.v then [m] else []) =
    if tr.isValid m.v then [m.v] else []
  by_cases hv : tr.isValid m.v = true
  · rw [if_pos hv, if_pos hv]
    rfl
  · rw [if_neg hv, if_neg hv]
    rfl

/-- `close` on the object and on the one without the mark. -/
theorem close_unmarks (hU : Unmarks s t) (o : Nat) (h : Obj τ (Marked τ T)) :
    Unmarks (close tr.marked s o h) (close tr t o h.unmark) := by
  unfold close
  by_cases hv : tr.isValid h.v.v = true
  · rw [if_pos (show tr.marked.isValid h.v = true from hv),
      if_pos (show tr.isValid h.unmark.v = true from hv)]
    refine ⟨hU.objs.insert o ⟨h.traits, tr.marked.invalid⟩, hU.given, ?_, hU.released,
      hU.overwritten⟩
    rw [List.map_append, ← hU.closed]
    rfl
  · rw [if_neg (show ¬ tr.marked.isValid h.v = true from hv),
      if_neg (show ¬ tr.isValid h.unmark.v = true from hv)]
    exact hU

/-- The same objects are alive. -/
theorem Unmarks.lookup (hU : Unmarks s t) (o : Nat) :
    (s.objs.lookup o = none ∧ t.objs.lookup o = none) ∨
      ∃ h, s.objs.lookup o = some h ∧ t.objs.lookup o = some h.unmark := by
  have ho := hU.objs o
  cases hlook : s.objs.lookup o with
  | none =>
    rw [hlook] at ho
    exact .inl ⟨rfl, ho⟩
  | some h =>
    rw [hlook] at ho
    exact .inr ⟨h, rfl, ho⟩

/-- **One call, with and without the marks**: possible together, and the same but for the
marks. -/
theorem step_unmarks (s : State τ (Marked τ T)) (t : State τ T) (op : Op τ T)
    (hU : Unmarks s t) : Option.Rel Unmarks (markedStep tr s op) (step tr t op) := by
  unfold markedStep
  cases op with
  | construct o closer v option =>
    rcases hU.lookup o with ⟨hs, ht⟩ | ⟨h, hs, ht⟩
    · simp only [Op.marked, step, hs, ht]
      -- `validate` looks at the value and not at the mark
      by_cases hrefused : option = .onlyValidHandle ∧ tr.isValid v = false
      · rw [if_pos hrefused, if_pos (show option = .onlyValidHandle ∧
          tr.marked.isValid ⟨v, some closer⟩ = false from hrefused)]
        exact .some hU
      · rw [if_neg hrefused, if_neg (show ¬ (option = .onlyValidHandle ∧
          tr.marked.isValid ⟨v, some closer⟩ = false) from hrefused)]
        refine .some ⟨hU.objs.insert o _, ?_, hU.closed, hU.released, hU.overwritten⟩
        rw [List.map_append, ← hU.given, valids_unmark]
    · simp only [Op.marked, step, hs, ht]
      exact .none
  | constructDefault o =>
    rcases hU.lookup o with ⟨hs, ht⟩ | ⟨h, hs, ht⟩
    · cases hdefault : tr.default with
      | none =>
        simp only [Op.marked, step, hs, ht, Traits.marked, hdefault]
        exact .none
      | some closer =>
        simp only [Op.marked, step, hs, ht, Traits.marked, hdefault]
        exact .some ⟨hU.objs.insert o _, hU.given, hU.closed, hU.released, hU.overwritten⟩
    · simp only [Op.marked, step, hs, ht]
      exact .none
  | moveConstruct o src =>
    rcases hU.lookup o with ⟨hs, ht⟩ | ⟨h, hs, ht⟩
    · rcases hU.lookup src with ⟨hs', ht'⟩ | ⟨f, hs', ht'⟩
      · simp only [Op.marked, step, hs, ht, hs', ht']
        exact .none
      · cases hdefault : tr.default with
        | none =>
          simp only [Op.marked, step, hs, ht, hs', ht', Traits.marked, hdefault]
          exact .none
        | some closer =>
          simp only [Op.marked, step, hs, ht, hs', ht', Traits.marked, hdefault]
          have hobjs := (hU.objs.insert o ⟨closer, f.v⟩).insert src ⟨f.traits, tr.marked.invalid⟩
          exact .some ⟨hobjs, hU.given, hU.closed, hU.released, hU.overwritten⟩
    · simp only [Op.marked, step, hs, ht]
      exact .none
  | moveAssign o src =>
    rcases hU.lookup o with ⟨hs, ht⟩ | ⟨h, hs, ht⟩
    · simp only [Op.marked, step, hs, ht]
      exact .none
    · rcases hU.lookup src with ⟨hs', ht'⟩ | ⟨f, hs', ht'⟩
      · simp only [Op.marked, step, hs, ht, hs', ht']
        exact .none
      · simp only [Op.marked, step, hs, ht, hs', ht']
        have hobjs := (hU.objs.insert o ⟨h.traits, f.v⟩).insert src ⟨f.traits, tr.marked.invalid⟩
        refine .some ⟨hobjs, hU.given, hU.closed, hU.released, ?_⟩
        rw [List.map_append, ← hU.overwritten, valids_unmark]
        rfl
  | close o =>
    rcases hU.lookup o with ⟨hs, ht⟩ | ⟨h, hs, ht⟩
    · simp only [Op.marked, step, hs, ht]
      exact .none
    · simp only [Op.marked, step, hs, ht]
      exact .some (close_unmarks hU o h)
  | reset o v =>
    rcases hU.lookup o with ⟨hs, ht⟩ | ⟨h, hs, ht⟩
    · simp only [Op.marked, step, hs, ht]
      exact .none
    · simp only [Op.marked, step, hs, ht]
      have hclose : Unmarks (Handle.close tr.marked s o h) (Handle.close tr t o h.unmark) :=
        close_unmarks hU o h
      refine .some ⟨hclose.objs.insert o ⟨h.traits, ⟨v, none⟩⟩, ?_, hclose.closed,
        hclose.released, hclose.overwritten⟩
      rw [List.map_append, ← hU.given, valids_unmark]
  | release o =>
    rcases hU.lookup o with ⟨hs, ht⟩ | ⟨h, hs, ht⟩
    · simp only [Op.marked, step, hs, ht]
      exact .none
    · simp only [Op.marked, step, hs, ht]
      refine .some ⟨hU.objs.insert o ⟨h.traits, tr.marked.invalid⟩, hU.given, hU.closed, ?_,
        hU.overwritten⟩
      rw [List.map_append, ← hU.released]
      rfl
  | destroy o =>
    rcases hU.lookup o with ⟨hs, ht⟩ | ⟨h, hs, ht⟩
    · simp only [Op.marked, step, hs, ht]
      exact .none
    · simp only [Op.marked, step, hs, ht]
      have hclose : Unmarks (Handle.close tr.marked s o h) (Handle.close tr t o h.unmark) :=
        close_unmarks hU o h
      exact .some ⟨hclose.objs.erase o, hclose.given, hclose.closed, hclose.released,
        hclose.overwritten⟩

/-- **The marks change nothing**: a run and the run on marked values are possible together,
and end the same but for the marks. -/
theorem run_unmarks (tr : Traits τ T) (ops : List (Op τ T)) :
    Option.Rel Unmarks (run (markedStep tr) init ops) (run (step tr) init ops) :=
  run_rel step_unmarks ops init_unmarks

end Unmark

/-! ## The pairing of values and closers -/

/-- The closer of the object is the one its value was given with. -/
def Obj.Own (tr : Traits τ T) (h : Obj τ (Marked τ T)) : Prop :=
  tr.isValid h.v.v = true → ∀ c ∈ h.v.closer, h.traits = c

/-- The value of every object is its own. -/
def AllOwn (tr : Traits τ T) (p : Pool (Obj τ (Marked τ T))) : Prop :=
  ∀ o h, p.lookup o = some h → h.Own tr

/-- A value given to a constructor is closed by the closer it was given with. -/
def State.ClosedByOwn (s : State τ (Marked τ T)) : Prop :=
  ∀ p ∈ s.closed, ∀ c ∈ p.2.closer, p.1 = c

/-- What a run keeps that does not mix the closers. -/
structure Paired (tr : Traits τ T) (s : State τ (Marked τ T)) : Prop where
  held : AllOwn tr s.objs
  closed : s.ClosedByOwn

/-- A move-assignment from another object that takes a value given to a constructor is to an
object with the closer the value was given with. -/
def KeepsCloser (tr : Traits τ T) (s : State τ (Marked τ T)) : Op τ T → Prop
  | .moveAssign o src => o ≠ src → ∀ h ∈ s.objs.lookup o, ∀ f ∈ s.objs.lookup src,
      tr.isValid f.v.v = true → ∀ c ∈ f.v.closer, h.traits = c
  | _ => True

instance [DecidableEq τ] (tr : Traits τ T) (s : State τ (Marked τ T)) :
    (op : Op τ T) → Decidable (KeepsCloser tr s op)
  | .moveAssign o src => inferInstanceAs (Decidable (o ≠ src → ∀ h ∈ s.objs.lookup o,
      ∀ f ∈ s.objs.lookup src, tr.isValid f.v.v = true → ∀ c ∈ f.v.closer, h.traits = c))
  | .construct _ _ _ _ => isTrue trivial
  | .constructDefault _ => isTrue trivial
  | .moveConstruct _ _ => isTrue trivial
  | .close _ => isTrue trivial
  | .reset _ _ => isTrue trivial
  | .release _ => isTrue trivial
  | .destroy _ => isTrue trivial

section Paired

variable {tr : Traits τ T} {s s' : State τ (Marked τ T)} {op : Op τ T}
  {p : Pool (Obj τ (Marked τ T))}

/-- A value that was not given to a constructor is anybody's. -/
theorem own_unmarked (closer : τ) (v : T) :
    Obj.Own tr (⟨closer, ⟨v, none⟩⟩ : Obj τ (Marked τ T)) := by
  intro _ c hc
  exact nomatch hc

theorem AllOwn.insert (hp : AllOwn tr p) {o : Nat} {h : Obj τ (Marked τ T)} (hh : h.Own tr) :
    AllOwn tr (p.insert o h) :=
  Pool.forall_insert hp hh

theorem AllOwn.erase (hp : AllOwn tr p) {o : Nat} : AllOwn tr (p.erase o) := Pool.forall_erase hp

theorem init_paired : Paired tr (init : State τ (Marked τ T)) where
  held := by
    intro o h ho
    exact nomatch ho
  closed := by
    intro p hp
    exact nomatch hp

/-- `close` calls the closer of the object, on its own value. -/
theorem close_paired (hP : Paired tr s) {o : Nat} {h : Obj τ (Marked τ T)}
    (ho : s.objs.lookup o = some h) : Paired tr (close tr.marked s o h) := by
  unfold close
  by_cases hv : tr.marked.isValid h.v = true
  · rw [if_pos hv]
    refine ⟨hP.held.insert (own_unmarked h.traits tr.invalid), ?_⟩
    intro q hq
    rcases List.mem_append.mp hq with hold | hnew
    · exact hP.closed q hold
    · obtain rfl := List.mem_singleton.mp hnew
      exact hP.held o h ho hv
  · rw [if_neg hv]
    exact hP

/-- Without a default constructor of the traits there is no move construction. -/
theorem moveConstruct_none (hdefault : tr.default = none) {o src : Nat} :
    markedStep tr s (.moveConstruct o src) = none := by
  simp only [markedStep, Op.marked, step, Traits.marked, hdefault]
  cases s.objs.lookup o with
  | some h => rfl
  | none =>
    cases s.objs.lookup src with
    | some f => rfl
    | none => rfl

/-- **A call that keeps the closers keeps the pairing.** -/
theorem step_paired (hdefault : tr.default = none) (s : State τ (Marked τ T)) (op : Op τ T)
    (s' : State τ (Marked τ T)) (hP : Paired tr s) (hC : KeepsCloser tr s op)
    (h : markedStep tr s op = some s') : Paired tr s' := by
  have hspec := step_cases h
  cases op with
  | construct o closer v option =>
    -- the mark is the closer of the object itself
    have hown : Obj.Own tr (⟨closer, ⟨v, some closer⟩⟩ : Obj τ (Marked τ T)) := by
      intro _ c hc
      exact Option.some.inj hc
    cases hspec with
    | refused => exact hP
    | constructed ho => exact ⟨hP.held.insert hown, hP.closed⟩
  | constructDefault o =>
    cases hspec with
    | constructDefault ho => exact ⟨hP.held.insert (own_unmarked _ _), hP.closed⟩
  | moveConstruct o src =>
    have hnone : markedStep tr s (.moveConstruct o src) = none := moveConstruct_none hdefault
    rw [hnone] at h
    exact nomatch h
  | moveAssign o src =>
    cases hspec with
    | @moveAssign _ _ d f ho hsrc =>
      refine ⟨?_, hP.closed⟩
      by_cases hself : o = src
      · -- the object is left without a value
        subst hself
        show AllOwn tr ((s.objs.insert o { d with v := f.v }).insert o
          { f with v := tr.marked.invalid })
        rw [Finmap.insert_insert]
        exact hP.held.insert (own_unmarked _ _)
      · -- the target keeps its closer and takes the value: this is what the condition is for
        have hown : Obj.Own tr { d with v := f.v } := hC hself d ho f hsrc
        exact (hP.held.insert hown).insert (own_unmarked _ _)
  | close o =>
    cases hspec with
    | close ho => exact close_paired hP ho
  | reset o v =>
    cases hspec with
    | reset ho =>
      have hclose := close_paired hP ho
      -- the new value has no mark
      exact ⟨hclose.held.insert (own_unmarked _ _), hclose.closed⟩
  | release o =>
    cases hspec with
    | release ho => exact ⟨hP.held.insert (own_unmarked _ _), hP.closed⟩
  | destroy o =>
    cases hspec with
    | destroy ho =>
      have hclose := close_paired hP ho
      exact ⟨hclose.held.erase, hclose.closed⟩

/-- `close` on an object that holds a value. -/
theorem markedStep_close {o : Nat} {h : Obj τ (Marked τ T)} {objs : Pool (Obj τ (Marked τ T))}
    {given released overwritten : List (Marked τ T)} {closed : List (τ × Marked τ T)}
    (ho : objs.lookup o = some h) (hv : tr.isValid h.v.v = true) :
    ∃ s', markedStep tr ⟨objs, given, closed, released, overwritten⟩ (.close o) = some s' ∧
      (h.traits, h.v) ∈ s'.closed := by
  have hvalid : tr.marked.isValid h.v = true := hv
  refine ⟨close tr.marked ⟨objs, given, closed, released, overwritten⟩ o h, ?_, ?_⟩
  · simp only [markedStep, Op.marked, step, ho]
  · unfold close
    rw [if_pos hvalid]
    exact List.mem_append_right _ (List.mem_singleton_self _)

/-- After an assignment that does not keep the closer, closing the target calls another. -/
theorem not_keepsCloser (hC : ¬ KeepsCloser tr s op) (h : markedStep tr s op = some s') :
    ∃ o s'', markedStep tr s' (.close o) = some s'' ∧ ¬ s''.ClosedByOwn := by
  cases op with
  | moveAssign o src =>
    simp only [KeepsCloser, not_forall] at hC
    obtain ⟨hne, d, ho, f, hsrc, hv, c, hc, hother⟩ := hC
    have hspec := step_cases h
    cases hspec with
    | @moveAssign _ _ d' f' ho' hsrc' =>
      obtain rfl := Option.some.inj (ho.symm.trans ho')
      obtain rfl := Option.some.inj (hsrc.symm.trans hsrc')
      have hold : ((s.set o d f.v).set src f tr.marked.invalid).objs.lookup o =
          some { d with v := f.v } := by
        show ((s.objs.insert o { d with v := f.v }).insert src _).lookup o = _
        rw [Finmap.lookup_insert_of_ne _ hne, Finmap.lookup_insert]
      obtain ⟨s'', hclose, hmem⟩ := markedStep_close hold hv
      refine ⟨o, s'', hclose, ?_⟩
      intro hown
      exact hother (hown _ hmem c hc)
  | construct o closer v option => exact absurd trivial hC
  | constructDefault o => exact absurd trivial hC
  | moveConstruct o src => exact absurd trivial hC
  | close o => exact absurd trivial hC
  | reset o v => exact absurd trivial hC
  | release o => exact absurd trivial hC
  | destroy o => exact absurd trivial hC

end Paired

/-! ## Where a closed value was given -/

section Given

variable {tr : Traits τ T}

theorem gives_marked {m : Marked τ T} {op : Op τ T} (h : m ∈ op.marked.gives) : m.v ∈ op.gives := by
  cases op with
  | construct o closer v option =>
    obtain rfl := List.mem_singleton.mp h
    exact List.mem_singleton_self v
  | reset o v =>
    obtain rfl := List.mem_singleton.mp h
    exact List.mem_singleton_self v
  | constructDefault o => exact nomatch h
  | moveConstruct o src => exact nomatch h
  | moveAssign o src => exact nomatch h
  | close o => exact nomatch h
  | release o => exact nomatch h
  | destroy o => exact nomatch h

/-- What was given in a run was given by one of its calls. -/
theorem run_gives {m : Marked τ T} :
    ∀ (ops : List (Op τ T)) {s s' : State τ (Marked τ T)}, run (markedStep tr) s ops = some s' →
      m ∈ s'.given → m ∈ s.given ∨ ∃ op ∈ ops, m ∈ op.marked.gives
  | [], s, s', h, hm => by
    obtain rfl := Option.some.inj h
    exact .inl hm
  | op :: ops, s, s', h, hm => by
    obtain ⟨s₁, h₁, h₂⟩ := run_cons_some.mp h
    rcases run_gives ops h₂ hm with hm | ⟨a, ha, hgives⟩
    · rcases (step_history h₁).1 with hsame | ⟨w, hw, -, hadd⟩
      · rw [hsame] at hm
        exact .inl hm
      · rw [hadd, List.mem_append, List.mem_singleton] at hm
        rcases hm with hm | rfl
        · exact .inl hm
        · exact .inr ⟨op, List.mem_cons_self, hw⟩
    · exact .inr ⟨a, List.mem_cons_of_mem _ ha, hgives⟩

/-- What was closed is valid. -/
theorem run_closed_valid {ops : List (Op τ T)} {s : State τ (Marked τ T)}
    (h : run (markedStep tr) init ops = some s) : ∀ p ∈ s.closed, tr.isValid p.2.v = true := by
  refine run_inv (I := fun s => ∀ p ∈ s.closed, tr.isValid p.2.v = true) ?_ ops h ?_
  · intro s op s' hI hstep p hp
    cases step_letsGo hstep with
    | nothing hc hr =>
      rw [hc] at hp
      exact hI p hp
    | @closed o d ho hv hc hr =>
      rw [hc, List.mem_append, List.mem_singleton] at hp
      rcases hp with hp | rfl
      · exact hI p hp
      · exact hv
    | released ho hc hr =>
      rw [hc] at hp
      exact hI p hp
  · intro p hp
    exact nomatch hp

/-- What was closed was given by one of the calls. -/
theorem run_closed_gives {ops : List (Op τ T)} {s : State τ (Marked τ T)}
    (h : run (markedStep tr) init ops = some s) {p : τ × Marked τ T} (hp : p ∈ s.closed) :
    ∃ op ∈ ops, p.2 ∈ op.marked.gives := by
  classical
  have hvalid : tr.marked.isValid p.2 = true := run_closed_valid h p hp
  -- by the conservation law what was closed was given at least as often
  have hB : Balance s p.2 := by
    refine run_inv (I := fun s => Balance s p.2) ?_ ops h rfl
    intro s op s' hB hstep
    exact step_balance hvalid hB hstep
  have hclosed : 0 < s.closedCount p.2 :=
    List.count_pos_iff.mpr (List.mem_map_of_mem hp)
  have hgiven : p.2 ∈ s.given := by
    unfold Balance at hB
    exact List.count_pos_iff.mp (by omega)
  rcases run_gives ops h hgiven with hnone | hop
  · exact nomatch hnone
  · exact hop

end Given

/-! ## Whole runs -/

section Generic

variable [DecidableEq T]

/-- **A generic handle is closed by its own closer** in every run whose move-assignments keep
the closers: what a value was given to a constructor with is what closes it. So a value
given to nothing but constructors, always with `f`, is closed by `f` only. -/
theorem closed_by_own (invalid : T) {ops : List (Op τ T)} {t : State τ T}
    (h : run (step (genericHandleTraits τ invalid)) init ops = some t)
    (hC : Along (markedStep (genericHandleTraits τ invalid))
      (KeepsCloser (genericHandleTraits τ invalid)) init ops) :
    ∃ s, run (markedStep (genericHandleTraits τ invalid)) init ops = some s ∧
      Unmarks s t ∧ s.ClosedByOwn ∧
      ∀ v f, (∀ op ∈ ops, v ∈ op.gives → ∃ o option, op = .construct o f v option) →
        ∀ g, (g, v) ∈ t.closed → g = f := by
  have hrel := run_unmarks (genericHandleTraits τ invalid) ops
  rw [h] at hrel
  cases hrun : run (markedStep (genericHandleTraits τ invalid)) init ops with
  | none =>
    rw [hrun] at hrel
    exact nomatch hrel
  | some s =>
    rw [hrun] at hrel
    cases hrel with
    | some hU =>
      have hP := run_inv_along (step_paired rfl) ops hrun hC init_paired
      refine ⟨s, rfl, hU, hP.closed, ?_⟩
      intro v f hgiven g hg
      rw [hU.closed, List.mem_map] at hg
      obtain ⟨p, hp, heq⟩ := hg
      obtain ⟨rfl, rfl⟩ := Prod.mk.inj heq
      -- the call that gave it was a construction with `f`
      obtain ⟨op, hop, hgives⟩ := run_closed_gives hrun hp
      obtain ⟨o, option, rfl⟩ := hgiven op hop (gives_marked hgives)
      have hmark := List.mem_singleton.mp hgives
      refine hP.closed p hp f ?_
      rw [hmark]
      rfl

/-- Two handles with the closer 1 and one with the closer 2: the value 14 is moved between the
first two, and the value 20, given to `reset`, to the third. -/
def pairedRun : List (Op Nat Int32) :=
  [.construct 0 1 13 .onlyValidHandle, .construct 1 1 14 .allowInvalidHandle,
   .construct 2 2 15 .allowInvalidHandle, .close 0, .moveAssign 0 1, .reset 1 20, .close 2,
   .moveAssign 2 1, .destroy 0, .destroy 1, .destroy 2]

theorem closed_by_own_demo :
    ∃ s t, run (step (genericHandleTraits Nat (-1))) init pairedRun = some t ∧
      t.closed = [(1, 13), (2, 15), (1, 14), (2, 20)] ∧ Unmarks s t ∧ s.ClosedByOwn := by
  obtain ⟨s, -, hU, hown, -⟩ := closed_by_own (-1)
    (show run (step (genericHandleTraits Nat (-1))) init pairedRun = some _ from rfl) (by decide)
  exact ⟨s, _, rfl, by decide, hU, hown⟩

/-- The value 14 is given to a handle with the closer 2 and moved to one with the closer 1. -/
def crossedRun : List (Op Nat Int32) :=
  [.construct 0 1 13 .allowInvalidHandle, .construct 1 2 14 .allowInvalidHandle, .close 0,
   .moveAssign 0 1, .destroy 0, .destroy 1]

/-- The closer 1 is called on the value that was given with the closer 2. -/
theorem moveAssign_crosses :
    (∃ t, run (step (genericHandleTraits Nat (-1))) init crossedRun = some t ∧
      t.closed = [(1, 13), (1, 14)]) ∧
    ¬ ∀ (ops : List (Op Nat Int32)) (s : State Nat (Marked Nat Int32)),
      run (markedStep (genericHandleTraits Nat (-1))) init ops = some s → s.ClosedByOwn := by
  refine ⟨⟨_, rfl, by decide⟩, ?_⟩
  intro hall
  have hown := hall crossedRun _ rfl (1, ⟨14, some 2⟩) (by decide) 2 rfl
  exact absurd hown (by decide)

/-- The condition is exact for runs that may be cut short: every move-assignment keeps the
closers if and only if, wherever the run is stopped, closing any one handle there leaves
every value closed by its own closer. -/
theorem keepsCloser_iff (invalid : T) {ops : List (Op τ T)} {s : State τ (Marked τ T)}
    (h : run (markedStep (genericHandleTraits τ invalid)) init ops = some s) :
    Along (markedStep (genericHandleTraits τ invalid))
        (KeepsCloser (genericHandleTraits τ invalid)) init ops ↔
      ∀ pre post s₀ o s₁, ops = pre ++ post →
        run (markedStep (genericHandleTraits τ invalid)) init pre = some s₀ →
        markedStep (genericHandleTraits τ invalid) s₀ (.close o) = some s₁ → s₁.ClosedByOwn := by
  constructor
  · intro hC pre post s₀ o s₁ hops hpre hclose
    rw [hops, along_append pre hpre] at hC
    have hP := run_inv_along (step_paired rfl) pre hpre hC.1 init_paired
    exact (step_paired rfl s₀ (.close o) s₁ hP trivial hclose).closed
  · intro hall
    by_contra hC
    -- stop right after the first assignment that mixes two closers
    obtain ⟨pre, op, post, m, m', hops, hpre, hop, hnot, -⟩ := not_along ops h hC
    obtain ⟨o, s'', hclose, hother⟩ := not_keepsCloser hnot hop
    refine hother (hall (pre ++ [op]) post m' o s'' ?_ ?_ hclose)
    · rw [hops, List.append_assoc]
      rfl
    · exact run_append_some.mpr ⟨m, hpre, run_cons_some.mpr ⟨m', hop, rfl⟩⟩

end Generic

end Cor.Handle

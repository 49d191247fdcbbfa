import Mathlib.Data.List.Basic
import Mathlib.Logic.Function.Basic
import Cor.Lib.Run

/-!
# Linearizable objects

A concurrent object is called by threads whose calls overlap. It implements a
sequential one when the answers of every history are those that the sequential object
gives to some order of the calls, and that order is one an observer cannot refute: a
call that was answered before another one was made precedes it.

`Linearizes` says so of a history and an order of its calls. The order of a run is
found from its linearization points: `Marks` is a run in which every call takes its
effect on the sequential object at one moment between its invocation and its answer, and
`Marks.linearizes` says that the effects, in the order of their moments, linearize the
history. `linearizes_of_run` is the rule for a machine whose steps come with their marks.
-/

namespace Cor.Lib

variable {T O R Q : Type} {apply : Q → O → R × Q}

/-! ## Orders of calls -/

/-- A call as the sequential object sees it. -/
structure Done (T O R : Type) where
  thread : T
  op : O
  answer : R

/-- The order is one of the sequential object, from `q` to `q'`. -/
def Legal (apply : Q → O → R × Q) : Q → List (Done T O R) → Q → Prop
  | q, [], q' => q = q'
  | q, c :: L, q' => (apply q c.op).1 = c.answer ∧ Legal apply (apply q c.op).2 L q'

theorem legal_append {L₂ : List (Done T O R)} {q' : Q} :
    ∀ (L₁ : List (Done T O R)) (q : Q),
      Legal apply q (L₁ ++ L₂) q' ↔ ∃ m, Legal apply q L₁ m ∧ Legal apply m L₂ q' := by
  intro L₁
  induction L₁ with
  | nil =>
    intro q
    refine ⟨fun h => ⟨q, rfl, h⟩, ?_⟩
    rintro ⟨m, hm, h⟩
    exact (show q = m from hm) ▸ h
  | cons c L₁ ih =>
    intro q
    constructor
    · intro h
      obtain ⟨m, h₁, h₂⟩ := (ih _).mp h.2
      exact ⟨m, ⟨h.1, h₁⟩, h₂⟩
    · rintro ⟨m, h₁, h₂⟩
      exact ⟨h₁.1, (ih _).mpr ⟨m, h₁.2, h₂⟩⟩

/-- After a call that makes `I` true of the object, every call of the order is answered
in a state that has `I`, when no operation makes it false again. -/
theorem Legal.answers_after {I : Q → Prop} (hI : ∀ q o, I q → I (apply q o).2)
    {L : List (Done T O R)} : ∀ {q q' : Q}, Legal apply q L q' → I q →
      ∀ c ∈ L, ∃ m, I m ∧ c.answer = (apply m c.op).1 := by
  induction L with
  | nil =>
    intro q q' _ _ c hc
    cases hc
  | cons d L ih =>
    intro q q' h hq c hc
    rcases List.mem_cons.mp hc with rfl | hc
    · exact ⟨q, hq, h.1.symm⟩
    · exact ih h.2 (hI q d.op hq) c hc

/-! ## Histories -/

/-- What is seen of a call from outside. -/
inductive Event (T O R : Type)
  | invoke (i : T) (o : O)
  | answer (i : T) (r : R)

/-- What happens to a call: an event, or the moment at which it takes its effect. -/
inductive Mark (T O R : Type)
  | invoke (i : T) (o : O)
  | effect (i : T) (o : O) (r : R)
  | answer (i : T) (r : R)

/-- The history without the moments of the effects. -/
def history : List (Mark T O R) → List (Event T O R)
  | [] => []
  | .invoke i o :: ms => .invoke i o :: history ms
  | .effect _ _ _ :: ms => history ms
  | .answer i r :: ms => .answer i r :: history ms

/-- The calls in the order of their effects. -/
def order : List (Mark T O R) → List (Done T O R)
  | [] => []
  | .invoke _ _ :: ms => order ms
  | .effect i o r :: ms => ⟨i, o, r⟩ :: order ms
  | .answer _ _ :: ms => order ms

theorem history_append (ms ns : List (Mark T O R)) :
    history (ms ++ ns) = history ms ++ history ns := by
  induction ms with
  | nil => rfl
  | cons m ms ih =>
    cases m with
    | invoke i o => exact congrArg _ ih
    | effect i o r => exact ih
    | answer i r => exact congrArg _ ih

theorem order_append (ms ns : List (Mark T O R)) : order (ms ++ ns) = order ms ++ order ns := by
  induction ms with
  | nil => rfl
  | cons m ms ih =>
    cases m with
    | invoke i o => exact ih
    | effect i o r => exact congrArg _ ih
    | answer i r => exact ih

/-- A history is cut where its marks are cut. -/
theorem history_cut {h₂ : List (Event T O R)} {ms : List (Mark T O R)} :
    ∀ {h₁ : List (Event T O R)}, history ms = h₁ ++ h₂ →
      ∃ ms₁ ms₂, ms = ms₁ ++ ms₂ ∧ history ms₁ = h₁ := by
  induction ms with
  | nil =>
    intro h₁ h
    exact ⟨[], [], rfl, (List.append_eq_nil_iff.mp h.symm).1.symm⟩
  | cons m ms ih =>
    intro h₁ h
    cases h₁ with
    | nil => exact ⟨[], m :: ms, rfl, rfl⟩
    | cons e h₁ =>
      have hseen : ∀ e', e' :: history ms = (e :: h₁) ++ h₂ →
          ∃ ms₁ ms₂, ms = ms₁ ++ ms₂ ∧ e' :: history ms₁ = e :: h₁ := by
        intro e' he
        obtain ⟨rfl, htail⟩ := List.cons.inj he
        obtain ⟨ms₁, ms₂, hms, hh⟩ := ih htail
        exact ⟨ms₁, ms₂, hms, congrArg _ hh⟩
      cases m with
      | invoke i o =>
        obtain ⟨ms₁, ms₂, hms, hh⟩ := hseen _ h
        exact ⟨.invoke i o :: ms₁, ms₂, congrArg _ hms, hh⟩
      | effect i o r =>
        obtain ⟨ms₁, ms₂, hms, hh⟩ := ih (show history ms = (e :: h₁) ++ h₂ from h)
        exact ⟨.effect i o r :: ms₁, ms₂, congrArg _ hms, hh⟩
      | answer i r =>
        obtain ⟨ms₁, ms₂, hms, hh⟩ := hseen _ h
        exact ⟨.answer i r :: ms₁, ms₂, congrArg _ hms, hh⟩

/-! ## Linearizations -/

section Threads

variable [DecidableEq T]

/-- What thread `i` has called, in order. -/
def invocations (i : T) : List (Event T O R) → List O
  | [] => []
  | .invoke j o :: h => if j = i then o :: invocations i h else invocations i h
  | .answer _ _ :: h => invocations i h

/-- What thread `i` has been answered, in order. -/
def answers (i : T) : List (Event T O R) → List R
  | [] => []
  | .invoke _ _ :: h => answers i h
  | .answer j r :: h => if j = i then r :: answers i h else answers i h

/-- The calls of thread `i`. -/
def callsOf (i : T) (L : List (Done T O R)) : List (Done T O R) :=
  L.filter fun c => c.thread = i

/-- The order has, of each thread, the first of the calls it has made, among them all
that were answered, with their answers. -/
def Explains (h : List (Event T O R)) (L : List (Done T O R)) : Prop :=
  ∀ i, (callsOf i L).map Done.op <+: invocations i h ∧
    answers i h <+: (callsOf i L).map Done.answer

/-- The order `L` linearizes the history `h`. At every moment of the history the order
can be cut so that what was answered before is in front, and what is called after is
behind. -/
structure Linearizes (apply : Q → O → R × Q) (q : Q) (h : List (Event T O R))
    (L : List (Done T O R)) (q' : Q) : Prop where
  legal : Legal apply q L q'
  explains : Explains h L
  realTime : ∀ h₁ h₂, h = h₁ ++ h₂ → ∃ L₁ L₂, L = L₁ ++ L₂ ∧ Explains h₁ L₁

theorem callsOf_append (i : T) (L₁ L₂ : List (Done T O R)) :
    callsOf i (L₁ ++ L₂) = callsOf i L₁ ++ callsOf i L₂ :=
  List.filter_append L₁ L₂

theorem mem_callsOf {i : T} {c : Done T O R} {L : List (Done T O R)} :
    c ∈ callsOf i L ↔ c ∈ L ∧ c.thread = i := by
  unfold callsOf
  rw [List.mem_filter, decide_eq_true_iff]

theorem callsOf_cons_self (c : Done T O R) (L : List (Done T O R)) :
    callsOf c.thread (c :: L) = c :: callsOf c.thread L :=
  List.filter_cons_of_pos (decide_eq_true rfl)

theorem callsOf_cons_ne {i : T} {c : Done T O R} (hi : c.thread ≠ i) (L : List (Done T O R)) :
    callsOf i (c :: L) = callsOf i L :=
  List.filter_cons_of_neg fun h => hi (of_decide_eq_true h)

/-- What was answered is in the order. -/
theorem Explains.mem {h : List (Event T O R)} {L : List (Done T O R)} (hex : Explains h L)
    {i : T} {r : R} (hr : r ∈ answers i h) : ∃ c ∈ L, c.thread = i ∧ c.answer = r := by
  obtain ⟨c, hc, rfl⟩ := List.mem_map.mp ((hex i).2.subset hr)
  exact ⟨c, (mem_callsOf.mp hc).1, (mem_callsOf.mp hc).2, rfl⟩

/-- The `k`-th call of a thread, once answered. -/
theorem Explains.getElem {h : List (Event T O R)} {L : List (Done T O R)} (hex : Explains h L)
    {i : T} {k : Nat} {o : O} {r : R} (ho : (invocations i h)[k]? = some o)
    (hr : (answers i h)[k]? = some r) :
    ∃ c, (callsOf i L)[k]? = some c ∧ c.op = o ∧ c.answer = r := by
  obtain ⟨hops, hans⟩ := hex i
  obtain ⟨hk, hget⟩ := List.getElem?_eq_some_iff.mp hr
  have hr' := List.prefix_iff_getElem?.mp hans k hk
  rw [List.getElem?_map, hget] at hr'
  obtain ⟨c, hc, hcr⟩ := Option.map_eq_some_iff.mp hr'
  obtain ⟨hkc, hgetc⟩ := List.getElem?_eq_some_iff.mp hc
  have hko : k < ((callsOf i L).map Done.op).length := by
    rw [List.length_map]
    exact hkc
  have ho' := List.prefix_iff_getElem?.mp hops k hko
  rw [List.getElem_map, hgetc, ho, Option.some.injEq] at ho'
  exact ⟨c, hc, ho'.symm, hcr⟩

/-- A call made after the cut is behind it. -/
theorem Explains.behind {h h₁ : List (Event T O R)} {L₁ L₂ : List (Done T O R)}
    (hex : Explains h (L₁ ++ L₂)) (hex₁ : Explains h₁ L₁) {i : T} {k : Nat} {o : O} {r : R}
    (hk : (invocations i h₁).length ≤ k) (ho : (invocations i h)[k]? = some o)
    (hr : (answers i h)[k]? = some r) : ∃ c ∈ L₂, c.op = o ∧ c.answer = r := by
  obtain ⟨c, hc, hco, hcr⟩ := hex.getElem ho hr
  have hlen := (hex₁ i).1.length_le
  rw [List.length_map] at hlen
  rw [callsOf_append, List.getElem?_append_right (by omega)] at hc
  exact ⟨c, (mem_callsOf.mp (List.mem_of_getElem? hc)).1, hco, hcr⟩

/-! ## Linearization points -/

/-- How far the call of a thread is. -/
inductive Phase (O R : Type)
  | idle
  | called (o : O)
  | done (r : R)

/-- From the object `q` and the threads in the phases `ph`, the marks lead to `q'` and
`ph'`: every call is invoked, takes its effect and is answered, in this order. -/
inductive Marks (apply : Q → O → R × Q) :
    Q → (T → Phase O R) → List (Mark T O R) → Q → (T → Phase O R) → Prop
  | nil {q : Q} {ph : T → Phase O R} : Marks apply q ph [] q ph
  | invoke {q q' : Q} {ph ph' : T → Phase O R} {ms : List (Mark T O R)} {i : T} {o : O}
      (hi : ph i = .idle) (h : Marks apply q (Function.update ph i (.called o)) ms q' ph') :
      Marks apply q ph (.invoke i o :: ms) q' ph'
  | effect {q q' : Q} {ph ph' : T → Phase O R} {ms : List (Mark T O R)} {i : T} {o : O}
      (hi : ph i = .called o)
      (h : Marks apply (apply q o).2 (Function.update ph i (.done (apply q o).1)) ms q' ph') :
      Marks apply q ph (.effect i o (apply q o).1 :: ms) q' ph'
  | answer {q q' : Q} {ph ph' : T → Phase O R} {ms : List (Mark T O R)} {i : T} {r : R}
      (hi : ph i = .done r) (h : Marks apply q (Function.update ph i .idle) ms q' ph') :
      Marks apply q ph (.answer i r :: ms) q' ph'

theorem Marks.trans {ms ns : List (Mark T O R)} {q m q' : Q} {ph pm ph' : T → Phase O R}
    (h₁ : Marks apply q ph ms m pm) (h₂ : Marks apply m pm ns q' ph') :
    Marks apply q ph (ms ++ ns) q' ph' := by
  induction h₁ with
  | nil => exact h₂
  | invoke hi _ ih => exact .invoke hi (ih h₂)
  | effect hi _ ih => exact .effect hi (ih h₂)
  | answer hi _ ih => exact .answer hi (ih h₂)

theorem Marks.front {ns : List (Mark T O R)} {q' : Q} {ph' : T → Phase O R}
    {ms : List (Mark T O R)} : ∀ {q : Q} {ph : T → Phase O R},
      Marks apply q ph (ms ++ ns) q' ph' → ∃ m pm, Marks apply q ph ms m pm := by
  induction ms with
  | nil => intro q ph _; exact ⟨q, ph, .nil⟩
  | cons m ms ih =>
    intro q ph h
    cases h with
    | invoke hi h =>
      obtain ⟨m', pm, hm⟩ := ih h
      exact ⟨m', pm, .invoke hi hm⟩
    | effect hi h =>
      obtain ⟨m', pm, hm⟩ := ih h
      exact ⟨m', pm, .effect hi hm⟩
    | answer hi h =>
      obtain ⟨m', pm, hm⟩ := ih h
      exact ⟨m', pm, .answer hi hm⟩

theorem Marks.legal {ms : List (Mark T O R)} {q q' : Q} {ph ph' : T → Phase O R}
    (h : Marks apply q ph ms q' ph') : Legal apply q (order ms) q' := by
  induction h with
  | nil => rfl
  | invoke _ _ ih => exact ih
  | effect _ _ ih => exact ⟨rfl, ih⟩
  | answer _ _ ih => exact ih

/-- The operation that a thread has called and that has no effect yet. -/
def Phase.waits : Phase O R → List O
  | .called o => [o]
  | _ => []

/-- The answer that a thread is to get. -/
def Phase.gets : Phase O R → List R
  | .done r => [r]
  | _ => []

/-- The effects of thread `i` are those of the calls it waits for and of the first ones it
makes; its answers are the one it is to get and those of its first effects. -/
theorem Marks.explains {ms : List (Mark T O R)} {q q' : Q} {ph ph' : T → Phase O R}
    (h : Marks apply q ph ms q' ph') (i : T) :
    (callsOf i (order ms)).map Done.op <+: (ph i).waits ++ invocations i (history ms) ∧
      answers i (history ms) <+: (ph i).gets ++ (callsOf i (order ms)).map Done.answer := by
  induction h with
  | nil => exact ⟨List.nil_prefix, List.nil_prefix⟩
  | @invoke q q' ph ph' ms j o hj h ih =>
    obtain ⟨hops, hans⟩ := ih
    by_cases hji : j = i
    · subst hji
      rw [Function.update_self] at hops hans
      unfold history order invocations answers
      rw [hj, if_pos rfl]
      exact ⟨hops, hans⟩
    · rw [Function.update_of_ne (Ne.symm hji)] at hops hans
      unfold history order invocations answers
      rw [if_neg hji]
      exact ⟨hops, hans⟩
  | @effect q q' ph ph' ms j o hj h ih =>
    obtain ⟨hops, hans⟩ := ih
    by_cases hji : j = i
    · subst hji
      rw [Function.update_self] at hops hans
      unfold history order
      rw [hj, callsOf_cons_self ⟨j, o, _⟩]
      exact ⟨List.cons_prefix_cons.mpr ⟨rfl, hops⟩, hans⟩
    · rw [Function.update_of_ne (Ne.symm hji)] at hops hans
      unfold history order
      rw [callsOf_cons_ne hji]
      exact ⟨hops, hans⟩
  | @answer q q' ph ph' ms j r hj h ih =>
    obtain ⟨hops, hans⟩ := ih
    by_cases hji : j = i
    · subst hji
      rw [Function.update_self] at hops hans
      unfold history order invocations answers
      rw [hj, if_pos rfl]
      exact ⟨hops, List.cons_prefix_cons.mpr ⟨rfl, hans⟩⟩
    · rw [Function.update_of_ne (Ne.symm hji)] at hops hans
      unfold history order invocations answers
      rw [if_neg hji]
      exact ⟨hops, hans⟩

/-- From idle threads, the effects in their order explain the history. -/
theorem Marks.explains_idle {ms : List (Mark T O R)} {q q' : Q} {ph ph' : T → Phase O R}
    (h : Marks apply q ph ms q' ph') (hidle : ∀ i, ph i = .idle) :
    Explains (history ms) (order ms) := by
  intro i
  have hi := h.explains i
  rw [hidle i] at hi
  exact hi

/-- **Linearization points.** The order of the effects linearizes the history. -/
theorem Marks.linearizes {ms : List (Mark T O R)} {q q' : Q} {ph ph' : T → Phase O R}
    (h : Marks apply q ph ms q' ph') (hidle : ∀ i, ph i = .idle) :
    Linearizes apply q (history ms) (order ms) q' where
  legal := h.legal
  explains := h.explains_idle hidle
  realTime := by
    intro h₁ h₂ hcut
    obtain ⟨ms₁, ms₂, rfl, rfl⟩ := history_cut hcut
    obtain ⟨m, pm, hfront⟩ := h.front
    exact ⟨order ms₁, order ms₂, order_append ms₁ ms₂, hfront.explains_idle hidle⟩

/-! ## Machines -/

variable {σ α : Type}

/-- What the steps of a run show, in order. -/
def shown {E : Type} (step : σ → α → Option σ) (shows : σ → α → List E) : σ → List α → List E
  | _, [] => []
  | s, a :: as =>
    match step s a with
    | none => []
    | some s' => shows s a ++ shown step shows s' as

/-- A machine whose steps carry marks: the marks of a run are the run of the marks. -/
theorem marks_of_run {step : σ → α → Option σ} {marks : σ → α → List (Mark T O R)}
    {object : σ → Q} {phase : σ → T → Phase O R} {I : σ → Prop}
    (hI : ∀ s a s', I s → step s a = some s' → I s')
    (hstep : ∀ s a s', I s → step s a = some s' →
      Marks apply (object s) (phase s) (marks s a) (object s') (phase s')) {as : List α} :
    ∀ {s s' : σ}, run step s as = some s' → I s →
      Marks apply (object s) (phase s) (shown step marks s as) (object s') (phase s') := by
  induction as with
  | nil =>
    intro s s' h _
    rw [run_nil, Option.some.injEq] at h
    exact h ▸ .nil
  | cons a as ih =>
    intro s s' h hs
    obtain ⟨s₁, h₁, h₂⟩ := run_cons_some.mp h
    have hmarks : shown step marks s (a :: as) = marks s a ++ shown step marks s₁ as := by
      rw [shown, h₁]
    rw [hmarks]
    exact (hstep s a s₁ hs h₁).trans (ih h₂ (hI s a s₁ hs h₁))

omit [DecidableEq T] in
theorem history_shown {step : σ → α → Option σ} {marks : σ → α → List (Mark T O R)}
    {events : σ → α → List (Event T O R)} (hevents : ∀ s a, history (marks s a) = events s a)
    {as : List α} : ∀ {s : σ}, history (shown step marks s as) = shown step events s as := by
  induction as with
  | nil => intro s; rfl
  | cons a as ih =>
    intro s
    unfold shown
    cases step s a with
    | none => rfl
    | some s₁ =>
      show history (marks s a ++ shown step marks s₁ as) = _
      rw [history_append, hevents, ih]

/-- **The rule for machines.** Every run from a state with all threads idle linearizes to
the sequential object, and leaves it as the machine has it. -/
theorem linearizes_of_run {step : σ → α → Option σ} {marks : σ → α → List (Mark T O R)}
    {events : σ → α → List (Event T O R)} {object : σ → Q} {phase : σ → T → Phase O R}
    {I : σ → Prop} (hI : ∀ s a s', I s → step s a = some s' → I s')
    (hstep : ∀ s a s', I s → step s a = some s' →
      Marks apply (object s) (phase s) (marks s a) (object s') (phase s'))
    (hevents : ∀ s a, history (marks s a) = events s a) {as : List α} {s s' : σ}
    (h : run step s as = some s') (hs : I s) (hidle : ∀ i, phase s i = .idle) :
    ∃ L, Linearizes apply (object s) (shown step events s as) L (object s') := by
  have hmarks := (marks_of_run hI hstep h hs).linearizes hidle
  rw [history_shown hevents] at hmarks
  exact ⟨_, hmarks⟩

end Threads

end Cor.Lib

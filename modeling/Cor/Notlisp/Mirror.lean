import Cor.Notlisp.Dict
import Cor.Sexp.Forest

/-!
# The frames mirror the text

A forest grows from the calls of `parse`, with its lists still open while they are read
(`Growing`). The frames of the interpreter have the same shape at every moment: one value
for each form that is complete, in the frame of the list it belongs to. The frame at the
bottom is the one the run started on with the values of the top-level forms after it, and
the frames below that are not touched.

That does not depend on what the functions do or on what is bound: a call that throws ends
the run, and one that returns adds exactly one value.
-/

namespace Cor.Notlisp

open Sexp
open Lib (Emit)

variable {F W : Type}

section

variable (t : ExprList F) (ts : List (ExprList F))

/-- The frames for a list with these forms in it, inside of the others, over the frame `t`
and the frames `ts` that were there before. -/
def Mirrors : List Form → List (List Form) → List (ExprList F) → Prop
  | items, [], stack => ∃ vs, vs.length = items.length ∧ stack = (t ++ vs) :: ts
  | items, fs :: outer, stack =>
    ∃ vs rest, vs.length = items.length ∧ stack = vs :: rest ∧ Mirrors fs outer rest

/-- The frames for a forest that grows. -/
def MirrorsAt (g : Growing) (stack : List (ExprList F)) : Prop := Mirrors t ts g.items g.outer stack

end

section

variable {t : ExprList F} {ts : List (ExprList F)} {items : List Form} {outer : List (List Form)}
  {stack : List (ExprList F)}

theorem mirrors_start : MirrorsAt t ts Growing.start (t :: ts) :=
  ⟨[], rfl, by rw [List.append_nil]⟩

theorem Mirrors.frame : ∀ {outer : List (List Form)}, Mirrors t ts items outer stack →
    ∃ u us, stack = u :: us
  | [], h => by
    obtain ⟨vs, -, hstack⟩ := h
    exact ⟨_, _, hstack⟩
  | fs :: outer, h => by
    obtain ⟨vs, rest, -, hstack, -⟩ := h
    exact ⟨_, _, hstack⟩

/-- One form more, and one value. -/
theorem Mirrors.snoc {u : ExprList F} {us : List (ExprList F)} (v : ExprPtr F) (f : Form) :
    ∀ {outer : List (List Form)}, Mirrors t ts items outer (u :: us) →
      Mirrors t ts (items ++ [f]) outer ((u ++ [v]) :: us)
  | [], h => by
    obtain ⟨vs, hlen, hstack⟩ := h
    obtain ⟨rfl, rfl⟩ := List.cons.inj hstack
    refine ⟨vs ++ [v], ?_, by rw [List.append_assoc]⟩
    rw [List.length_append, List.length_append, hlen]
    rfl
  | fs :: outer, h => by
    obtain ⟨vs, rest, hlen, hstack, hrest⟩ := h
    obtain ⟨rfl, rfl⟩ := List.cons.inj hstack
    refine ⟨u ++ [v], us, ?_, rfl, hrest⟩
    rw [List.length_append, List.length_append, hlen]
    rfl

/-! ## Callbacks -/

variable {L : Lang F W} {env : Env F W} {i' : Interpreter F W}

/-- What `on_atom` adds when it returns. -/
theorem onAtom_ok {s : Bytes} {u : ExprList F} {us : List (ExprList F)}
    (h : Interpreter.onAtom L s ⟨env, u :: us⟩ = .ok () i') : ∃ v, i'.stack = (u ++ [v]) :: us := by
  rw [Interpreter.onAtom_run] at h
  cases hc : L.convertAtom s env with
  | ok v env₁ =>
    rw [hc] at h
    injection h with _ hi
    rw [← hi]
    exact ⟨_, rfl⟩
  | error e env₁ =>
    rw [hc] at h
    cases h

/-- When `on_list_end` returns, one value has taken the place of the frame. -/
theorem onListEnd_ok {vs u : ExprList F} {us : List (ExprList F)}
    (h : Interpreter.onListEnd L ⟨env, vs :: u :: us⟩ = .ok () i') :
    ∃ v, i'.stack = (u ++ [v]) :: us := by
  rw [Interpreter.onListEnd_run] at h
  cases vs with
  | nil => cases h
  | cons expr rest =>
    dsimp only at h
    generalize eval env expr = r at h
    obtain ⟨p, env₁⟩ := r
    cases p with
    | none => cases h
    | some p =>
      dsimp only at h
      by_cases hfn : p.type ≠ .function
      · rw [if_pos hfn] at h
        cases h
      · rw [if_neg hfn] at h
        cases p with
        | lambda name fn =>
          dsimp only at h
          cases hcall : L.call fn (evalList env₁ rest).1 (evalList env₁ rest).2 with
          | ok res env₂ =>
            rw [hcall] at h
            injection h with _ hi
            rw [← hi]
            exact ⟨res, rfl⟩
          | error e env₂ =>
            rw [hcall] at h
            cases h
        | _ => cases h

/-- **One callback that returns** keeps the frames the mirror of what was read. -/
theorem on_mirrors {g g' : Growing} {w : Callback} (hM : MirrorsAt t ts g stack)
    (hgrow : g.grow w = some g') (h : (Interpreter.handler L).on w ⟨env, stack⟩ = .ok () i') :
    MirrorsAt t ts g' i'.stack := by
  obtain ⟨u, us, rfl⟩ := Mirrors.frame hM
  cases w with
  | onListBegin =>
    obtain rfl := Option.some.inj hgrow
    obtain rfl := (EStateM.Result.ok.inj h).2
    exact ⟨[], u :: us, rfl, rfl, hM⟩
  | onListEnd =>
    obtain ⟨items, outer⟩ := g
    cases outer with
    | nil => cases hgrow
    | cons fs outer =>
      obtain rfl := Option.some.inj hgrow
      obtain ⟨vs, rest, -, hstack, hrest⟩ := hM
      obtain ⟨rfl, rfl⟩ := List.cons.inj hstack
      obtain ⟨u', us', rfl⟩ := Mirrors.frame hrest
      obtain ⟨v, hv⟩ := onListEnd_ok h
      rw [hv]
      exact Mirrors.snoc v _ hrest
  | onString s =>
    obtain rfl := Option.some.inj hgrow
    obtain rfl := (EStateM.Result.ok.inj h).2
    exact Mirrors.snoc (mkString s) _ hM
  | onAtom s =>
    obtain rfl := Option.some.inj hgrow
    obtain ⟨v, hv⟩ := onAtom_ok h
    rw [hv]
    exact Mirrors.snoc v _ hM
  | onComment s =>
    obtain rfl := Option.some.inj hgrow
    obtain rfl := (EStateM.Result.ok.inj h).2
    exact hM
  | onEof =>
    obtain rfl := Option.some.inj hgrow
    obtain rfl := (EStateM.Result.ok.inj h).2
    exact hM

theorem listen_mirrors {g g' : Growing} {w : Callback} (hM : MirrorsAt t ts g stack)
    (hgrow : g.grow w = some g') (h : (Interpreter.handler L).listen w ⟨env, stack⟩ = .ok () i') :
    MirrorsAt t ts g' i'.stack := by
  unfold Handler.listen at h
  cases hon : (Interpreter.handler L).on w ⟨env, stack⟩ with
  | ok u i₁ =>
    rw [hon] at h
    injection h with _ hi
    rw [← hi]
    exact on_mirrors hM hgrow hon
  | error e i₁ =>
    rw [hon] at h
    cases h

/-! ## Whole runs -/

/-- What is left once all calls have returned. -/
theorem deliver_mirrors : ∀ (ws : List Callback) {g g' : Growing} {i : Interpreter F W},
    MirrorsAt t ts g i.stack → g.growAll ws = some g' →
      Emit.deliver (Interpreter.handler L).listen ws i = .ok () i' → MirrorsAt t ts g' i'.stack
  | [], g, g', i, hM, hgrow, h => by
    obtain rfl := Option.some.inj hgrow
    obtain rfl := (EStateM.Result.ok.inj h).2
    exact hM
  | w :: ws, g, g', i, hM, hgrow, h => by
    rw [Growing.growAll_cons] at hgrow
    obtain ⟨g₁, hone, hrest⟩ := Option.bind_eq_some_iff.mp hgrow
    rw [Emit.deliver_cons] at h
    cases hw : (Interpreter.handler L).listen w i with
    | ok u i₁ =>
      rw [hw] at h
      exact deliver_mirrors ws (listen_mirrors hM hone hw) hrest h
    | error e i₁ =>
      rw [hw] at h
      cases h

/-- Every call finds the mirror of the calls before it. -/
theorem deliver_finds : ∀ (ws : List Callback) {g g' : Growing} {i : Interpreter F W}
    (log : List (Callback × Interpreter F W)), MirrorsAt t ts g i.stack →
      g.growAll ws = some g' → ∃ cs,
        (left (Emit.deliver ((Interpreter.handler L).watch id).listen ws (i, log))).2 = log ++ cs ∧
          ∀ pre c post, cs = pre ++ c :: post → ∃ g₁, g.growAll (pre.map Prod.fst) = some g₁ ∧
            MirrorsAt t ts g₁ c.2.stack
  | [], g, g', i, log, _, _ => by
    refine ⟨[], (List.append_nil _).symm, fun pre c post hcs => ?_⟩
    cases pre <;> cases hcs
  | w :: ws, g, g', i, log, hM, hgrow => by
    rw [Growing.growAll_cons] at hgrow
    obtain ⟨g₁, hone, hrest⟩ := Option.bind_eq_some_iff.mp hgrow
    rw [Emit.deliver_cons, listen_watch]
    cases hw : (Interpreter.handler L).listen w i with
    | ok u i₁ =>
      obtain ⟨cs, hlog, hcs⟩ := deliver_finds ws (log ++ [(w, i)]) (listen_mirrors hM hone hw) hrest
      refine ⟨(w, i) :: cs, hlog.trans (List.append_assoc log [(w, i)] cs), ?_⟩
      intro pre c post hsplit
      cases pre with
      | nil =>
        obtain ⟨rfl, -⟩ := List.cons.inj hsplit
        exact ⟨g, rfl, hM⟩
      | cons b pre =>
        obtain ⟨rfl, htail⟩ := List.cons.inj hsplit
        obtain ⟨g₂, hg₂, hM₂⟩ := hcs pre c post htail
        refine ⟨g₂, ?_, hM₂⟩
        show g.growAll (w :: pre.map Prod.fst) = some g₂
        rw [Growing.growAll_cons, hone]
        exact hg₂
    | error e i₁ =>
      refine ⟨[(w, i)], rfl, ?_⟩
      intro pre c post hsplit
      cases pre with
      | nil =>
        obtain ⟨rfl, -⟩ := List.cons.inj hsplit
        exact ⟨g, rfl, hM⟩
      | cons b pre =>
        obtain ⟨-, htail⟩ := List.cons.inj hsplit
        cases pre <;> cases htail

/-- **One value for each form.** For every text shorter than the level can count, every
language and environment, and an interpreter with the frame `t` on `ts`: at each call that
`parse` makes there is, over `ts`, the frame `t` with one value for each top-level form
read so far, and above it a frame for each open list with one value for each of its forms.
When `parse` returns that holds of the whole text. -/
theorem frames_mirror (sg : CharSign) {src : Bytes} (hlen : src.length < 2 ^ 32) (env : Env F W)
    (t : ExprList F) (ts : List (ExprList F)) :
    (∀ pre c post, calls L sg src ⟨env, t :: ts⟩ = pre ++ c :: post →
      ∃ g, Growing.start.growAll (pre.map Prod.fst) = some g ∧ MirrorsAt t ts g c.2.stack) ∧
    ∀ i', parse (Interpreter.handler L) sg src ⟨env, t :: ts⟩ = .ok () i' →
      ∃ g, Growing.start.growAll (Lexer.scan sg src).events = some g ∧
        MirrorsAt t ts g i'.stack := by
  obtain ⟨g, hg⟩ := Lexer.scan_grows sg hlen
  have hstart : MirrorsAt t ts Growing.start (⟨env, t :: ts⟩ : Interpreter F W).stack :=
    mirrors_start
  constructor
  · obtain ⟨cs, hlog, hcs⟩ := @deliver_finds _ _ t ts L _ _ g ⟨env, t :: ts⟩ [] hstart hg
    rw [← left_parse] at hlog
    have hcalls : calls L sg src ⟨env, t :: ts⟩ = cs := hlog
    rw [hcalls]
    exact hcs
  · intro i' h
    rw [parse_eq_play] at h
    obtain ⟨-, hdeliver⟩ := Emit.play_ok _ _ h
    exact ⟨g, hg, deliver_mirrors _ hstart hg hdeliver⟩

end

/-- Two lists are open after `((a`, and `a` is in the inner one. -/
theorem frames_mirror_open : ∃ i',
    parse (Interpreter.handler noFunctions) .signed openText (Interpreter.create ⟨∅, ()⟩) =
      .ok () i' ∧
    ∃ g, Growing.start.growAll (Lexer.scan .signed openText).events = some g ∧
      MirrorsAt [] [] g i'.stack := by
  have hrun : parse (Interpreter.handler noFunctions) .signed openText
      (Interpreter.create ⟨∅, ()⟩) = .ok () (left (parse (Interpreter.handler noFunctions) .signed
        openText (Interpreter.create ⟨∅, ()⟩))) := rfl
  exact ⟨_, hrun, (frames_mirror .signed (show openText.length < 2 ^ 32 by decide) ⟨∅, ()⟩
    [] []).2 _ hrun⟩

end Cor.Notlisp

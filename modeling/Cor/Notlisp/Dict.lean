import Cor.Notlisp.Interpreter
import Cor.Sexp.Visits

/-!
# What evaluation does to the dictionary

A symbol is evaluated by `env->dict[value()]`, and `operator []` of a map adds an
entry for a key it does not have. So evaluation writes to the environment: a name
that nobody has bound is bound to null afterwards.

`Filled` says exactly that of two dictionaries and a list of names. `eval_filled`
is the fact for one expression, `on_filled` for one callback, and `parse_filled` for
a whole run, of whatever outcome. `dict_unchanged_iff` reads off it when a run leaves
the dictionary alone.
-/

namespace Cor.Notlisp

open Sexp
open Std (ExtTreeMap)

variable {F W : Type}

/-! ## Dictionaries with null entries added -/

/-- `d'` is `d` with a null entry for each of the names that is not in it. -/
def Filled (d : ExtTreeMap Bytes (ExprPtr F)) (names : List Bytes)
    (d' : ExtTreeMap Bytes (ExprPtr F)) : Prop :=
  ∀ k, d'[k]? = (d[k]?).or (if k ∈ names then some none else none)

section

variable {d d' d'' : ExtTreeMap Bytes (ExprPtr F)} {names names' : List Bytes}

theorem Filled.refl (d : ExtTreeMap Bytes (ExprPtr F)) : Filled d [] d := by
  intro k
  rw [if_neg List.not_mem_nil, Option.or_none]

theorem Filled.trans (h : Filled d names d') (h' : Filled d' names' d'') :
    Filled d (names ++ names') d'' := by
  intro k
  rw [h' k, h k, Option.or_assoc]
  congr 1
  by_cases hk : k ∈ names
  · rw [if_pos hk, if_pos (List.mem_append_left _ hk)]
    rfl
  · rw [if_neg hk, Option.none_or]
    by_cases hk' : k ∈ names'
    · rw [if_pos hk', if_pos (List.mem_append_right _ hk')]
    · rw [if_neg hk', if_neg (by simp [hk, hk'])]

/-- Nothing is added exactly when every name was there. -/
theorem Filled.eq_iff (h : Filled d names d') : d' = d ↔ ∀ n ∈ names, n ∈ d := by
  constructor
  · rintro rfl n hn
    have hk := h n
    rw [if_pos hn] at hk
    rw [ExtTreeMap.mem_iff_isSome_getElem?]
    cases hd : d'[n]? with
    | some p => rfl
    | none =>
      rw [hd] at hk
      exact nomatch hk
  · intro hall
    apply ExtTreeMap.ext_getElem?
    intro k
    rw [h k]
    by_cases hk : k ∈ names
    · have hmem := hall k hk
      rw [ExtTreeMap.mem_iff_isSome_getElem?] at hmem
      obtain ⟨p, hp⟩ := Option.isSome_iff_exists.mp hmem
      rw [hp]
      rfl
    · rw [if_neg hk, Option.or_none]

end

/-! ## Evaluation -/

mutual

/-- The symbols that evaluating an expression looks up, in order. -/
def Expr.symbols : Expr F → List Bytes
  | .symbol s => [s]
  | .list items => symbolsList items
  | .basic _ _ => []
  | .nil => []
  | .integer _ => []
  | .real _ => []
  | .lambda _ _ => []
  | .object _ => []

def symbols : ExprPtr F → List Bytes
  | some e => e.symbols
  | none => []

def symbolsList : ExprList F → List Bytes
  | [] => []
  | p :: ps => symbols p ++ symbolsList ps

end

theorem lookup_filled (env : Env F W) (name : Bytes) :
    Filled env.dict [name] (env.lookup name).2.dict := by
  intro k
  unfold Env.lookup
  cases hd : env.dict[name]? with
  | some p =>
    by_cases hk : name = k
    · subst hk
      simp [hd]
    · simp [Ne.symm hk]
  | none =>
    show (env.dict.insert name none)[k]? = _
    rw [ExtTreeMap.getElem?_insert]
    by_cases hk : name = k
    · subst hk
      simp [hd]
    · simp [hk, Ne.symm hk]

mutual

theorem Expr.doEval_filled (env : Env F W) : ∀ e : Expr F,
    Filled env.dict e.symbols (e.doEval env).2.dict
  | .symbol s => lookup_filled env s
  | .list items => by
    have hitems := evalList_filled env items
    unfold Expr.doEval Expr.symbols
    exact hitems
  | .basic _ _ => .refl _
  | .nil => .refl _
  | .integer _ => .refl _
  | .real _ => .refl _
  | .lambda _ _ => .refl _
  | .object _ => .refl _

/-- **Evaluating an expression** binds its symbols, to null where they were not. -/
theorem eval_filled (env : Env F W) : ∀ p : ExprPtr F,
    Filled env.dict (symbols p) (eval env p).2.dict
  | some e => Expr.doEval_filled env e
  | none => .refl _

theorem evalList_filled (env : Env F W) : ∀ ps : ExprList F,
    Filled env.dict (symbolsList ps) (evalList env ps).2.dict
  | [] => .refl _
  | p :: ps => by
    have hp := eval_filled env p
    have hps := evalList_filled (eval env p).2 ps
    unfold evalList symbolsList
    exact hp.trans hps

end

/-! ## Callbacks -/

/-- The functions and the atom converter leave the dictionary as it is. -/
structure Lang.KeepsDict (L : Lang F W) : Prop where
  call : ∀ fn args env, (left (L.call fn args env)).dict = env.dict
  convertAtom : ∀ s env, (left (L.convertAtom s env)).dict = env.dict

/-- The names that a callback of the interpreter `i` evaluates. -/
def evaluated (L : Lang F W) (i : Interpreter F W) : Callback → List Bytes
  | .onAtom s =>
    match L.convertAtom s i.env with
    | .ok v _ => symbols v
    | .error _ _ => []
  | .onListEnd =>
    match i.stack with
    | (expr :: rest) :: _ =>
      symbols expr ++
        match (eval i.env expr).1 with
        | some p => if p.type = .function then symbolsList rest else []
        | none => []
    | _ => []
  | _ => []

section

variable {L : Lang F W}

theorem onAtom_filled (hL : L.KeepsDict) (s : Bytes) (i : Interpreter F W) :
    Filled i.env.dict (evaluated L i (.onAtom s)) (left (Interpreter.onAtom L s i)).env.dict := by
  have hkeeps := hL.convertAtom s i.env
  unfold evaluated Interpreter.onAtom
  rw [Lib.Emit.bind_apply]
  unfold Interpreter.foreign
  dsimp only
  cases hconv : L.convertAtom s i.env with
  | error e env' =>
    rw [hconv] at hkeeps
    change env'.dict = i.env.dict at hkeeps
    show Filled _ _ env'.dict
    rw [hkeeps]
    exact .refl _
  | ok v env' =>
    rw [hconv] at hkeeps
    change env'.dict = i.env.dict at hkeeps
    have hv := eval_filled env' v
    rw [hkeeps] at hv
    obtain ⟨env, stack⟩ := i
    cases stack <;> exact hv

/-- What a function does to the dictionary it is called with: nothing. -/
theorem callFunction_filled (hL : L.KeepsDict) {env env' : Env F W} {names : List Bytes}
    (h : Filled env.dict names env'.dict) (fn : F) (args rest : ExprList F)
    (ts : List (ExprList F)) :
    Filled env.dict names (left ((Interpreter.foreign (L.call fn args) sliced >>= fun res => do
      Interpreter.pop; Interpreter.pushBack res : Interpreter.M F W Unit)
        ⟨env', rest :: ts⟩)).env.dict := by
  have hkeeps := hL.call fn args env'
  rw [Lib.Emit.bind_apply]
  unfold Interpreter.foreign
  dsimp only
  cases hcall : L.call fn args env' with
  | error e env'' =>
    rw [hcall] at hkeeps
    change env''.dict = env'.dict at hkeeps
    show Filled _ _ env''.dict
    rwa [hkeeps]
  | ok res env'' =>
    rw [hcall] at hkeeps
    change env''.dict = env'.dict at hkeeps
    rw [← hkeeps] at h
    cases ts <;> exact h

theorem onListEnd_filled (hL : L.KeepsDict) (i : Interpreter F W) :
    Filled i.env.dict (evaluated L i .onListEnd) (left (Interpreter.onListEnd L i)).env.dict := by
  obtain ⟨env, stack⟩ := i
  cases stack with
  | nil => exact .refl _
  | cons t ts =>
    cases t with
    | nil => exact .refl _
    | cons expr rest =>
      have hhead := eval_filled env expr
      rw [Interpreter.onListEnd_head]
      unfold evaluated
      dsimp only
      generalize eval env expr = r at hhead ⊢
      obtain ⟨p, env₁⟩ := r
      cases p with
      | none =>
        dsimp only
        rw [List.append_nil]
        exact hhead
      | some p =>
        dsimp only
        by_cases hfn : p.type = .function
        · -- the head is a function, so the other items are evaluated
          rw [if_pos hfn, if_neg (not_not_intro hfn)]
          have hitems := hhead.trans (evalList_filled env₁ rest)
          cases p with
          | lambda name fn => exact callFunction_filled hL hitems fn _ rest ts
          | _ => exact hitems
        · rw [if_neg hfn, if_pos hfn, List.append_nil]
          exact hhead

/-- **One callback** binds the names it evaluates, to null where they were not. -/
theorem on_filled (hL : L.KeepsDict) (w : Callback) (i : Interpreter F W) :
    Filled i.env.dict (evaluated L i w)
      (left ((Interpreter.handler L).on w i)).env.dict := by
  obtain ⟨env, stack⟩ := i
  cases w with
  | onListEnd => exact onListEnd_filled hL ⟨env, stack⟩
  | onAtom s => exact onAtom_filled hL s ⟨env, stack⟩
  | onString s => cases stack <;> exact .refl _
  | onListBegin => exact .refl _
  | onComment s => exact .refl _
  | onEof => exact .refl _

/-! ## Whole runs -/

/-- The names that the callbacks of a run evaluate. -/
def evaluatedIn (L : Lang F W) (calls : List (Callback × Interpreter F W)) : List Bytes :=
  calls.flatMap fun c => evaluated L c.2 c.1

/-- The events of a text, delivered to an interpreter that records its calls. -/
theorem deliver_filled (hL : L.KeepsDict) : ∀ (ws : List Callback) (i : Interpreter F W)
    (log : List (Callback × Interpreter F W)), ∃ calls,
      (left (Lib.Emit.deliver ((Interpreter.handler L).watch id).listen ws (i, log))).2 =
        log ++ calls ∧
      Filled i.env.dict (evaluatedIn L calls)
        (left (Lib.Emit.deliver ((Interpreter.handler L).watch id).listen ws (i, log))).1.env.dict
  | [], i, log => ⟨[], (List.append_nil _).symm, .refl _⟩
  | w :: ws, i, log => by
    have hone := on_filled hL w i
    rw [Lib.Emit.deliver_cons, listen_watch]
    unfold Handler.listen
    cases hw : (Interpreter.handler L).on w i with
    | ok u i' =>
      rw [hw] at hone
      obtain ⟨calls, hlog, hrest⟩ := deliver_filled hL ws i' (log ++ [(w, i)])
      exact ⟨(w, i) :: calls, hlog.trans (List.append_assoc log [(w, i)] calls), hone.trans hrest⟩
    | error a i' =>
      rw [hw] at hone
      refine ⟨[(w, i)], rfl, ?_⟩
      show Filled _ (evaluated L i w ++ []) _
      rw [List.append_nil]
      exact hone

/-- What `parse` leaves is what its calls leave, whether it fails after them or not. -/
theorem left_parse {ε η : Type} (h : Handler ε η) (sg : CharSign) (src : Bytes) (s : η) :
    left (parse h sg src s) =
      left (Lib.Emit.deliver h.listen (Lexer.scan sg src).events s) := by
  rw [parse_eq_play]
  unfold Handler.play
  rw [Lib.Emit.play_apply]
  cases Lib.Emit.deliver h.listen (Lexer.scan sg src).events s with
  | ok u s' => cases (Lexer.scan sg src).result <;> rfl
  | error e s' => rfl

/-- The calls of a run of `parse`, each with the interpreter it found. -/
def calls (L : Lang F W) (sg : CharSign) (src : Bytes) (i₀ : Interpreter F W) :
    List (Callback × Interpreter F W) := callsOf (Interpreter.handler L) id sg src i₀

/-- **A run of `parse`** binds the names it evaluates, to null where they were not,
however it ends. -/
theorem parse_filled (hL : L.KeepsDict) (sg : CharSign) (src : Bytes) (i₀ : Interpreter F W) :
    Filled i₀.env.dict (evaluatedIn L (calls L sg src i₀))
      (left (parse (Interpreter.handler L) sg src i₀)).env.dict := by
  obtain ⟨cs, hlog, hfilled⟩ := deliver_filled hL (Lexer.scan sg src).events i₀ []
  rw [← left_parse] at hlog hfilled
  have hcalls : calls L sg src i₀ = cs := hlog
  have hleft : left (parse (Interpreter.handler L) sg src i₀) =
      (left (parse ((Interpreter.handler L).watch id) sg src (i₀, []))).1 := by
    rw [← @parse_watch _ _ _ _ id _ _ i₀ []]
    cases parse ((Interpreter.handler L).watch id) sg src (i₀, []) <;> rfl
  rw [hcalls, hleft]
  exact hfilled

/-- **The dictionary and a run.** With functions that do not modify it, `parse` leaves
the dictionary as it was, however it ends, exactly when each name that one of its
callbacks evaluates was bound before. -/
theorem dict_unchanged_iff (hL : L.KeepsDict) (sg : CharSign) (src : Bytes)
    (i₀ : Interpreter F W) :
    (left (parse (Interpreter.handler L) sg src i₀)).env.dict = i₀.env.dict ↔
      ∀ c ∈ calls L sg src i₀, ∀ name ∈ evaluated L c.2 c.1, name ∈ i₀.env.dict := by
  rw [(parse_filled hL sg src i₀).eq_iff]
  unfold evaluatedIn
  constructor
  · intro hall c hc name hname
    exact hall name (List.mem_flatMap.mpr ⟨c, hc, hname⟩)
  · intro hall name hname
    obtain ⟨c, hc, hname⟩ := List.mem_flatMap.mp hname
    exact hall c hc name hname

end

/-! ## A name that nobody has bound -/

section Demo

/-- No functions, and the default converter. -/
def noFunctions : Lang Empty Unit := Lang.withDefault fun fn _ => nomatch fn

theorem noFunctions_keepsDict : noFunctions.KeepsDict :=
  ⟨fun fn => (nomatch fn), fun _ _ => rfl⟩

/-- Reading `x` in the empty environment binds it. -/
theorem dict_grows :
    ¬ ∀ (F W : Type) (L : Lang F W) (sg : CharSign) (src : Bytes) (i₀ : Interpreter F W),
      L.KeepsDict → (left (parse (Interpreter.handler L) sg src i₀)).env.dict = i₀.env.dict := by
  intro hall
  have hsame := hall _ _ noFunctions .signed (ascii "x") (Interpreter.create ⟨∅, ()⟩)
    noFunctions_keepsDict
  have hbound : (left (parse (Interpreter.handler noFunctions) .signed (ascii "x")
      (Interpreter.create ⟨∅, ()⟩))).env.dict.contains (ascii "x") = true := by decide +kernel
  rw [hsame] at hbound
  exact absurd hbound (by decide)

/-- An environment in which `x` is bound to a string. -/
def bindsX : Env Empty Unit := ⟨(∅ : ExtTreeMap Bytes (ExprPtr Empty)).insert (ascii "x")
  (mkString (ascii "v")), ()⟩

/-- Reading `x` there changes nothing. -/
theorem dict_unchanged_demo :
    (left (parse (Interpreter.handler noFunctions) .signed (ascii "x")
      (Interpreter.create bindsX))).env.dict = bindsX.dict := by
  refine (dict_unchanged_iff noFunctions_keepsDict .signed (ascii "x")
    (Interpreter.create bindsX)).mpr ?_
  have hcalls : (calls noFunctions .signed (ascii "x") (Interpreter.create bindsX)) =
      [(.onAtom (ascii "x"), Interpreter.create bindsX),
        (.onEof, ⟨bindsX, [[mkString (ascii "v")]]⟩)] := rfl
  rw [hcalls]
  intro c hc name hname
  rcases List.mem_cons.mp hc with rfl | hc
  · have hx : name ∈ [ascii "x"] := hname
    rw [List.mem_singleton] at hx
    subst hx
    exact ExtTreeMap.mem_insert_self
  · rw [List.mem_singleton] at hc
    subst hc
    exact absurd hname List.not_mem_nil

end Demo

end Cor.Notlisp

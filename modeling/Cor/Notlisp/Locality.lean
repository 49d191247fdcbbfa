import Cor.Notlisp.Dict

/-!
# What evaluation reads of the environment

A name that is not bound and a name that is bound to null have one value, so the null
entries that evaluation adds to the dictionary should not matter to anything that is
evaluated later. More than that: of the whole dictionary only the names that a run
evaluates should matter to it.

`Alike N` relates two environments with one `world` in which the names of `N` have the
same values. `eval_alike` is the fact for one expression, `on_alike` for one callback,
and `parse_alike` for a whole run, which the two environments cannot tell apart: it
ends the same way, with the same frames, and leaves two environments that are alike
again. `null_entries_unseen` is the case of the null entries.

The functions and the converter come from outside; they are taken to read no other
names (`Lang.Reads`).
-/

namespace Cor.Notlisp

open Sexp
open Lib (Emit)

variable {F W : Type}

/-- The value of a name: null where it is not bound. -/
def Env.valueOf (env : Env F W) (name : Bytes) : ExprPtr F := (env.dict[name]?).join

/-- Environments that agree on the names of `N`. -/
structure Alike (N : Bytes → Prop) (e e' : Env F W) : Prop where
  world : e.world = e'.world
  names : ∀ name, N name → e.valueOf name = e'.valueOf name

/-- Interpreters with the same frames, in such environments. -/
structure AlikeIn (N : Bytes → Prop) (i j : Interpreter F W) : Prop where
  stack : i.stack = j.stack
  env : Alike N i.env j.env

/-- The functions and the converter read and write the dictionary at the names of `N`
only, or not at all. -/
structure Lang.Reads (L : Lang F W) (N : Bytes → Prop) : Prop where
  call : ∀ fn args e e', Alike N e e' → Emit.Both (Alike N) (L.call fn args e) (L.call fn args e')
  convertAtom : ∀ s e e', Alike N e e' → Emit.Both (Alike N) (L.convertAtom s e) (L.convertAtom s e')

section

variable {N : Bytes → Prop} {e e' : Env F W}

/-! ## Expressions -/

theorem lookup_value (env : Env F W) (name : Bytes) : (env.lookup name).1 = env.valueOf name := by
  unfold Env.lookup Env.valueOf
  cases env.dict[name]? <;> rfl

/-- Dictionaries to which null entries are added keep their values. -/
theorem Filled.valueOf {names : List Bytes} (h : Filled e.dict names e'.dict) (name : Bytes) :
    e'.valueOf name = e.valueOf name := by
  unfold Env.valueOf
  rw [h name]
  cases e.dict[name]? with
  | some p => rfl
  | none => split <;> rfl

theorem lookup_alike (h : Alike N e e') (name : Bytes) :
    Alike N (e.lookup name).2 (e'.lookup name).2 where
  world := by
    have hsame : ∀ env : Env F W, (env.lookup name).2.world = env.world := by
      intro env
      unfold Env.lookup
      cases env.dict[name]? <;> rfl
    rw [hsame, hsame, h.world]
  names := by
    intro k hk
    rw [(lookup_filled e name).valueOf, (lookup_filled e' name).valueOf, h.names k hk]

mutual

theorem Expr.doEval_alike : ∀ (p : Expr F) {e e' : Env F W}, Alike N e e' →
    (∀ name ∈ p.symbols, N name) →
      (p.doEval e).1 = (p.doEval e').1 ∧ Alike N (p.doEval e).2 (p.doEval e').2
  | .symbol s, e, e', h, hN => by
    have hs : N s := hN s (List.mem_singleton.mpr rfl)
    refine ⟨?_, lookup_alike h s⟩
    show (e.lookup s).1 = (e'.lookup s).1
    rw [lookup_value, lookup_value, h.names s hs]
  | .list items, e, e', h, hN => by
    obtain ⟨hitems, henv⟩ := evalList_alike items h hN
    unfold Expr.doEval
    refine ⟨?_, henv⟩
    show some (Expr.list (evalList e items).1) = some (Expr.list (evalList e' items).1)
    rw [hitems]
  | .basic _ _, _, _, h, _ => ⟨rfl, h⟩
  | .nil, _, _, h, _ => ⟨rfl, h⟩
  | .integer _, _, _, h, _ => ⟨rfl, h⟩
  | .real _, _, _, h, _ => ⟨rfl, h⟩
  | .lambda _ _, _, _, h, _ => ⟨rfl, h⟩
  | .object _, _, _, h, _ => ⟨rfl, h⟩

/-- **One expression.** -/
theorem eval_alike : ∀ (p : ExprPtr F) {e e' : Env F W}, Alike N e e' →
    (∀ name ∈ symbols p, N name) →
      (eval e p).1 = (eval e' p).1 ∧ Alike N (eval e p).2 (eval e' p).2
  | some p, _, _, h, hN => Expr.doEval_alike p h hN
  | none, _, _, h, _ => ⟨rfl, h⟩

theorem evalList_alike : ∀ (ps : ExprList F) {e e' : Env F W}, Alike N e e' →
    (∀ name ∈ symbolsList ps, N name) →
      (evalList e ps).1 = (evalList e' ps).1 ∧ Alike N (evalList e ps).2 (evalList e' ps).2
  | [], _, _, h, _ => ⟨rfl, h⟩
  | p :: ps, e, e', h, hN => by
    obtain ⟨hp, henv⟩ := eval_alike p h fun name hname => hN name (List.mem_append_left _ hname)
    obtain ⟨hps, henv'⟩ :=
      evalList_alike ps henv fun name hname => hN name (List.mem_append_right _ hname)
    unfold evalList
    refine ⟨?_, henv'⟩
    show (eval e p).1 :: (evalList (eval e p).2 ps).1 =
      (eval e' p).1 :: (evalList (eval e' p).2 ps).1
    rw [hp, hps]

end

/-! ## Callbacks -/

variable {i j : Interpreter F W}

theorem modifyTop_alike (h : AlikeIn N i j) (f : ExprList F → ExprList F) :
    Emit.Both (AlikeIn N) (Interpreter.modifyTop f i) (Interpreter.modifyTop f j) := by
  obtain ⟨ei, si⟩ := i
  obtain ⟨ej, sj⟩ := j
  obtain rfl : si = sj := h.stack
  cases si with
  | nil => exact .error h
  | cons t ts => exact .ok ⟨rfl, h.env⟩

theorem pop_alike (h : AlikeIn N i j) :
    Emit.Both (AlikeIn N) (Interpreter.pop i) (Interpreter.pop j) := by
  obtain ⟨ei, si⟩ := i
  obtain ⟨ej, sj⟩ := j
  obtain rfl : si = sj := h.stack
  cases si with
  | nil => exact .error h
  | cons t ts => exact .ok ⟨rfl, h.env⟩

/-- Code from outside. -/
theorem foreign_alike {x : EStateM Exn (Env F W) (ExprPtr F)} (out : Exn → Exn)
    (hx : ∀ e e', Alike N e e' → Emit.Both (Alike N) (x e) (x e')) (h : AlikeIn N i j) :
    Emit.Both (AlikeIn N) (Interpreter.foreign x out i) (Interpreter.foreign x out j) := by
  have hone := hx i.env j.env h.env
  unfold Interpreter.foreign
  generalize x i.env = r at hone
  generalize x j.env = q at hone
  cases hone with
  | ok henv => exact .ok ⟨h.stack, henv⟩
  | error henv => exact .error ⟨h.stack, henv⟩

variable {L : Lang F W}

/-- What a function or the converter answers it answers in the environment. -/
theorem foreign_ok {x : EStateM Exn (Env F W) (ExprPtr F)} {out : Exn → Exn} {v : ExprPtr F}
    {i' : Interpreter F W} (h : Interpreter.foreign x out i = .ok v i') :
    x i.env = .ok v i'.env ∧ i'.stack = i.stack := by
  unfold Interpreter.foreign at h
  cases hx : x i.env with
  | ok a env =>
    rw [hx] at h
    injection h with hv hi
    rw [← hv, ← hi]
    exact ⟨rfl, rfl⟩
  | error a env =>
    rw [hx] at h
    cases h

theorem pushBack_alike (h : AlikeIn N i j) (v : ExprPtr F) :
    Emit.Both (AlikeIn N) (Interpreter.pushBack v i) (Interpreter.pushBack v j) :=
  modifyTop_alike h _

theorem onAtom_alike (hL : L.Reads N) (s : Bytes) (h : AlikeIn N i j)
    (hN : ∀ name ∈ evaluated L i (.onAtom s), N name) :
    Emit.Both (AlikeIn N) (Interpreter.onAtom L s i) (Interpreter.onAtom L s j) := by
  refine Emit.Both.bind (foreign_alike id (hL.convertAtom s) h) fun v i' j' hrun h' => ?_
  have hnames : ∀ name ∈ symbols v, N name := by
    have hconvert : L.convertAtom s i.env = .ok v i'.env := (foreign_ok hrun).1
    revert hN
    simp only [evaluated]
    cases hans : L.convertAtom s i.env with
    | ok v' env =>
      rw [hans] at hconvert
      injection hconvert with hv
      rw [← hv]
      exact fun hN => hN
    | error e env =>
      rw [hans] at hconvert
      cases hconvert
  obtain ⟨hv, henv⟩ := eval_alike v h'.env hnames
  have hpushed : AlikeIn N ⟨(eval i'.env v).2, i'.stack⟩ ⟨(eval j'.env v).2, j'.stack⟩ :=
    ⟨h'.stack, henv⟩
  show Emit.Both (AlikeIn N)
    (Interpreter.pushBack (eval i'.env v).1 ⟨(eval i'.env v).2, i'.stack⟩)
    (Interpreter.pushBack (eval j'.env v).1 ⟨(eval j'.env v).2, j'.stack⟩)
  rw [← hv]
  exact pushBack_alike hpushed _

/-- The call of a function, once its arguments are evaluated. -/
theorem called_alike (hL : L.Reads N) (fn : F) (args : ExprList F) (h : AlikeIn N i j) :
    Emit.Both (AlikeIn N)
      ((Interpreter.foreign (L.call fn args) sliced >>= fun res => do
        Interpreter.pop; Interpreter.pushBack res : Interpreter.M F W Unit) i)
      ((Interpreter.foreign (L.call fn args) sliced >>= fun res => do
        Interpreter.pop; Interpreter.pushBack res : Interpreter.M F W Unit) j) := by
  refine Emit.Both.bind (foreign_alike sliced (hL.call fn args) h) fun res i' j' _ h' => ?_
  exact Emit.Both.bind (pop_alike h') fun _ i'' j'' _ h'' => pushBack_alike h'' res

theorem onListEnd_alike (hL : L.Reads N) (h : AlikeIn N i j)
    (hN : ∀ name ∈ evaluated L i .onListEnd, N name) :
    Emit.Both (AlikeIn N) (Interpreter.onListEnd L i) (Interpreter.onListEnd L j) := by
  obtain ⟨ei, si⟩ := i
  obtain ⟨ej, sj⟩ := j
  obtain rfl : si = sj := h.stack
  have henv : Alike N ei ej := h.env
  cases si with
  | nil => exact .error h
  | cons t ts =>
    cases t with
    | nil => exact .error h
    | cons expr rest =>
      unfold evaluated at hN
      dsimp only at hN
      obtain ⟨hhead, henv'⟩ := eval_alike expr henv fun name hname =>
        hN name (List.mem_append_left _ hname)
      have hitems := fun name hname => hN name (List.mem_append_right _ hname)
      rw [Interpreter.onListEnd_head, Interpreter.onListEnd_head, ← hhead]
      generalize eval ei expr = r at hitems henv' ⊢
      generalize (eval ej expr).2 = ej' at henv' ⊢
      obtain ⟨p, ei'⟩ := r
      cases p with
      | none => exact .error ⟨rfl, henv'⟩
      | some p =>
        dsimp only at hitems henv' ⊢
        by_cases hfn : p.type = .function
        · -- the head is a function, so the other items are evaluated
          rw [if_pos hfn] at hitems
          rw [if_neg (not_not_intro hfn)]
          obtain ⟨hargs, henv''⟩ := evalList_alike rest henv' hitems
          cases p with
          | lambda name fn =>
            have hrest : AlikeIn N ⟨(evalList ei' rest).2, rest :: ts⟩
              ⟨(evalList ej' rest).2, rest :: ts⟩ := ⟨rfl, henv''⟩
            show Emit.Both (AlikeIn N)
              ((Interpreter.foreign (L.call fn (evalList ei' rest).1) sliced >>= fun res => do
                Interpreter.pop; Interpreter.pushBack res : Interpreter.M F W Unit) _)
              ((Interpreter.foreign (L.call fn (evalList ej' rest).1) sliced >>= fun res => do
                Interpreter.pop; Interpreter.pushBack res : Interpreter.M F W Unit) _)
            rw [← hargs]
            exact called_alike hL fn _ hrest
          | _ => exact .error ⟨rfl, henv''⟩
        · rw [if_pos hfn]
          exact .error ⟨rfl, henv'⟩

theorem onListBegin_alike (h : AlikeIn N i j) :
    Emit.Both (AlikeIn N) (Interpreter.onListBegin i) (Interpreter.onListBegin j) :=
  .ok ⟨congrArg (List.cons []) h.stack, h.env⟩

/-- **One callback.** -/
theorem on_alike (hL : L.Reads N) (w : Callback) (h : AlikeIn N i j)
    (hN : ∀ name ∈ evaluated L i w, N name) :
    Emit.Both (AlikeIn N) ((Interpreter.handler L).on w i) ((Interpreter.handler L).on w j) := by
  cases w with
  | onListBegin => exact onListBegin_alike h
  | onListEnd => exact onListEnd_alike hL h hN
  | onString s => exact pushBack_alike h (mkString s)
  | onAtom s => exact onAtom_alike hL s h hN
  | onComment s => exact .ok h
  | onEof => exact .ok h

theorem listen_alike (hL : L.Reads N) (w : Callback) (i j : Interpreter F W) (h : AlikeIn N i j)
    (hN : ∀ name ∈ evaluated L i w, N name) :
    Emit.Both (AlikeIn N) ((Interpreter.handler L).listen w i)
      ((Interpreter.handler L).listen w j) := by
  have hone := on_alike hL w h hN
  unfold Handler.listen
  generalize (Interpreter.handler L).on w i = r at hone
  generalize (Interpreter.handler L).on w j = q at hone
  cases hone with
  | ok h' => exact .ok h'
  | error h' => exact .error h'

end

/-! ## Whole runs -/

section

variable {ε η : Type} {h : Handler ε η} {P : Callback → η → Prop}

/-- What holds of each recorded call holds at each event that is delivered. -/
theorem delivered_of_log : ∀ (ws : List Callback) (s : η) (log : List (Callback × η)), ∃ cs,
    (left (Emit.deliver (h.watch id).listen ws (s, log))).2 = log ++ cs ∧
      ((∀ c ∈ cs, P c.1 c.2) → Emit.Delivered h.listen P ws s)
  | [], s, log => ⟨[], (List.append_nil _).symm, fun _ => trivial⟩
  | w :: ws, s, log => by
    rw [Emit.deliver_cons, listen_watch]
    unfold Emit.Delivered
    cases h.listen w s with
    | ok u s' =>
      obtain ⟨cs, hlog, hcs⟩ := delivered_of_log ws s' (log ++ [(w, s)])
      refine ⟨(w, s) :: cs, hlog.trans (List.append_assoc log [(w, s)] cs), fun hall => ?_⟩
      exact ⟨hall (w, s) List.mem_cons_self, hcs fun c hc => hall c (List.mem_cons_of_mem _ hc)⟩
    | error e s' =>
      exact ⟨[(w, s)], rfl, fun hall => ⟨hall (w, s) List.mem_cons_self, trivial⟩⟩

theorem delivered_of_calls {sg : CharSign} {src : Bytes} {s₀ : η}
    (hall : ∀ c ∈ callsOf h id sg src s₀, P c.1 c.2) :
    Emit.Delivered h.listen P (Lexer.scan sg src).events s₀ := by
  obtain ⟨cs, hlog, hcs⟩ := @delivered_of_log _ _ h P (Lexer.scan sg src).events s₀ []
  rw [← left_parse] at hlog
  have hcalls : callsOf h id sg src s₀ = cs := hlog
  rw [hcalls] at hall
  exact hcs hall

end

variable {L : Lang F W} {N : Bytes → Prop}

/-- **A run reads no more than the names it evaluates.** Take two interpreters with the
same frames over environments that agree on all names that the first evaluates while it
reads a text, and functions that read no other names. Then the second ends as the first
does, with the same frames, and the environments still agree. -/
theorem parse_alike (hL : L.Reads N) (sg : CharSign) (src : Bytes) {i j : Interpreter F W}
    (h : AlikeIn N i j) (hN : ∀ c ∈ calls L sg src i, ∀ name ∈ evaluated L c.2 c.1, N name) :
    Emit.Both (AlikeIn N) (parse (Interpreter.handler L) sg src i)
      (parse (Interpreter.handler L) sg src j) := by
  rw [parse_eq_play]
  exact Emit.play_both Fault.error (listen_alike hL) _ h (delivered_of_calls hN)

/-- **The null entries that evaluation adds are never seen.** With functions that leave the
dictionary alone and do not ask whether a name is bound: a text read after another one,
whatever became of that, is read as if the dictionary were the one before it. -/
theorem null_entries_unseen (hL : L.Reads fun _ => True) (hkeeps : L.KeepsDict) (sg : CharSign)
    (src next : Bytes) (i : Interpreter F W) (frames : List (ExprList F)) :
    let env := (left (parse (Interpreter.handler L) sg src i)).env
    Emit.Both (AlikeIn fun _ => True)
      (parse (Interpreter.handler L) sg next ⟨env, frames⟩)
      (parse (Interpreter.handler L) sg next ⟨⟨i.env.dict, env.world⟩, frames⟩) := by
  intro env
  have hfilled : Filled i.env.dict _ env.dict := parse_filled hkeeps sg src i
  refine parse_alike hL sg next ⟨rfl, rfl, fun name _ => ?_⟩ fun _ _ _ _ => trivial
  exact @Filled.valueOf _ _ ⟨i.env.dict, env.world⟩ env _ hfilled name

/-! ## Functions that do not look at the dictionary -/

/-- Functions that read and write only `world`, with the default converter, read no
names. -/
theorem withDefault_reads {answer : F → ExprList F → W → ExprPtr F × W} (N : Bytes → Prop) :
    (Lang.withDefault fun fn args env =>
      .ok (answer fn args env.world).1 { env with world := (answer fn args env.world).2 }).Reads N where
  call := by
    intro fn args e e' h
    have hanswer : answer fn args e.world = answer fn args e'.world := congrArg _ h.world
    show Emit.Both (Alike N) (.ok (answer fn args e.world).1 _) (.ok (answer fn args e'.world).1 _)
    rw [hanswer]
    exact .ok ⟨rfl, h.names⟩
  convertAtom := fun _ _ _ h => .ok h

/-- One function, which returns its first argument and counts its calls. -/
def counted : Lang Unit Nat := Lang.withDefault fun _ args env =>
  .ok (args.headD none) { env with world := env.world + 1 }

theorem counted_reads (N : Bytes → Prop) : counted.Reads N :=
  @withDefault_reads Unit Nat (fun _ args n => (args.headD none, n + 1)) N

theorem noFunctions_reads (N : Bytes → Prop) : noFunctions.Reads N where
  call := fun fn => nomatch fn
  convertAtom := fun _ _ _ h => .ok h

/-- `f` is the function and `x` a string. -/
def bindsFX : Std.ExtTreeMap Bytes (ExprPtr Unit) :=
  ((∅ : Std.ExtTreeMap Bytes (ExprPtr Unit)).insert (ascii "f") (some (.lambda [] ()))).insert
    (ascii "x") (mkString (ascii "v"))

/-- The same, and `y` is whatever `y` is. -/
def bindsY (y : ExprPtr Unit) : Env Unit Nat := ⟨bindsFX.insert (ascii "y") y, 0⟩

theorem bindsY_alike (y y' : ExprPtr Unit) :
    Alike (fun name => name ≠ ascii "y") (bindsY y) (bindsY y') where
  world := rfl
  names := by
    intro name hname
    have hother : ∀ v, (bindsFX.insert (ascii "y") v)[name]? = bindsFX[name]? := by
      intro v
      rw [Std.ExtTreeMap.getElem?_insert]
      exact if_neg fun heq => hname (Std.LawfulEqCmp.eq_of_compare heq).symm
    show ((bindsFX.insert (ascii "y") y)[name]?).join = ((bindsFX.insert (ascii "y") y')[name]?).join
    rw [hother, hother]

theorem evaluated_fxz : ∀ c ∈ calls counted .signed (ascii "(f x z)")
    (Interpreter.create (bindsY none)), ∀ name ∈ evaluated counted c.2 c.1, name ≠ ascii "y" := by
  decide +kernel

/-- What is bound to `y` does not matter to `(f x z)`. -/
theorem parse_alike_counted :
    Emit.Both (AlikeIn fun name => name ≠ ascii "y")
      (parse (Interpreter.handler counted) .signed (ascii "(f x z)")
        (Interpreter.create (bindsY none)))
      (parse (Interpreter.handler counted) .signed (ascii "(f x z)")
        (Interpreter.create (bindsY mkNil))) :=
  parse_alike (counted_reads _) .signed (ascii "(f x z)")
    (show AlikeIn _ (Interpreter.create (bindsY none)) (Interpreter.create (bindsY mkNil)) from
      ⟨rfl, bindsY_alike none mkNil⟩) evaluated_fxz

theorem null_entries_unseen_demo :
    Emit.Both (AlikeIn fun _ => True)
      (parse (Interpreter.handler noFunctions) .signed (ascii "x")
        ⟨(left (parse (Interpreter.handler noFunctions) .signed (ascii "x")
          (Interpreter.create ⟨∅, ()⟩))).env, [[]]⟩)
      (parse (Interpreter.handler noFunctions) .signed (ascii "x")
        ⟨⟨(Interpreter.create (⟨∅, ()⟩ : Env Empty Unit)).env.dict, ()⟩, [[]]⟩) :=
  null_entries_unseen (noFunctions_reads _) noFunctions_keepsDict .signed (ascii "x") (ascii "x")
    (Interpreter.create ⟨∅, ()⟩) [[]]

end Cor.Notlisp

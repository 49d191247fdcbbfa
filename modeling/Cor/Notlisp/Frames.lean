import Cor.Lib.Run
import Cor.Notlisp.Interpreter
import Cor.Sexp.Visits

/-!
# The frame stack never underflows

The parser counts the open lists in `level`, the interpreter keeps a frame for each
of them. The two change at different moments, a callback may throw between them,
and the next `parse` on the same interpreter starts with `level` zero on whatever
frames the failed one left.

`Framed` is the joint invariant at a point of a run: the frames are the ones the
run started on and one for each open list. `on_adds` is what one callback does to
the number of frames, `framed_of_visits` carries the invariant along a run, and
`frames_never_underflow` is the result for every run of a session, a sequence of
calls of `parse` on one interpreter.
-/

namespace Cor.Notlisp

open Sexp

variable {F W : Type} (L : Lang F W)

namespace Interpreter

/-- `stack.size()`. -/
def frames (i : Interpreter F W) : Nat := i.stack.length

/-- The frames a call needs: `on_list_end` takes one off and adds to the next. -/
def needs : Callback → Nat
  | .onListEnd => 2
  | _ => 1

/-- The outcome of a callback that found `n` frames: it adds `d` of them, or it throws
and leaves as many. -/
def Adds (n : Nat) (d : Int) : EStateM.Result Abort (Interpreter F W) Unit → Prop
  | .ok () i' => (i'.frames : Int) = n + d
  | .error a i' => a ≠ .emptyStack ∧ i'.frames = n

theorem pushBack_adds (p : ExprPtr F) (env : Env F W) (t : ExprList F) (ts : List (ExprList F)) :
    Adds (ts.length + 1) 0 (pushBack p ⟨env, t :: ts⟩) := by
  show ((((t ++ [p]) :: ts).length : Nat) : Int) = (ts.length + 1 : Nat) + 0
  rw [List.length_cons, Int.add_zero]

theorem onAtom_adds (s : Bytes) (env : Env F W) (t : ExprList F) (ts : List (ExprList F)) :
    Adds (ts.length + 1) 0 (onAtom L s ⟨env, t :: ts⟩) := by
  show Adds _ _ ((foreign (L.convertAtom s) id >>= fun v => evalPtr v >>= pushBack) _)
  rw [Lib.Emit.bind_apply]
  unfold foreign
  dsimp only
  cases L.convertAtom s env with
  | ok v env' => exact pushBack_adds (eval env' v).1 (eval env' v).2 t ts
  | error e env' =>
    refine ⟨?_, rfl⟩
    intro h
    exact nomatch h

theorem gotNull_ne (expr : ExprPtr F) : gotNull expr ≠ .emptyStack := by
  intro h
  cases expr with
  | none => exact nomatch h
  | some e => exact nomatch h

theorem onListEnd_adds (env : Env F W) (t u : ExprList F) (ts : List (ExprList F)) :
    Adds (ts.length + 2) (-1) (onListEnd L ⟨env, t :: u :: ts⟩) := by
  have hthrow : ∀ (a : Abort) (i : Interpreter F W), a ≠ .emptyStack → i.frames = ts.length + 2 →
      Adds (ts.length + 2) (-1) (.error a i) := fun a i ha hi => ⟨ha, hi⟩
  rw [onListEnd_run]
  cases t with
  | nil => exact hthrow _ _ (fun h => nomatch h) rfl
  | cons expr rest =>
    dsimp only
    obtain ⟨p, env₁⟩ := eval env expr
    cases p with
    | none => exact hthrow _ _ (gotNull_ne expr) rfl
    | some p =>
      dsimp only
      by_cases hfn : p.type ≠ .function
      · rw [if_pos hfn]
        exact hthrow _ _ (fun h => nomatch h) rfl
      rw [if_neg hfn]
      cases p with
      | lambda name fn =>
        dsimp only
        cases L.call fn (evalList env₁ rest).1 (evalList env₁ rest).2 with
        | ok res env₂ =>
          show ((((u ++ [res]) :: ts).length : Nat) : Int) = (ts.length + 2 : Nat) + (-1 : Int)
          rw [List.length_cons]
          omega
        | error e env₂ => exact hthrow _ _ (fun h => nomatch h) rfl
      | _ => exact hthrow _ _ (fun h => nomatch h) rfl

/-- **One callback and the frames.** With the frames it needs a callback never meets
an empty stack. -/
theorem on_adds (w : Callback) {i : Interpreter F W} (hi : needs w ≤ i.frames) :
    Adds i.frames w.opened ((handler L).on w i) := by
  obtain ⟨env, stack⟩ := i
  cases stack with
  | nil => cases w <;> exact absurd hi (Nat.not_succ_le_zero _)
  | cons t ts =>
    cases w with
    | onListBegin => rfl
    | onListEnd =>
      cases ts with
      | nil => exact absurd (Nat.le_of_succ_le_succ hi) (Nat.not_succ_le_zero _)
      | cons u ts => exact onListEnd_adds L env t u ts
    | onComment s => exact (Int.add_zero _).symm
    | onString s => exact pushBack_adds (mkString s) env t ts
    | onAtom s => exact onAtom_adds L s env t ts
    | onEof => exact (Int.add_zero _).symm

end Interpreter

/-! ## One run of `parse` -/

section

open Interpreter (handler frames needs Adds on_adds)

/-- The interpreter with a record of the callbacks and of the frames each found. -/
def watched : Handler Abort (Interpreter F W × List (Callback × Nat)) := (handler L).watch frames

/-- Every recorded callback found `base` frames and one for each list that was open
then, and `on_list_end` had a list to close. -/
def Counted (base : Nat) (log : List (Callback × Nat)) : Prop :=
  ∀ (pre : List (Callback × Nat)) (w : Callback) (n : Nat) (post : List (Callback × Nat)),
    log = pre ++ (w, n) :: post →
      0 ≤ opens pre ∧ (n : Int) = base + opens pre ∧ (w = .onListEnd → 1 ≤ opens pre)

theorem Counted.snoc {base : Nat} {log : List (Callback × Nat)} (h : Counted base log)
    {w : Callback} {n : Nat} (hpos : 0 ≤ opens log) (hn : (n : Int) = base + opens log)
    (hend : w = .onListEnd → 1 ≤ opens log) : Counted base (log ++ [(w, n)]) := by
  intro pre w' n' post hlog
  rcases List.eq_nil_or_concat post with rfl | ⟨post', e, rfl⟩
  · obtain ⟨rfl, hw⟩ := List.append_inj' hlog rfl
    obtain ⟨rfl, rfl⟩ := Prod.mk.inj (List.cons.inj hw).1
    exact ⟨hpos, hn, hend⟩
  · rw [List.concat_eq_append, ← List.cons_append, ← List.append_assoc] at hlog
    exact h pre w' n' post' (List.append_inj' hlog rfl).1

/-- The joint invariant: the frames the run started on, and one for each open list. -/
structure Framed (base : Nat) (st : Interpreter F W × List (Callback × Nat)) : Prop where
  frames : (st.1.frames : Int) = base + opens st.2
  opened : 0 ≤ opens st.2
  counted : Counted base st.2

variable {L} {base : Nat} {st st' : Interpreter F W × List (Callback × Nat)}

theorem Framed.pos (hf : Framed base st) (hbase : 1 ≤ base) : 1 ≤ st.1.frames := by
  have hframes := hf.frames
  have hopened := hf.opened
  omega

/-- A callback with the list it needs has the frames it needs. -/
theorem Framed.needs (hf : Framed base st) (hbase : 1 ≤ base) {w : Callback}
    (hend : w = .onListEnd → 1 ≤ opens st.2) : needs w ≤ st.1.frames := by
  have hframes := hf.frames
  cases w with
  | onListEnd =>
    have hopen := hend rfl
    show 2 ≤ _
    omega
  | _ => exact hf.pos hbase

/-- A callback that returns. -/
theorem Framed.call (hf : Framed base st) (hbase : 1 ≤ base) {w : Callback}
    (hend : w = .onListEnd → 1 ≤ opens st.2) (hcall : (watched L).on w st = .ok () st') :
    Framed base st' := by
  obtain ⟨hok, hlog⟩ := watch_ok hcall
  have hadds := on_adds L w (hf.needs hbase hend)
  rw [hok] at hadds
  have hadds' : (st'.1.frames : Int) = st.1.frames + w.opened := hadds
  have hframes := hf.frames
  have hopened := hf.opened
  refine ⟨?_, ?_, ?_⟩
  · rw [hlog, opens_snoc]
    omega
  · rw [hlog, opens_snoc]
    cases w with
    | onListEnd =>
      have hopen := hend rfl
      show 0 ≤ _ + (-1 : Int)
      omega
    | onListBegin =>
      show 0 ≤ _ + (1 : Int)
      omega
    | _ => exact (Int.add_zero _).symm ▸ hopened
  · rw [hlog]
    exact hf.counted.snoc hopened hframes hend

/-- A callback that throws. -/
theorem Framed.call_error (hf : Framed base st) (hbase : 1 ≤ base) {w : Callback} {a : Abort}
    (hend : w = .onListEnd → 1 ≤ opens st.2) (hcall : (watched L).on w st = .error a st') :
    a ≠ .emptyStack ∧ 1 ≤ st'.1.frames ∧ Counted base st'.2 := by
  obtain ⟨herr, hlog⟩ := watch_error hcall
  have hadds := on_adds L w (hf.needs hbase hend)
  rw [herr] at hadds
  obtain ⟨hne, hsame⟩ : a ≠ .emptyStack ∧ st'.1.frames = st.1.frames := hadds
  refine ⟨hne, ?_, ?_⟩
  · rw [hsame]
    exact hf.pos hbase
  · rw [hlog]
    exact hf.counted.snoc hf.opened hf.frames hend

/-- A rule that returns. -/
theorem Framed.rule (hf : Framed base st) (hbase : 1 ≤ base) {c : Int} {m m' : Machine}
    {a : Action} (hlevel : (m.level.toNat : Int) = opens st.2)
    (hrun : applyRule (watched L) c (m, st) = .ok a (m', st')) : Framed base st' := by
  rcases applyRule_ok hrun with ⟨hs, -⟩ | ⟨w, hw, hs, -⟩ | ⟨-, -, -, hs, -⟩ | ⟨-, -, h0, hs, -⟩
  · rw [hs]
    exact hf
  · refine hf.call hbase (fun hend => ?_) hs
    rw [hend] at hw
    exact absurd hw (by decide)
  · refine hf.call (w := .onListBegin) hbase (fun hend => ?_) hs
    exact nomatch hend
  · refine hf.call (w := .onListEnd) hbase (fun _ => ?_) hs
    have hpred := toNat_pred h0
    omega

/-- A rule that throws. -/
theorem Framed.rule_error (hf : Framed base st) (hbase : 1 ≤ base) {c : Int} {m m' : Machine}
    {e : Fault Abort} (hlevel : (m.level.toNat : Int) = opens st.2)
    (hrun : applyRule (watched L) c (m, st) = .error e (m', st')) :
    e ≠ .handler .emptyStack ∧ 1 ≤ st'.1.frames ∧ Counted base st'.2 := by
  rcases applyRule_error hrun with ⟨w, a, he, hs, hend⟩ | ⟨hs, he, -⟩ | ⟨hs, hne, -⟩
  · have hopen : w = .onListEnd → 1 ≤ opens st.2 := by
      intro hw
      have hpred := toNat_pred (hend hw).2.2
      omega
    obtain ⟨hempty, hrest⟩ := hf.call_error hbase hopen hs
    refine ⟨fun h => hempty ?_, hrest⟩
    rw [he] at h
    exact Fault.handler.inj h
  · rw [hs, he]
    exact ⟨fun h => (nomatch h), hf.pos hbase, hf.counted⟩
  · rw [hs]
    exact ⟨hne _, hf.pos hbase, hf.counted⟩

variable {sg : CharSign} {src : Bytes} {i₀ : Interpreter F W}

/-- **The invariant along a run.** -/
theorem framed_of_visits (hbase : 1 ≤ i₀.frames) (hfit : LevelFits (handler L) sg src i₀)
    {p : Point} {st : Machine × (Interpreter F W × List (Callback × Nat))}
    (hv : Visits (watched L) sg src (i₀, []) p st) : Framed i₀.frames st.2 := by
  induction hv with
  | start =>
    refine ⟨(Int.add_zero _).symm, Int.le_refl 0, fun pre w n post hlog => ?_⟩
    exact absurd hlog (by simp)
  | get hprev ih => exact ih
  | stay hprev hstay ih => exact ih.rule hbase (hprev.level_eq hfit) hstay
  | skip hprev hskip ih => exact ih.rule hbase (hprev.level_eq hfit) hskip
  | eos hprev ih => exact ih

/-- What a run of `parse` leaves, and how it does not end. -/
theorem parse_framed (hbase : 1 ≤ i₀.frames) (hfit : LevelFits (handler L) sg src i₀) :
    parse (watched L) sg src (i₀, []) ≠ .error (.handler .emptyStack)
        (left (parse (watched L) sg src (i₀, []))) ∧
      1 ≤ (left (parse (watched L) sg src (i₀, []))).1.frames ∧
      Counted i₀.frames (callsOf (handler L) frames sg src i₀) := by
  unfold callsOf
  show _ ∧ _ ∧ Counted i₀.frames (left (parse (watched L) sg src (i₀, []))).2
  have hstop : Stops (watched L) sg src (i₀, []) (parse (watched L) sg src (i₀, [])) := parse_stops
  revert hstop
  generalize parse (watched L) sg src (i₀, []) = r
  intro hstop
  cases hstop with
  | rule hv herr =>
    obtain ⟨hne, hrest⟩ := (framed_of_visits hbase hfit hv).rule_error hbase (hv.level_eq hfit) herr
    exact ⟨fun h => hne (by injection h), hrest⟩
  | last hv herr =>
    obtain ⟨hne, hrest⟩ := (framed_of_visits hbase hfit hv).rule_error hbase (hv.level_eq hfit) herr
    exact ⟨fun h => hne (by injection h), hrest⟩
  | @eof st a m' s' hv hok =>
    have hf := (framed_of_visits hbase hfit hv).rule hbase (hv.level_eq hfit) hok
    have heof : (watched L).on .onEof s' =
        .ok () (s'.1, s'.2 ++ [(.onEof, s'.1.frames)]) := rfl
    have hf' := hf.call (w := .onEof) hbase (fun h => nomatch h) heof
    have hlisten : (watched L).listen .onEof s' =
        .ok () (s'.1, s'.2 ++ [(.onEof, s'.1.frames)]) := rfl
    rw [hlisten]
    exact ⟨fun h => (nomatch h), hf'.pos hbase, hf'.counted⟩

/-! ## Closing parentheses -/

/-- Whether the list level is zero at a visited point. -/
theorem level_eq_zero_iff (hfit : LevelFits (handler L) sg src i₀) {p : Point}
    {st : Machine × (Interpreter F W × List (Callback × Nat))}
    (hv : Visits (watched L) sg src (i₀, []) p st) : st.1.level = 0 ↔ opens st.2.2 = 0 := by
  have hlevel := hv.level_eq hfit
  constructor
  · intro h0
    rw [h0] at hlevel
    exact hlevel.symm
  · intro hopen
    apply UInt32.toNat_inj.mp
    show _ = 0
    omega

/-- `top` meets a `)` with no list open: no call is made, and `parse` throws. -/
theorem unexpected_of_none (hfit : LevelFits (handler L) sg src i₀) {rest : Bytes}
    {st : Machine × (Interpreter F W × List (Callback × Nat))}
    (hv : Visits (watched L) sg src (i₀, []) (.apply (ord ')') rest) st)
    (hr : st.1.rule = .top) (hnone : opens st.2.2 = 0) :
    callsOf (handler L) frames sg src i₀ = st.2.2 ∧
      parse (handler L) sg src i₀ =
        .error (.error ⟨ascii "Unexpected ')'", st.1.tellg⟩) st.2.1 := by
  have h0 : st.1.level = 0 := (level_eq_zero_iff hfit hv).mpr hnone
  have hthrow : applyRule (watched L) (ord ')') st =
      .error (.error ⟨ascii "Unexpected ')'", st.1.tellg⟩) st := by
    rw [applyRule_top hr, top_close]
    unfold closeEffect
    rw [if_pos h0]
    rfl
  have hparse := hv.parse_error hthrow
  constructor
  · unfold callsOf
    show (left (parse (watched L) sg src (i₀, []))).2 = st.2.2
    rw [hparse]
    rfl
  · rw [← parse_watch (f := frames) i₀ []]
    show mapState Prod.fst (parse (watched L) sg src (i₀, [])) = _
    rw [hparse]
    rfl

/-- It meets one with a list open: `on_list_end` is called. -/
theorem onListEnd_of_open (hfit : LevelFits (handler L) sg src i₀) {rest : Bytes}
    {st : Machine × (Interpreter F W × List (Callback × Nat))}
    (hv : Visits (watched L) sg src (i₀, []) (.apply (ord ')') rest) st)
    (hr : st.1.rule = .top) (hopen : opens st.2.2 ≠ 0) :
    st.2.2 ++ [(.onListEnd, st.2.1.frames)] <+: callsOf (handler L) frames sg src i₀ := by
  have h0 : st.1.level ≠ 0 := fun h => hopen ((level_eq_zero_iff hfit hv).mp h)
  have hcalls := hv.rule_calls
  have hclose : (left (applyRule (watched L) (ord ')') st)).2.2 =
      st.2.2 ++ [(.onListEnd, st.2.1.frames)] := by
    rw [applyRule_top hr, top_close]
    unfold closeEffect
    rw [if_neg h0]
    exact calls_recorded _ _ _ _ st.2
  rw [← hclose]
  exact hcalls

/-- `parse` throws `Unexpected ')'` only there. -/
theorem none_of_unexpected (hfit : LevelFits (handler L) sg src i₀) {pos : Int}
    {i' : Interpreter F W}
    (hp : parse (handler L) sg src i₀ = .error (.error ⟨ascii "Unexpected ')'", pos⟩) i') :
    ∃ rest st, Visits (watched L) sg src (i₀, []) (.apply (ord ')') rest) st ∧
      st.1.rule = .top ∧ opens st.2.2 = 0 := by
  rw [← parse_watch (f := frames) i₀ []] at hp
  change mapState Prod.fst (parse (watched L) sg src (i₀, [])) = _ at hp
  have hstop : Stops (watched L) sg src (i₀, []) (parse (watched L) sg src (i₀, [])) := parse_stops
  revert hstop hp
  generalize parse (watched L) sg src (i₀, []) = r
  intro hp hstop
  have hrule : ∀ {c : Int} {st : Machine × (Interpreter F W × List (Callback × Nat))}
      {e : Fault Abort} {m' : Machine} {s' : Interpreter F W × List (Callback × Nat)},
      applyRule (watched L) c st = .error e (m', s') →
      mapState Prod.fst (.error e s' : EStateM.Result _ _ Unit) =
        .error (.error ⟨ascii "Unexpected ')'", pos⟩) i' →
      st.1.rule = .top ∧ c = ord ')' ∧ st.1.level = 0 := by
    intro c st e m' s' herr hres
    injection hres with he hs
    rcases applyRule_error herr with ⟨w, a, ha, -⟩ | ⟨-, -, hr, hc, h0⟩ | ⟨-, -, hne⟩
    · rw [ha] at he
      exact nomatch he
    · exact ⟨hr, hc, h0⟩
    · exact absurd he (hne pos)
  cases hstop with
  | @rule c rest st e m' s' hv herr =>
    obtain ⟨hr, rfl, h0⟩ := hrule herr hp
    exact ⟨rest, st, hv, hr, (level_eq_zero_iff hfit hv).mp h0⟩
  | last hv herr =>
    obtain ⟨-, hc, -⟩ := hrule herr hp
    exact absurd hc (by decide)
  | @eof st a m' s' hv hok => exact nomatch hp

end

/-! ## Sessions -/

open Interpreter (handler frames)

/-- What happens to an interpreter between its callbacks: a call of `parse`, or a
change of the environment it shares by whoever else holds it. -/
inductive Act (F W : Type) where
  | parse (src : Bytes)
  | setEnv (env : Env F W)

def Act.isParse : Act F W → Bool
  | .parse _ => true
  | .setEnv _ => false

/-- One of them; however `parse` ends, the interpreter is what it leaves. -/
def session (sg : CharSign) (i : Interpreter F W) : Act F W → Option (Interpreter F W)
  | .parse src => some (left (parse (handler L) sg src i))
  | .setEnv env => some { i with env := env }

/-- `level` does not wrap. -/
def Fits (sg : CharSign) (i : Interpreter F W) : Act F W → Prop
  | .parse src => LevelFits (handler L) sg src i
  | .setEnv _ => True

/-- What is safe in a call of `parse` on `i`; `first` says that it is the first. -/
structure FramesSafe (sg : CharSign) (i : Interpreter F W) (src : Bytes) (first : Prop) : Prop where
  /-- Every callback finds a frame for each open list and one more, `on_list_end` two. -/
  callbacks : ∀ (pre : List (Callback × Nat)) (w : Callback) (n : Nat)
    (post : List (Callback × Nat)), callsOf (handler L) frames sg src i = pre ++ (w, n) :: post →
      0 ≤ opens pre ∧ 1 + opens pre ≤ n ∧ (w = .onListEnd → 2 ≤ n) ∧ (first → n = 1 + opens pre)
  /-- A `)` that `top` meets with no list open makes `parse` throw, with no call. -/
  unexpected : ∀ (rest : Bytes) (m : Machine) (i' : Interpreter F W) (log : List (Callback × Nat)),
    Visits (watched L) sg src (i, []) (.apply (ord ')') rest) (m, (i', log)) → m.rule = .top →
      opens log = 0 → callsOf (handler L) frames sg src i = log ∧
        parse (handler L) sg src i = .error (.error ⟨ascii "Unexpected ')'", m.tellg⟩) i'
  /-- With a list open it makes `parse` call `on_list_end`. -/
  closing : ∀ (rest : Bytes) (m : Machine) (i' : Interpreter F W) (log : List (Callback × Nat)),
    Visits (watched L) sg src (i, []) (.apply (ord ')') rest) (m, (i', log)) → m.rule = .top →
      opens log ≠ 0 → log ++ [(.onListEnd, i'.frames)] <+: callsOf (handler L) frames sg src i
  /-- Nothing else makes `parse` throw that. -/
  only : ∀ (pos : Int) (i' : Interpreter F W),
    parse (handler L) sg src i = .error (.error ⟨ascii "Unexpected ')'", pos⟩) i' →
      ∃ rest m i₁ log, Visits (watched L) sg src (i, []) (.apply (ord ')') rest) (m, (i₁, log)) ∧
        m.rule = .top ∧ opens log = 0
  /-- No callback takes the top of an empty stack, and none pops one. -/
  nonempty : ∀ i', parse (handler L) sg src i ≠ .error (.handler .emptyStack) i'
  /-- There are results, before and after. -/
  results : (∃ vs, i.results = .ok vs) ∧
    ∃ vs, (left (parse (handler L) sg src i)).results = .ok vs

theorem results_of_frames {i : Interpreter F W} (hi : 1 ≤ i.frames) : ∃ vs, i.results = .ok vs := by
  obtain ⟨env, stack⟩ := i
  cases stack with
  | nil => exact absurd hi (Nat.not_succ_le_zero 0)
  | cons t ts => exact ⟨t, rfl⟩

/-- What is left by the watched run is left by the run. -/
theorem left_watched (sg : CharSign) (src : Bytes) (i : Interpreter F W) :
    left (parse (handler L) sg src i) = (left (parse (watched L) sg src (i, []))).1 := by
  rw [← parse_watch (f := frames) i []]
  show left (mapState Prod.fst (parse (watched L) sg src (i, []))) = _
  cases parse (watched L) sg src (i, []) <;> rfl

/-- A session never takes the last frame away. -/
theorem session_frames {sg : CharSign} {acts : List (Act F W)} {i i' : Interpreter F W}
    (hrun : Lib.run (session L sg) i acts = some i')
    (hfits : Lib.Along (session L sg) (Fits L sg) i acts) (hi : 1 ≤ i.frames) : 1 ≤ i'.frames := by
  refine Lib.run_inv_along (I := fun i => 1 ≤ i.frames) ?_ acts hrun hfits hi
  intro i a i' hi hfit hstep
  cases a with
  | parse src =>
    obtain rfl := Option.some.inj hstep
    rw [left_watched]
    exact (parse_framed hi hfit).2.1
  | setEnv env =>
    obtain rfl := Option.some.inj hstep
    exact hi

/-- Without a call of `parse` the stack is as it was made. -/
theorem session_first {sg : CharSign} {acts : List (Act F W)} {i i' : Interpreter F W}
    (hrun : Lib.run (session L sg) i acts = some i') (hfirst : ∀ a ∈ acts, a.isParse = false) :
    i'.frames = i.frames := by
  induction acts generalizing i with
  | nil =>
    obtain rfl := Option.some.inj hrun
    rfl
  | cons a acts ih =>
    obtain ⟨i₁, hstep, hrest⟩ := Lib.run_cons_some.mp hrun
    have hsame : i₁.frames = i.frames := by
      cases a with
      | parse src => exact absurd (hfirst _ List.mem_cons_self) (by simp [Act.isParse])
      | setEnv env =>
        obtain rfl := Option.some.inj hstep
        rfl
    rw [ih hrest fun b hb => hfirst b (List.mem_cons_of_mem _ hb), hsame]

/-- **The frame stack never underflows**: in no call of `parse` of a session on an
interpreter in which `level` does not wrap. -/
theorem frames_never_underflow (sg : CharSign) (env : Env F W) (acts : List (Act F W))
    (i : Interpreter F W) (src : Bytes)
    (hrun : Lib.run (session L sg) (Interpreter.create env) acts = some i)
    (hfits : Lib.Along (session L sg) (Fits L sg) (Interpreter.create env) (acts ++ [.parse src])) :
    FramesSafe L sg i src (∀ a ∈ acts, a.isParse = false) := by
  obtain ⟨hbefore, hnow⟩ := (Lib.along_append acts hrun).mp hfits
  have hfit : LevelFits (handler L) sg src i := hnow.1
  have hi : 1 ≤ i.frames := session_frames L hrun hbefore (Nat.le_refl 1)
  obtain ⟨hne, hleft, hcounted⟩ := parse_framed hi hfit
  refine ⟨?_, ?_, ?_, ?_, ?_, ?_, ?_⟩
  · intro pre w n post hcalls
    obtain ⟨hopen, hn, hend⟩ := hcounted pre w n post hcalls
    refine ⟨hopen, by omega, fun hw => ?_, fun hfirst => ?_⟩
    · have hlist := hend hw
      omega
    · have hone : i.frames = 1 := session_first L hrun hfirst
      omega
  · intro rest m i' log hv hr hnone
    exact unexpected_of_none hfit hv hr hnone
  · intro rest m i' log hv hr hopen
    exact onListEnd_of_open hfit hv hr hopen
  · intro pos i' hp
    obtain ⟨rest, ⟨m, i₁, log⟩, hv, hr, hnone⟩ := none_of_unexpected hfit hp
    exact ⟨rest, m, i₁, log, hv, hr, hnone⟩
  · intro i' hp
    rw [← parse_watch (f := frames) i []] at hp
    change mapState Prod.fst (parse (watched L) sg src (i, [])) = _ at hp
    cases hrun' : parse (watched L) sg src (i, []) with
    | ok u st =>
      rw [hrun'] at hp
      exact nomatch hp
    | error e st =>
      rw [hrun'] at hp hne
      injection hp with he hs
      rw [he] at hne
      exact hne rfl
  · exact results_of_frames hi
  · rw [left_watched]
    exact results_of_frames hleft

/-- After `(` has left a frame, `)` is still one too many. -/
theorem frames_never_underflow_demo :
    FramesSafe (Lang.withDefault fun (f : Empty) _ => nomatch f) .signed
      (left (parse (handler (Lang.withDefault fun (f : Empty) _ => nomatch f)) .signed (ascii "(")
        (Interpreter.create ⟨∅, ()⟩))) (ascii ")")
      (∀ a ∈ [Act.parse (ascii "(")], Act.isParse (a : Act Empty Unit) = false) :=
  frames_never_underflow _ .signed ⟨∅, ()⟩ [.parse (ascii "(")] _ (ascii ")") rfl
    ⟨levelFits_of_length (by decide),
      fun i hi => ⟨levelFits_of_length (by decide), fun _ _ => trivial⟩⟩

end Cor.Notlisp

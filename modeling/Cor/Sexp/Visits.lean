import Cor.Sexp.Refine

/-!
# The states of a run of `parse`

`Visits` is the small-step reading of the main loop: the points a call of `parse`
passes through (before a `get`, before a rule is applied to a character, before
the rule is applied to the end of the input) with the locals and the state of the
handler there. What holds "at any moment of a run" is a statement about visited
states.

`ruleEffect` is what one application of a rule does, written without a monad
(`applyRule_run`), and `ruleEffect_of` the inversion lemma over it: what a rule can
call, and what it does to the list level. The run of `parse` passes through every
visited point (`Visits.run`) and ends at one of them (`parse_stops`), so what is
proved by induction on `Visits` holds all the way to the end.
-/

namespace Cor.Sexp

open Lib (Emit)

/-- A point of the main loop. -/
inductive Point where
  /-- before `src.get()`, with these characters left -/
  | next (rest : Bytes)
  /-- before `rule(c)`, with these characters left -/
  | apply (c : Int) (rest : Bytes)
  /-- before `rule(eos)` at the end of the input -/
  | last

section

variable {ε η : Type} (h : Handler ε η) (sg : CharSign)

/-- The points and states of a call of `parse` on `src`. -/
inductive Visits (src : Bytes) (s₀ : η) : Point → Machine × η → Prop
  | start : Visits src s₀ (.next src) (.start, s₀)
  | get {b : UInt8} {rest : Bytes} {m : Machine} {s : η} :
      Visits src s₀ (.next (b :: rest)) (m, s) →
      Visits src s₀ (.apply (sg.toInt b) rest) ({ m with tellg := m.tellg + 1 }, s)
  | stay {c : Int} {rest : Bytes} {st st' : Machine × η} : Visits src s₀ (.apply c rest) st →
      applyRule h c st = .ok .stay st' → Visits src s₀ (.apply c rest) st'
  | skip {c : Int} {rest : Bytes} {st st' : Machine × η} : Visits src s₀ (.apply c rest) st →
      applyRule h c st = .ok .skip st' → Visits src s₀ (.next rest) st'
  | eos {m : Machine} {s : η} : Visits src s₀ (.next []) (m, s) →
      Visits src s₀ .last ({ m with tellg := -1 }, s)

end

/-! ## One application of a rule -/

/-- What applying a rule does, whatever the handler: it makes at most one call.
During the call the locals are `m₁`, after it `m'`. -/
inductive Effect where
  | quiet (a : Action) (m' : Machine)
  | calls (w : Callback) (m₁ m' : Machine) (a : Action)
  | fails (e : Error) (m' : Machine)
  /-- a return to an empty stack -/
  | undefined (m' : Machine)

/-- The effect with a handler. -/
def Effect.run {ε η : Type} (h : Handler ε η) (s : η) :
    Effect → EStateM.Result (Fault ε) (Machine × η) Action
  | quiet a m' => .ok a (m', s)
  | calls w m₁ m' a =>
    match h.on w s with
    | .ok () s' => .ok a (m', s')
    | .error e s' => .error (.handler e) (m₁, s')
  | fails e m' => .error (.error e) (m', s)
  | undefined m' => .error .undefined (m', s)

/-- What a call adds to the number of open lists. -/
def Callback.opened : Callback → Int
  | .onListBegin => 1
  | .onListEnd => -1
  | _ => 0

/-- What the effect of a rule on `c` with the locals `m` can be. Only `top` touches
the list level, and only `top` reports a `)` too many. -/
inductive Effect.Of (c : Int) (m : Machine) : Effect → Prop
  | quiet {a : Action} {m' : Machine} (hl : m'.level = m.level) : Of c m (.quiet a m')
  | token {w : Callback} {m₁ m' : Machine} {a : Action} (hw : w.opened = 0)
      (hl : m'.level = m.level) : Of c m (.calls w m₁ m' a)
  | opened {m₁ m' : Machine} (hr : m.rule = .top) (hc : c = ord '(')
      (hl : m'.level = m.level + 1) : Of c m (.calls .onListBegin m₁ m' .skip)
  | closed {m₁ m' : Machine} (hr : m.rule = .top) (hc : c = ord ')') (h0 : m.level ≠ 0)
      (hl : m'.level = m.level - 1) : Of c m (.calls .onListEnd m₁ m' .skip)
  | unexpected (hr : m.rule = .top) (hc : c = ord ')') (h0 : m.level = 0) :
      Of c m (.fails ⟨ascii "Unexpected ')'", m.tellg⟩ m)
  | failed {info : Bytes} {pos : Int} {m' : Machine} (hinfo : info ≠ ascii "Unexpected ')'") :
      Of c m (.fails ⟨info, pos⟩ m')
  | undefined {m' : Machine} : Of c m (.undefined m')

/-! ### The effect of each rule -/

/-- `top` on a closing parenthesis. -/
def closeEffect (m : Machine) : Effect :=
  if m.level = 0 then .fails ⟨ascii "Unexpected ')'", m.tellg⟩ m
  else .calls .onListEnd { m with level := m.level - 1 } { m with level := m.level - 1 } .skip

def topEffect (c : Int) (m : Machine) : Effect :=
  if c = ord ')' then closeEffect m
  else if c = ord '(' then
    .calls .onListBegin { m with level := m.level + 1 } { m with level := m.level + 1 } .skip
  else if c = ord ';' then .quiet .skip { m with data := [], rule := .inComment }
  else if isspace c then .quiet .skip m
  else if c = ord '"' then .quiet .skip { m with data := [], rule := .inString }
  else if c ≠ eos then .quiet .stay { m with data := [], rule := .inAtom }
  else .quiet .skip m

/-- The call that delivers a token or a comment, and the return to `top`. -/
def deliverEffect (w : Callback) (a : Action) (m : Machine) : Effect :=
  .calls w m { m with data := [], rule := .top } a

/-- The backslash of a token. -/
def escapeEffect (m : Machine) : Effect :=
  .quiet .skip { m with ctx := m.rule :: m.ctx, rule := .appendEscaped }

/-- The return to the rule on the stack. -/
def popEffect (a : Action) (m : Machine) : Effect :=
  match m.ctx with
  | [] => .undefined m
  | p :: ctx => .quiet a { m with ctx := ctx, rule := p }

def commentEffect (c : Int) (m : Machine) : Effect :=
  if c ≠ ord '\n' ∧ c ≠ eos then .quiet .skip { m with data := m.data ++ [toChar c] }
  else deliverEffect (.onComment m.data) .skip m

def atomEffect (c : Int) (m : Machine) : Effect :=
  if isBound c ∨ isspace c ∨ c = eos then deliverEffect (.onAtom m.data) .stay m
  else if c = ord '\\' then escapeEffect m
  else .quiet .skip { m with data := m.data ++ [toChar c] }

def stringEffect (c : Int) (m : Machine) : Effect :=
  if c = ord '"' then deliverEffect (.onString m.data) .skip m
  else if c = ord '\\' then escapeEffect m
  else if c = eos then .fails ⟨ascii "string is not limited, got EOS", m.tellg⟩ m
  else .quiet .skip { m with data := m.data ++ [toChar c] }

def hexEffect (c : Int) (m : Machine) : Effect :=
  if c = eos ∨ char2hex c < 0 then popEffect .stay m
  else if m.hexByte < 0 then .quiet .skip { m with hexByte := char2hex c <<< (4 : Nat) }
  else popEffect .stay { m with hexByte := Int.lor m.hexByte (char2hex c) }

def escapedHexEffect (m : Machine) : Effect :=
  if m.hexByte < 0 then .fails ⟨ascii "Escaped hex is empty", m.tellg⟩ m
  else popEffect .stay { m with data := m.data ++ [toChar m.hexByte] }

def escapedEffect (c : Int) (m : Machine) : Effect :=
  if c = eos then .fails ⟨ascii "Expected escaped symbol, got EOS", m.tellg⟩ m
  else if c = ord 'x' then
    .quiet .skip { m with hexByte := -1, ctx := .appendEscapedHex :: m.ctx, rule := .inHex }
  else popEffect .skip { m with data := m.data ++ [(assoc (toChar c)).getD (toChar c)] }

/-- The effect of the current rule. -/
def ruleEffect (c : Int) (m : Machine) : Effect :=
  match m.rule with
  | .top => topEffect c m
  | .inString => stringEffect c m
  | .inAtom => atomEffect c m
  | .inComment => commentEffect c m
  | .inHex => hexEffect c m
  | .appendEscaped => escapedEffect c m
  | .appendEscapedHex => escapedHexEffect m

section

variable {ε η : Type} {h : Handler ε η} {c : Int} {m : Machine} {s : η}

/-- A call, and then only changes of the locals. -/
theorem call_effect (w : Callback) {a : Action} {k : Unit → RuleM ε η Action} {m₁ m' : Machine}
    (hk : ∀ s', k () (m₁, s') = .ok a (m', s')) :
    (call (h.on w) >>= k) (m₁, s) = (Effect.calls w m₁ m' a).run h s := by
  rw [Emit.bind_apply, call_run]
  unfold Effect.run
  simp only
  cases h.on w s with
  | ok u s' => exact hk s'
  | error e s' => rfl

theorem rulePop_run (a : Action) (m : Machine) :
    (do rulePop; pure a : RuleM ε η Action) (m, s) = (popEffect a m).run h s := by
  obtain ⟨rule, ctx, level, data, hexByte, tellg⟩ := m
  cases ctx with
  | nil => rfl
  | cons p ctx => rfl

theorem top_close (h : Handler ε η) (s : η) :
    top h (ord ')') (m, s) = (closeEffect m).run h s := by
  unfold top closeEffect
  rw [if_pos rfl]
  show (if m.level = 0 then _ else _ : RuleM ε η Action) (m, s) = _
  by_cases h0 : m.level = 0
  · rw [if_pos h0, if_pos h0]
    rfl
  · rw [if_neg h0, if_neg h0]
    exact call_effect .onListEnd fun s' => rfl

theorem applyRule_top {st : Machine × η} (hr : st.1.rule = .top) :
    applyRule h c st = top h c st := by
  obtain ⟨⟨rule, ctx, level, data, hexByte, tellg⟩, s⟩ := st
  obtain rfl : rule = .top := hr
  rfl

theorem top_run : top h c (m, s) = (topEffect c m).run h s := by
  by_cases hclose : c = ord ')'
  · subst hclose
    exact top_close h s
  unfold top topEffect
  rw [if_neg hclose, if_neg hclose]
  by_cases hopen : c = ord '('
  · rw [if_pos hopen, if_pos hopen]
    exact call_effect .onListBegin fun s' => rfl
  -- the other characters only change the rule
  rw [if_neg hopen, if_neg hopen]
  split_ifs <;> rfl

theorem inComment_run : inComment h c (m, s) = (commentEffect c m).run h s := by
  unfold inComment commentEffect
  split_ifs
  · rfl
  · exact call_effect (.onComment m.data) fun s' => rfl

theorem inAtom_run : inAtom h c (m, s) = (atomEffect c m).run h s := by
  unfold inAtom atomEffect
  split_ifs
  · exact call_effect (.onAtom m.data) fun s' => rfl
  · rfl
  · rfl

theorem inString_run : inString h c (m, s) = (stringEffect c m).run h s := by
  unfold inString stringEffect
  split_ifs
  · exact call_effect (.onString m.data) fun s' => rfl
  · rfl
  · rfl
  · rfl

theorem inHex_run : inHex c (m, s) = (hexEffect c m).run h s := by
  unfold inHex hexEffect
  by_cases heos : c = eos
  · rw [if_neg (by simpa using heos), if_pos (Or.inl heos)]
    exact rulePop_run .stay m
  rw [if_pos heos]
  by_cases hdigit : char2hex c ≥ 0
  · have hread : ¬ (c = eos ∨ char2hex c < 0) := by
      rintro (heq | hneg)
      · exact heos heq
      · omega
    rw [if_neg hread]
    show (if char2hex c ≥ 0 then _ else _ : RuleM ε η Action) (m, s) = _
    rw [if_pos hdigit, Emit.bind_apply]
    show (if m.hexByte < 0 then _ else _ : RuleM ε η Action) (m, s) = _
    by_cases hfirst : m.hexByte < 0
    · rw [if_pos hfirst, if_pos hfirst]
      rfl
    · rw [if_neg hfirst, if_neg hfirst]
      exact rulePop_run .stay _
  · have hend : c = eos ∨ char2hex c < 0 := Or.inr (by omega)
    rw [if_pos hend]
    show (if char2hex c ≥ 0 then _ else _ : RuleM ε η Action) (m, s) = _
    rw [if_neg hdigit]
    exact rulePop_run .stay m

theorem appendEscapedHex_run : appendEscapedHex (m, s) = (escapedHexEffect m).run h s := by
  unfold appendEscapedHex escapedHexEffect
  rw [Emit.bind_apply]
  show (if m.hexByte < 0 then _ else _ : RuleM ε η Action) (m, s) = _
  by_cases hnone : m.hexByte < 0
  · rw [if_pos hnone, if_pos hnone]
    rfl
  · rw [if_neg hnone, if_neg hnone]
    exact rulePop_run .stay { m with data := m.data ++ [toChar m.hexByte] }

theorem appendEscaped_run : appendEscaped c (m, s) = (escapedEffect c m).run h s := by
  unfold appendEscaped escapedEffect
  by_cases heos : c = eos
  · rw [if_pos heos, if_pos heos]
    rfl
  rw [if_neg heos, if_neg heos]
  by_cases hx : c = ord 'x'
  · rw [if_pos hx, if_pos hx]
    rfl
  rw [if_neg hx, if_neg hx]
  cases assoc (toChar c) with
  | none => exact rulePop_run .skip { m with data := m.data ++ [toChar c] }
  | some p => exact rulePop_run .skip { m with data := m.data ++ [p] }

/-- **One application of a rule**, with every handler. -/
theorem applyRule_run : applyRule h c (m, s) = (ruleEffect c m).run h s := by
  obtain ⟨rule, ctx, level, data, hexByte, tellg⟩ := m
  cases rule with
  | top => exact top_run
  | inString => exact inString_run
  | inAtom => exact inAtom_run
  | inComment => exact inComment_run
  | inHex => exact inHex_run
  | appendEscaped => exact appendEscaped_run
  | appendEscapedHex => exact appendEscapedHex_run

end

/-! ### What an effect can be -/

section

variable {c : Int} {m m' : Machine}

theorem popEffect_of {a : Action} (hl : m'.level = m.level) : Effect.Of c m (popEffect a m') := by
  unfold popEffect
  cases m'.ctx with
  | nil => exact .undefined
  | cons p ctx => exact .quiet hl

theorem closeEffect_of (hr : m.rule = .top) : Effect.Of (ord ')') m (closeEffect m) := by
  unfold closeEffect
  split_ifs with h0
  · exact .unexpected hr rfl h0
  · exact .closed hr rfl h0 rfl

theorem ruleEffect_of (c : Int) (m : Machine) : Effect.Of c m (ruleEffect c m) := by
  unfold ruleEffect
  cases hr : m.rule with
  | top =>
    show Effect.Of c m (topEffect c m)
    unfold topEffect
    split_ifs with hclose hopen
    · subst hclose
      exact closeEffect_of hr
    · exact .opened hr hopen rfl
    · exact .quiet rfl
    · exact .quiet rfl
    · exact .quiet rfl
    · exact .quiet rfl
    · exact .quiet rfl
  | inString =>
    show Effect.Of c m (stringEffect c m)
    unfold stringEffect
    split_ifs
    · exact .token rfl rfl
    · exact .quiet rfl
    · exact .failed (by decide)
    · exact .quiet rfl
  | inAtom =>
    show Effect.Of c m (atomEffect c m)
    unfold atomEffect
    split_ifs
    · exact .token rfl rfl
    · exact .quiet rfl
    · exact .quiet rfl
  | inComment =>
    show Effect.Of c m (commentEffect c m)
    unfold commentEffect
    split_ifs
    · exact .quiet rfl
    · exact .token rfl rfl
  | inHex =>
    show Effect.Of c m (hexEffect c m)
    unfold hexEffect
    split_ifs
    · exact popEffect_of rfl
    · exact .quiet rfl
    · exact popEffect_of rfl
  | appendEscaped =>
    show Effect.Of c m (escapedEffect c m)
    unfold escapedEffect
    split_ifs
    · exact .failed (by decide)
    · exact .quiet rfl
    · exact popEffect_of rfl
  | appendEscapedHex =>
    show Effect.Of c m (escapedHexEffect m)
    unfold escapedHexEffect
    split_ifs
    · exact .failed (by decide)
    · exact popEffect_of rfl

/-- What one application of a rule can do. -/
theorem applyRule_effect (c : Int) (m : Machine) : ∃ x, Effect.Of c m x ∧
    ∀ {ε η : Type} (h : Handler ε η) (s : η), applyRule h c (m, s) = x.run h s :=
  ⟨ruleEffect c m, ruleEffect_of c m, fun _ _ => applyRule_run⟩

end

section

variable {ε η : Type} {h : Handler ε η} {c : Int} {m m' : Machine} {s s' : η}

/-- What a rule that returns has done. -/
theorem applyRule_ok {a : Action} (hrun : applyRule h c (m, s) = .ok a (m', s')) :
    (s' = s ∧ m'.level = m.level) ∨
    (∃ w, w.opened = 0 ∧ h.on w s = .ok () s' ∧ m'.level = m.level) ∨
    (m.rule = .top ∧ c = ord '(' ∧ a = .skip ∧ h.on .onListBegin s = .ok () s' ∧
      m'.level = m.level + 1) ∨
    (m.rule = .top ∧ c = ord ')' ∧ m.level ≠ 0 ∧ h.on .onListEnd s = .ok () s' ∧
      m'.level = m.level - 1) := by
  obtain ⟨x, hx, heff⟩ := applyRule_effect c m
  rw [heff h s] at hrun
  have hcall : ∀ {w : Callback} {m₁ m₂ : Machine} {b : Action},
      (Effect.calls w m₁ m₂ b).run h s = .ok a (m', s') →
        h.on w s = .ok () s' ∧ b = a ∧ m₂ = m' := by
    intro w m₁ m₂ b hok
    unfold Effect.run at hok
    simp only at hok
    cases hs : h.on w s with
    | ok u s₁ =>
      rw [hs] at hok
      injection hok with ha hst
      injection hst with hm hs'
      exact ⟨by rw [hs'], ha, hm⟩
    | error e s₁ =>
      rw [hs] at hok
      exact nomatch hok
  cases hx with
  | quiet hl =>
    injection hrun with ha hst
    injection hst with hm hs
    exact .inl ⟨hs.symm, hm ▸ hl⟩
  | @token w m₁ m₂ b hw hl =>
    obtain ⟨hs, -, rfl⟩ := hcall hrun
    exact .inr (.inl ⟨w, hw, hs, hl⟩)
  | opened hr hc hl =>
    obtain ⟨hs, rfl, rfl⟩ := hcall hrun
    exact .inr (.inr (.inl ⟨hr, hc, rfl, hs, hl⟩))
  | closed hr hc h0 hl =>
    obtain ⟨hs, -, rfl⟩ := hcall hrun
    exact .inr (.inr (.inr ⟨hr, hc, h0, hs, hl⟩))
  | unexpected => exact nomatch hrun
  | failed => exact nomatch hrun
  | undefined => exact nomatch hrun

/-- What a rule that throws has done. -/
theorem applyRule_error {e : Fault ε} (hrun : applyRule h c (m, s) = .error e (m', s')) :
    (∃ w e', e = .handler e' ∧ h.on w s = .error e' s' ∧
      (w = .onListEnd → m.rule = .top ∧ c = ord ')' ∧ m.level ≠ 0)) ∨
    (s' = s ∧ e = .error ⟨ascii "Unexpected ')'", m.tellg⟩ ∧
      m.rule = .top ∧ c = ord ')' ∧ m.level = 0) ∨
    (s' = s ∧ (∀ e', e ≠ .handler e') ∧ ∀ pos, e ≠ .error ⟨ascii "Unexpected ')'", pos⟩) := by
  obtain ⟨x, hx, heff⟩ := applyRule_effect c m
  rw [heff h s] at hrun
  have hcall : ∀ {w : Callback} {m₁ m₂ : Machine} {b : Action},
      (Effect.calls w m₁ m₂ b).run h s = .error e (m', s') →
        ∃ e', e = .handler e' ∧ h.on w s = .error e' s' := by
    intro w m₁ m₂ b herr
    unfold Effect.run at herr
    simp only at herr
    cases hs : h.on w s with
    | ok u s₁ =>
      rw [hs] at herr
      exact nomatch herr
    | error e' s₁ =>
      rw [hs] at herr
      injection herr with he hst
      injection hst with hm hs'
      exact ⟨e', he.symm, by rw [hs']⟩
  cases hx with
  | quiet => exact nomatch hrun
  | @token w m₁ m₂ b hw hl =>
    obtain ⟨e', he, hs⟩ := hcall hrun
    refine .inl ⟨w, e', he, hs, fun hend => ?_⟩
    rw [hend] at hw
    exact absurd hw (by decide)
  | opened hr hc hl =>
    obtain ⟨e', he, hs⟩ := hcall hrun
    exact .inl ⟨_, e', he, hs, fun hend => nomatch hend⟩
  | closed hr hc h0 hl =>
    obtain ⟨e', he, hs⟩ := hcall hrun
    exact .inl ⟨_, e', he, hs, fun _ => ⟨hr, hc, h0⟩⟩
  | unexpected hr hc h0 =>
    injection hrun with he hst
    injection hst with hm hs
    exact .inr (.inl ⟨hs.symm, he.symm, hr, hc, h0⟩)
  | failed hinfo =>
    injection hrun with he hst
    injection hst with hm hs
    subst he
    refine .inr (.inr ⟨hs.symm, fun e' he' => (nomatch he'), fun pos hpos => hinfo ?_⟩)
    exact congrArg Error.info (Fault.error.inj hpos)
  | undefined =>
    injection hrun with he hst
    injection hst with hm hs
    subst he
    exact .inr (.inr ⟨hs.symm, fun e' he' => (nomatch he'), fun pos hpos => nomatch hpos⟩)

end

/-! ## The run -/

section

variable {ε η : Type} {h : Handler ε η} {sg : CharSign} {src : Bytes} {s₀ : η}

/-- `parse` never reads an empty stack and is never stuck. -/
theorem parse_error_cases {e : Fault ε} {s : η} (hp : parse h sg src s₀ = .error e s) :
    (∃ e', e = .error e') ∨ ∃ e', e = .handler e' := by
  rw [parse_eq_play] at hp
  rcases Emit.play_error_cases h.listen Fault.error hp with ⟨w, s₁, hw⟩ | ⟨e', he⟩
  · refine .inr ?_
    unfold Handler.listen at hw
    cases hon : h.on w s₁ with
    | ok u s₂ =>
      rw [hon] at hw
      exact absurd hw (by simp)
    | error e' s₂ =>
      rw [hon] at hw
      injection hw with he
      exact ⟨e', he.symm⟩
  · exact .inl ⟨e', he⟩

/-- What is left to do at a point; `n` applications are left for the character. -/
def Point.run (h : Handler ε η) (sg : CharSign) (n : Nat) : Point → RuleM ε η Unit
  | .next rest => loop h sg rest
  | .apply c rest => do
    dispatch h c n
    loop h sg rest
  | .last => do
    let _ ← applyRule h eos
    call h.onEof

theorem parse_error_of_loop {e : Fault ε} {st : Machine × η}
    (hl : loop h sg src (.start, s₀) = .error e st) : parse h sg src s₀ = .error e st.2 := by
  unfold parse resume
  rw [hl]

theorem loop_not_stuck (st : Machine × η) : loop h sg src (.start, s₀) ≠ .error .stuck st := by
  intro hl
  rcases parse_error_cases (parse_error_of_loop hl) with ⟨e, he⟩ | ⟨e, he⟩ <;> exact nomatch he

/-- **The run of `parse` passes through every point it visits.** -/
theorem Visits.run {p : Point} {st : Machine × η} (hv : Visits h sg src s₀ p st) :
    ∃ n, loop h sg src (.start, s₀) = p.run h sg (n + 1) st := by
  -- the application after the last one allowed would make `parse` stuck
  have hmore : ∀ {c : Int} {rest : Bytes} {n : Nat} {st : Machine × η},
      loop h sg src (.start, s₀) = (Point.apply c rest).run h sg n st → ∃ k, n = k + 1 := by
    intro c rest n st hl
    cases n with
    | zero => exact absurd (hl.trans (Emit.bind_apply _ _ _)) (loop_not_stuck st)
    | succ k => exact ⟨k, rfl⟩
  induction hv with
  | start => exact ⟨0, rfl⟩
  | @get b rest m s hprev ih =>
    obtain ⟨n, ih⟩ := ih
    refine ⟨3, ih.trans ?_⟩
    show (feed h sg b >>= fun _ => loop h sg rest) (m, s) = (dispatch h (sg.toInt b) 4 >>= _) _
    rw [Emit.bind_apply, Emit.bind_apply]
    rfl
  | stay hprev hstay ih =>
    obtain ⟨n, ih⟩ := ih
    have hrun := ih.trans (show _ = (Point.apply _ _).run h sg n _ by
      show (dispatch h _ (n + 1) >>= _) _ = (dispatch h _ n >>= _) _
      rw [Emit.bind_apply, Emit.bind_apply, dispatch_stay h hstay])
    obtain ⟨k, rfl⟩ := hmore hrun
    exact ⟨k, hrun⟩
  | skip hprev hskip ih =>
    obtain ⟨n, ih⟩ := ih
    refine ⟨0, ih.trans ?_⟩
    show (dispatch h _ (n + 1) >>= _) _ = _
    rw [Emit.bind_apply, dispatch_skip h hskip]
    rfl
  | eos hprev ih =>
    obtain ⟨n, ih⟩ := ih
    exact ⟨0, ih⟩

/-- An error of a rule at a visited point is how `parse` ends. -/
theorem Visits.parse_error {c : Int} {rest : Bytes} {st st' : Machine × η} {e : Fault ε}
    (hv : Visits h sg src s₀ (.apply c rest) st) (herr : applyRule h c st = .error e st') :
    parse h sg src s₀ = .error e st'.2 := by
  obtain ⟨n, hrun⟩ := hv.run
  refine parse_error_of_loop (hrun.trans ?_)
  show (dispatch h c (n + 1) >>= _) st = _
  rw [Emit.bind_apply, dispatch_error h herr]

/-- How a run ends: a rule fails, or `on_eof` is called after the last rule. -/
inductive Stops (h : Handler ε η) (sg : CharSign) (src : Bytes) (s₀ : η) :
    EStateM.Result (Fault ε) η Unit → Prop
  | rule {c : Int} {rest : Bytes} {st : Machine × η} {e : Fault ε} {m' : Machine} {s' : η}
      (hv : Visits h sg src s₀ (.apply c rest) st) (herr : applyRule h c st = .error e (m', s')) :
      Stops h sg src s₀ (.error e s')
  | last {st : Machine × η} {e : Fault ε} {m' : Machine} {s' : η}
      (hv : Visits h sg src s₀ .last st) (herr : applyRule h eos st = .error e (m', s')) :
      Stops h sg src s₀ (.error e s')
  | eof {st : Machine × η} {a : Action} {m' : Machine} {s' : η}
      (hv : Visits h sg src s₀ .last st) (hok : applyRule h eos st = .ok a (m', s')) :
      Stops h sg src s₀ (h.listen .onEof s')

/-- The applications for one character. -/
theorem dispatch_stops {c : Int} {rest : Bytes} : ∀ (n : Nat) {st : Machine × η},
    Visits h sg src s₀ (.apply c rest) st → match dispatch h c n st with
      | .ok () st' => Visits h sg src s₀ (.next rest) st'
      | .error e st' => e = .stuck ∨ Stops h sg src s₀ (.error e st'.2)
  | 0, st, _ => .inl rfl
  | n + 1, st, hv => by
    cases hrun : applyRule h c st with
    | ok a st' =>
      cases a with
      | stay =>
        rw [dispatch_stay h hrun]
        exact dispatch_stops n (hv.stay hrun)
      | skip =>
        rw [dispatch_skip h hrun]
        exact hv.skip hrun
    | error e st' =>
      rw [dispatch_error h hrun]
      exact .inr (.rule hv hrun)

theorem loop_stops : ∀ (rest : Bytes) {st : Machine × η}, Visits h sg src s₀ (.next rest) st →
    Stops h sg src s₀ (match loop h sg rest st with
      | .ok () st' => .ok () st'.2
      | .error e st' => .error e st'.2)
  | [], (m, s), hv => by
    have hlast := hv.eos
    show Stops h sg src s₀ (match (applyRule h eos >>= fun _ => call h.onEof)
      ({ m with tellg := -1 }, s) with | .ok () st' => _ | .error e st' => _)
    rw [Emit.bind_apply]
    cases hrun : applyRule h eos ({ m with tellg := -1 }, s) with
    | ok a st' =>
      have heof := Stops.eof hlast hrun
      show Stops h sg src s₀ (match call h.onEof st' with | .ok () st' => _ | .error e st' => _)
      unfold Handler.listen at heof
      rw [call_run]
      change Stops h sg src s₀ (match h.onEof st'.2 with
        | .ok () s' => _ | .error e s' => _) at heof
      cases hs : h.onEof st'.2 with
      | ok u s' =>
        rw [hs] at heof
        exact heof
      | error e s' =>
        rw [hs] at heof
        exact heof
    | error e st' => exact .last hlast hrun
  | b :: rest, (m, s), hv => by
    have hchar := dispatch_stops 4 hv.get
    show Stops h sg src s₀ (match (feed h sg b >>= fun _ => loop h sg rest) (m, s) with
      | .ok () st' => _ | .error e st' => _)
    rw [Emit.bind_apply]
    have hfeed : feed h sg b (m, s) =
        dispatch h (sg.toInt b) 4 ({ m with tellg := m.tellg + 1 }, s) := rfl
    rw [hfeed]
    cases hrun : dispatch h (sg.toInt b) 4 ({ m with tellg := m.tellg + 1 }, s) with
    | ok u st' =>
      rw [hrun] at hchar
      exact loop_stops rest hchar
    | error e st' =>
      rw [hrun] at hchar
      rcases hchar with rfl | hstop
      · obtain ⟨n, hloop⟩ := hv.run
        refine absurd (hloop.trans ?_) (loop_not_stuck st')
        show (feed h sg b >>= fun _ => loop h sg rest) (m, s) = _
        rw [Emit.bind_apply, hfeed, hrun]
      · exact hstop

/-- **How `parse` ends.** -/
theorem parse_stops : Stops h sg src s₀ (parse h sg src s₀) := by
  have hstop := loop_stops src (.start : Visits h sg src s₀ (.next src) (.start, s₀))
  unfold parse resume
  cases hrun : loop h sg src (.start, s₀) with
  | ok u st' =>
    rw [hrun] at hstop
    exact hstop
  | error e st' =>
    rw [hrun] at hstop
    exact hstop

end

/-! ## The calls so far -/

section

variable {ε η β : Type}

/-- A call that is recorded, with what `f` reads off the state it is made in. -/
def Handler.logged (h : Handler ε η) (f : η → β) (w : Callback) :
    EStateM ε (η × List (Callback × β)) Unit := fun (s, log) =>
  match h.on w s with
  | .ok () s' => .ok () (s', log ++ [(w, f s)])
  | .error e s' => .error e (s', log ++ [(w, f s)])

/-- The handler `h` with a record of its calls. -/
def Handler.watch (h : Handler ε η) (f : η → β) : Handler ε (η × List (Callback × β)) where
  onListBegin := h.logged f .onListBegin
  onListEnd := h.logged f .onListEnd
  onComment s := h.logged f (.onComment s)
  onString s := h.logged f (.onString s)
  onAtom s := h.logged f (.onAtom s)
  onEof := h.logged f .onEof

/-- The number of lists that the calls have opened and not closed. -/
def opens (log : List (Callback × β)) : Int :=
  (log.map Prod.fst).count .onListBegin - (log.map Prod.fst).count .onListEnd

variable {h : Handler ε η} {f : η → β} {sg : CharSign} {src : Bytes} {s₀ : η}

theorem watch_on (w : Callback) : (h.watch f).on w = h.logged f w := by
  cases w <;> rfl

theorem opens_snoc (log : List (Callback × β)) (w : Callback) (x : β) :
    opens (log ++ [(w, x)]) = opens log + w.opened := by
  unfold opens
  cases w <;> simp [List.count_append, Callback.opened] <;> omega

/-- A result with another state. -/
def mapState {δ σ τ α : Type} (g : σ → τ) : EStateM.Result δ σ α → EStateM.Result δ τ α
  | .ok a s => .ok a (g s)
  | .error e s => .error e (g s)

theorem listen_watch (w : Callback) (s : η) (log : List (Callback × β)) :
    (h.watch f).listen w (s, log) = match h.listen w s with
      | .ok () s' => .ok () (s', log ++ [(w, f s)])
      | .error e s' => .error e (s', log ++ [(w, f s)]) := by
  unfold Handler.listen
  rw [watch_on]
  unfold Handler.logged
  simp only
  cases h.on w s <;> rfl

theorem deliver_watch : ∀ (ws : List Callback) (s : η) (log : List (Callback × β)),
    mapState Prod.fst (Emit.deliver (h.watch f).listen ws (s, log)) = Emit.deliver h.listen ws s
  | [], s, log => rfl
  | w :: ws, s, log => by
    rw [Emit.deliver_cons, Emit.deliver_cons, listen_watch]
    cases h.listen w s with
    | ok u s' => exact deliver_watch ws s' _
    | error e s' => rfl

/-- **Watching changes nothing.** -/
theorem parse_watch (s : η) (log : List (Callback × β)) :
    mapState Prod.fst (parse (h.watch f) sg src (s, log)) = parse h sg src s := by
  rw [parse_eq_play, parse_eq_play]
  have hcalls := deliver_watch (h := h) (f := f) (Lexer.scan sg src).events s log
  unfold Handler.play
  rw [Emit.play_apply, Emit.play_apply, ← hcalls]
  cases Emit.deliver (h.watch f).listen (Lexer.scan sg src).events (s, log) with
  | ok u st => cases (Lexer.scan sg src).result <;> rfl
  | error e st => rfl

/-- A rule does the same, and records its call. -/
theorem applyRule_watch (c : Int) (m : Machine) (s : η) (log : List (Callback × β)) :
    mapState (fun st => (st.1, st.2.1)) (applyRule (h.watch f) c (m, (s, log))) =
      applyRule h c (m, s) := by
  obtain ⟨x, -, hrun⟩ := applyRule_effect c m
  rw [hrun (h.watch f) (s, log), hrun h s]
  cases x with
  | quiet a m' => rfl
  | fails e m' => rfl
  | undefined m' => rfl
  | calls w m₁ m' a =>
    unfold Effect.run
    simp only [watch_on]
    unfold Handler.logged
    simp only
    cases h.on w s <;> rfl

/-- A watched run visits what the run visits. -/
theorem Visits.unwatch {log₀ : List (Callback × β)} {p : Point}
    {st : Machine × (η × List (Callback × β))} (hv : Visits (h.watch f) sg src (s₀, log₀) p st) :
    Visits h sg src s₀ p (st.1, st.2.1) := by
  induction hv with
  | start => exact .start
  | get hprev ih => exact ih.get
  | @stay c rest st st' hprev hstay ih =>
    refine ih.stay ?_
    rw [← applyRule_watch (f := f) c st.1 st.2.1 st.2.2]
    show mapState _ (applyRule (h.watch f) c st) = _
    rw [hstay]
    rfl
  | @skip c rest st st' hprev hskip ih =>
    refine ih.skip ?_
    rw [← applyRule_watch (f := f) c st.1 st.2.1 st.2.2]
    show mapState _ (applyRule (h.watch f) c st) = _
    rw [hskip]
    rfl
  | eos hprev ih => exact ih.eos

/-- The state a call leaves, whether it returns or not. -/
def left {δ σ α : Type} : EStateM.Result δ σ α → σ
  | .ok _ s => s
  | .error _ s => s

/-- The calls of `parse`, in order, with what `f` reads at each. -/
def callsOf (h : Handler ε η) (f : η → β) (sg : CharSign) (src : Bytes) (s₀ : η) :
    List (Callback × β) := (left (parse (h.watch f) sg src (s₀, []))).2

/-- What is run leaves a longer record. -/
def Grows {α : Type} (x : RuleM ε (η × List (Callback × β)) α) : Prop :=
  ∀ st, st.2.2 <+: (left (x st)).2.2

theorem Grows.bind {α γ : Type} {x : RuleM ε (η × List (Callback × β)) α}
    {k : α → RuleM ε (η × List (Callback × β)) γ} (hx : Grows x) (hk : ∀ a, Grows (k a)) :
    Grows (x >>= k) := by
  intro st
  have hfirst := hx st
  rw [Emit.bind_apply]
  cases hrun : x st with
  | ok a st' =>
    rw [hrun] at hfirst
    exact hfirst.trans (hk a st')
  | error e st' =>
    rw [hrun] at hfirst
    exact hfirst

theorem modifyLocals_grows (g : Machine → Machine) :
    Grows (modifyLocals g : RuleM ε (η × List (Callback × β)) Unit) :=
  fun _ => List.prefix_rfl

theorem call_grows (w : Callback) : Grows (call ((h.watch f).on w)) := by
  rintro ⟨m, s, log⟩
  rw [call_run, watch_on]
  unfold Handler.logged
  simp only
  cases h.on w s <;> exact List.prefix_append _ _

/-- The call of a rule is recorded. -/
theorem calls_recorded (w : Callback) (m₁ m' : Machine) (a : Action)
    (st : η × List (Callback × β)) :
    (left ((Effect.calls w m₁ m' a).run (h.watch f) st)).2.2 = st.2 ++ [(w, f st.1)] := by
  unfold Effect.run
  simp only [watch_on]
  unfold Handler.logged
  simp only
  cases h.on w st.1 <;> rfl

theorem applyRule_grows (c : Int) : Grows (applyRule (h.watch f) c) := by
  rintro ⟨m, s, log⟩
  obtain ⟨x, -, hrun⟩ := applyRule_effect c m
  rw [hrun (h.watch f) (s, log)]
  cases x with
  | calls w m₁ m' a =>
    rw [calls_recorded]
    exact List.prefix_append _ _
  | _ => exact List.prefix_rfl

theorem dispatch_grows (c : Int) : ∀ n, Grows (dispatch (h.watch f) c n)
  | 0 => fun _ => List.prefix_rfl
  | n + 1 => (applyRule_grows c).bind fun a => by
    cases a with
    | stay => exact dispatch_grows c n
    | skip => exact fun _ => List.prefix_rfl

theorem loop_grows : ∀ rest, Grows (loop (h.watch f) sg rest)
  | [] => (modifyLocals_grows _).bind fun _ =>
    (applyRule_grows eos).bind fun _ => call_grows (h := h) .onEof
  | b :: rest =>
    ((modifyLocals_grows _).bind fun _ => dispatch_grows (sg.toInt b) 4).bind fun _ =>
      loop_grows rest

/-- The calls at a visited point are the first of all calls. -/
theorem Visits.calls {p : Point} {st : Machine × (η × List (Callback × β))}
    (hv : Visits (h.watch f) sg src (s₀, []) p st) : st.2.2 <+: callsOf h f sg src s₀ := by
  have hgrows : ∀ n, Grows (p.run (h.watch f) sg n) := by
    intro n
    cases p with
    | next rest => exact loop_grows rest
    | apply c rest => exact (dispatch_grows c n).bind fun _ => loop_grows rest
    | last => exact (applyRule_grows _).bind fun _ => call_grows (h := h) .onEof
  obtain ⟨n, hrun⟩ := hv.run
  have hpre := hgrows (n + 1) st
  rw [← hrun] at hpre
  unfold callsOf parse resume
  cases hloop : loop (h.watch f) sg src (.start, (s₀, [])) <;> rw [hloop] at hpre <;> exact hpre

/-- So are the calls after a rule was applied there. -/
theorem Visits.rule_calls {c : Int} {rest : Bytes} {st : Machine × (η × List (Callback × β))}
    (hv : Visits (h.watch f) sg src (s₀, []) (.apply c rest) st) :
    (left (applyRule (h.watch f) c st)).2.2 <+: callsOf h f sg src s₀ := by
  cases hrun : applyRule (h.watch f) c st with
  | ok a st' =>
    cases a with
    | stay => exact (hv.stay hrun).calls
    | skip => exact (hv.skip hrun).calls
  | error e st' =>
    unfold callsOf
    rw [hv.parse_error hrun]
    exact List.prefix_rfl

/-! ## The list level -/

/-- `level` never wraps in this run. -/
def LevelFits (h : Handler ε η) (sg : CharSign) (src : Bytes) (s₀ : η) : Prop :=
  ∀ (rest : Bytes) (m : Machine) (s : η), Visits h sg src s₀ (.apply (ord '(') rest) (m, s) →
    m.rule = .top → m.level.toNat + 1 < 2 ^ 32

/-- A call that returns is recorded. -/
theorem watch_ok {w : Callback} {st st' : η × List (Callback × β)}
    (hcall : (h.watch f).on w st = .ok () st') :
    h.on w st.1 = .ok () st'.1 ∧ st'.2 = st.2 ++ [(w, f st.1)] := by
  rw [watch_on] at hcall
  unfold Handler.logged at hcall
  simp only at hcall
  cases hs : h.on w st.1 with
  | ok u s' =>
    rw [hs] at hcall
    injection hcall with hu hst
    rw [← hst]
    exact ⟨rfl, rfl⟩
  | error e s' =>
    rw [hs] at hcall
    exact nomatch hcall

/-- A call that throws is recorded too. -/
theorem watch_error {w : Callback} {e : ε} {st st' : η × List (Callback × β)}
    (hcall : (h.watch f).on w st = .error e st') :
    h.on w st.1 = .error e st'.1 ∧ st'.2 = st.2 ++ [(w, f st.1)] := by
  rw [watch_on] at hcall
  unfold Handler.logged at hcall
  simp only at hcall
  cases hs : h.on w st.1 with
  | ok u s' =>
    rw [hs] at hcall
    exact nomatch hcall
  | error e' s' =>
    rw [hs] at hcall
    injection hcall with he hst
    rw [← hst, he]
    exact ⟨rfl, rfl⟩

theorem toNat_succ {n : UInt32} (hn : n.toNat + 1 < 2 ^ 32) : (n + 1).toNat = n.toNat + 1 := by
  rw [UInt32.toNat_add]
  exact Nat.mod_eq_of_lt hn

theorem toNat_pred {n : UInt32} (hn : n ≠ 0) : (n - 1).toNat + 1 = n.toNat := by
  have hpos : n.toNat ≠ 0 := fun h0 => hn (UInt32.toNat_inj.mp h0)
  have hle : (1 : UInt32) ≤ n := by
    rw [UInt32.le_iff_toNat_le]
    show 1 ≤ n.toNat
    omega
  rw [UInt32.toNat_sub_of_le n 1 hle]
  show n.toNat - 1 + 1 = n.toNat
  omega

/-- **`level` is the number of lists that are open**, as long as it does not wrap. -/
theorem Visits.level_eq (hfit : LevelFits h sg src s₀) {p : Point}
    {st : Machine × (η × List (Callback × β))}
    (hv : Visits (h.watch f) sg src (s₀, []) p st) : (st.1.level.toNat : Int) = opens st.2.2 := by
  have hrule : ∀ {c : Int} {rest : Bytes} {a : Action}
      {st st' : Machine × (η × List (Callback × β))},
      Visits (h.watch f) sg src (s₀, []) (.apply c rest) st →
      (st.1.level.toNat : Int) = opens st.2.2 → applyRule (h.watch f) c st = .ok a st' →
        (st'.1.level.toNat : Int) = opens st'.2.2 := by
    intro c rest a st st' hvis ih hrun
    rcases applyRule_ok hrun with ⟨hs, hl⟩ | ⟨w, hw, hs, hl⟩ | ⟨hr, hc, -, hs, hl⟩ |
      ⟨hr, hc, h0, hs, hl⟩
    · rw [hs, hl]
      exact ih
    · rw [(watch_ok hs).2, opens_snoc, hw, hl, ih]
      exact (Int.add_zero _).symm
    · subst hc
      have hlt := hfit rest st.1 st.2.1 hvis.unwatch hr
      rw [(watch_ok hs).2, opens_snoc, hl, toNat_succ hlt, ← ih]
      rfl
    · have hpred := toNat_pred h0
      rw [(watch_ok hs).2, opens_snoc, hl, ← ih]
      show _ = _ + (-1 : Int)
      omega
  induction hv with
  | start => rfl
  | get hprev ih => exact ih
  | stay hprev hstay ih => exact hrule hprev ih hstay
  | skip hprev hskip ih => exact hrule hprev ih hskip
  | eos hprev ih => exact ih

/-- The characters that are left at a point, the one in hand included. -/
def Point.left : Point → Nat
  | .next rest => rest.length
  | .apply _ rest => rest.length + 1
  | .last => 0

/-- No more lists are open than characters were read. -/
theorem Visits.level_le {p : Point} {st : Machine × η} (hv : Visits h sg src s₀ p st) :
    st.1.level.toNat + p.left ≤ src.length := by
  have hrule : ∀ {c : Int} {a : Action} {st st' : Machine × η},
      applyRule h c st = .ok a st' → st'.1.level.toNat ≤ st.1.level.toNat ∨
        (a = .skip ∧ st'.1.level.toNat ≤ st.1.level.toNat + 1) := by
    intro c a st st' hrun
    rcases applyRule_ok hrun with ⟨-, hl⟩ | ⟨w, -, -, hl⟩ | ⟨-, -, ha, -, hl⟩ | ⟨-, -, h0, -, hl⟩
    · exact .inl (by rw [hl])
    · exact .inl (by rw [hl])
    · refine .inr ⟨ha, ?_⟩
      rw [hl, UInt32.toNat_add]
      exact Nat.mod_le _ _
    · have hpred := toNat_pred h0
      rw [hl]
      exact .inl (by omega)
  induction hv with
  | start => exact Nat.le_of_eq (Nat.zero_add _)
  | get hprev ih => exact ih
  | stay hprev hstay ih =>
    rcases hrule hstay with hl | ⟨ha, -⟩
    · omega
    · exact nomatch ha
  | skip hprev hskip ih =>
    unfold Point.left at ih ⊢
    simp only at ih ⊢
    rcases hrule hskip with hl | ⟨-, hl⟩ <;> omega
  | eos hprev ih =>
    unfold Point.left at ih ⊢
    simp only at ih ⊢
    omega

/-- `level` does not wrap in a text that is short enough. -/
theorem levelFits_of_length (hlen : src.length < 2 ^ 32) : LevelFits h sg src s₀ := by
  intro rest m s hv _
  have hle := hv.level_le
  unfold Point.left at hle
  simp only at hle
  omega

end

end Cor.Sexp

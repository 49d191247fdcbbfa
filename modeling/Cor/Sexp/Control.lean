import Cor.Sexp.Visits

/-!
# The control state of the parser

The rule that is current and the rules on the stack belong together: `WellFormed`
says which pairs there are, and one application of a rule leads from one of them to
another (`ruleEffect_keeps`). So a rule never returns to an empty stack.

A rule that stays hands its character on, and no text gets shorter by that. What
gets smaller is `turns`, the number of rules the character can still go through: at
most four, from `in_hex` over `append_escaped_hex` and `in_atom` to `top`. The number
depends on the character, since `top` hands on to `in_atom` what does not end an atom
and `in_atom` to `top` what does. For the same reason `in_atom` has its first
character before it can be ended by another one, and delivers no empty atom.
-/

namespace Cor.Sexp

open Lib (Emit)

/-- The stack that belongs to the rule: empty, the base rule to return to, or
`append_escaped_hex` over it. -/
def Machine.WellFormed (m : Machine) : Prop :=
  match m.rule with
  | .top | .inComment | .inString | .inAtom => m.ctx = []
  | .appendEscaped | .appendEscapedHex => m.ctx = [.inString] ∨ m.ctx = [.inAtom]
  | .inHex => m.ctx = [.appendEscapedHex, .inString] ∨ m.ctx = [.appendEscapedHex, .inAtom]

/-- What `in_atom` ends an atom at. -/
def EndsAtom (c : Int) : Prop := isBound c = true ∨ isspace c = true ∨ c = eos

instance (c : Int) : Decidable (EndsAtom c) := inferInstanceAs (Decidable (_ ∨ _ ∨ _))

/-- The number of rules that a character may still go through. -/
def turns (c : Int) : Rule → Nat
  | .top => if EndsAtom c then 1 else 2
  | .inAtom => if EndsAtom c then 2 else 1
  | .appendEscapedHex => 3
  | .inHex => 4
  | .inString | .inComment | .appendEscaped => 1

theorem turns_bounds (c : Int) (r : Rule) : 1 ≤ turns c r ∧ turns c r ≤ 4 := by
  unfold turns
  cases r with
  | top =>
    dsimp only
    split <;> omega
  | inAtom =>
    dsimp only
    split <;> omega
  | inString | inComment | inHex | appendEscaped | appendEscapedHex =>
    dsimp only
    omega

/-! ## One application of a rule -/

/-- The rule returns, with this answer and these locals. -/
inductive Effect.Returns : Effect → Action → Machine → Prop
  | quiet {a : Action} {m' : Machine} : Returns (.quiet a m') a m'
  | calls {w : Callback} {m₁ m' : Machine} {a : Action} : Returns (.calls w m₁ m' a) a m'

/-- The calls that an effect makes. -/
def Effect.made : Effect → List Callback
  | .calls w _ _ _ => [w]
  | _ => []

/-- What one application of a rule leads to: a control state again; fewer rules to go
through for a character that is handed on; and `in_atom` only with something in the
atom, or with a character that does not end it. -/
structure Keeps (c : Int) (m : Machine) (a : Action) (m' : Machine) : Prop where
  wellFormed : m'.WellFormed
  fewer : a = .stay → turns c m'.rule < turns c m.rule
  atom : m'.rule = .inAtom → m'.data ≠ [] ∨ a = .stay ∧ ¬ EndsAtom c
  fresh : m.rule = .top → m'.rule ≠ .top → m'.data = []

section

variable {c : Int} {m m' : Machine} {a : Action}

/-- The characters that `top` takes for the first one of an atom are those that do
not end one. -/
theorem endsAtom_iff (hb : isBound c = true ↔ c = ord '(' ∨ c = ord ')') :
    EndsAtom c ↔ c = ord '(' ∨ c = ord ')' ∨ isspace c = true ∨ c = eos := by
  unfold EndsAtom
  rw [hb, or_assoc]

/-- An effect that only returns. -/
theorem returns_quiet {b : Action} {m₁ : Machine} (h : (Effect.quiet b m₁).Returns a m') :
    b = a ∧ m₁ = m' := by
  cases h
  exact ⟨rfl, rfl⟩

theorem returns_calls {w : Callback} {b : Action} {m₁ m₂ : Machine}
    (h : (Effect.calls w m₁ m₂ b).Returns a m') : b = a ∧ m₂ = m' := by
  cases h
  exact ⟨rfl, rfl⟩

/-- A return to the rule that is on the stack. -/
theorem returns_pop {b : Action} {m₁ : Machine} {p : Rule} {ctx : List Rule}
    (hctx : m₁.ctx = p :: ctx) (h : (popEffect b m₁).Returns a m') :
    b = a ∧ { m₁ with ctx := ctx, rule := p } = m' := by
  unfold popEffect at h
  rw [hctx] at h
  exact returns_quiet h

/-- A token or a comment is delivered. -/
theorem deliver_keeps {w : Callback} {b : Action} (hctx : m.ctx = [])
    (hstay : b = .stay → turns c .top < turns c m.rule)
    (hret : (deliverEffect w b m).Returns a m') : Keeps c m a m' := by
  obtain ⟨rfl, rfl⟩ := returns_calls hret
  refine ⟨hctx, hstay, ?_, ?_⟩
  · intro hr
    exact nomatch hr
  · intro _ hr
    exact absurd rfl hr

theorem top_keeps (hb : isBound c = true ↔ c = ord '(' ∨ c = ord ')') (hr : m.rule = .top)
    (hm : m.WellFormed) (hret : (topEffect c m).Returns a m') : Keeps c m a m' := by
  obtain ⟨rule, ctx, level, data, hexByte, tellg⟩ := m
  obtain rfl : rule = .top := hr
  have hctx : ctx = [] := hm
  -- all but one of the characters leave the rule, or start a token, and are done with
  have hskip : ∀ m₁ : Machine, m₁.WellFormed → m₁.rule ≠ .inAtom →
      (m₁.rule ≠ .top → m₁.data = []) →
        Keeps c ⟨.top, ctx, level, data, hexByte, tellg⟩ .skip m₁ := by
    intro m₁ hwf hatom hfresh
    refine ⟨hwf, ?_, fun hr => absurd hr hatom, fun _ => hfresh⟩
    intro hstay
    exact nomatch hstay
  unfold topEffect at hret
  split_ifs at hret with hclose hopen hsemi hspace hquote heos
  · unfold closeEffect at hret
    split_ifs at hret with h0
    · exact nomatch hret
    · obtain ⟨rfl, rfl⟩ := returns_calls hret
      exact hskip _ hctx (by simp) (by simp)
  · obtain ⟨rfl, rfl⟩ := returns_calls hret
    exact hskip _ hctx (by simp) (by simp)
  · obtain ⟨rfl, rfl⟩ := returns_quiet hret
    exact hskip _ hctx (by simp) (fun _ => rfl)
  · obtain ⟨rfl, rfl⟩ := returns_quiet hret
    exact hskip _ hctx (by simp) (by simp)
  · obtain ⟨rfl, rfl⟩ := returns_quiet hret
    exact hskip _ hctx (by simp) (fun _ => rfl)
  · -- the first character of an atom
    obtain ⟨rfl, rfl⟩ := returns_quiet hret
    have hin : ¬ EndsAtom c := by
      rw [endsAtom_iff hb]
      tauto
    refine ⟨hctx, ?_, fun _ => Or.inr ⟨rfl, hin⟩, fun _ _ => rfl⟩
    intro _
    unfold turns
    simp [hin]
  · obtain ⟨rfl, rfl⟩ := returns_quiet hret
    exact hskip _ hctx (by simp) (by simp)

/-- A rule of a token or a comment that takes its character. -/
theorem take_keeps {m₁ : Machine} (hm : m₁.WellFormed) (hdata : m₁.data ≠ [])
    (hr : m.rule ≠ .top) : Keeps c m .skip m₁ where
  wellFormed := hm
  fewer := fun hstay => (nomatch hstay)
  atom := fun _ => Or.inl hdata
  fresh := fun htop => absurd htop hr

theorem escape_keeps (hm : m.rule = .inString ∨ m.rule = .inAtom) (hctx : m.ctx = [])
    (hret : (escapeEffect m).Returns a m') : Keeps c m a m' := by
  obtain ⟨rfl, rfl⟩ := returns_quiet hret
  refine ⟨?_, ?_, ?_, ?_⟩
  · show m.rule :: m.ctx = [.inString] ∨ m.rule :: m.ctx = [.inAtom]
    rw [hctx]
    simpa using hm
  · intro hstay
    exact nomatch hstay
  · intro hr
    exact nomatch hr
  · intro htop
    rw [htop] at hm
    exact absurd hm (by simp)

theorem comment_keeps (hr : m.rule = .inComment) (hm : m.WellFormed)
    (hret : (commentEffect c m).Returns a m') : Keeps c m a m' := by
  obtain ⟨rule, ctx, level, data, hexByte, tellg⟩ := m
  obtain rfl : rule = .inComment := hr
  have hctx : ctx = [] := hm
  unfold commentEffect at hret
  split_ifs at hret
  · obtain ⟨rfl, rfl⟩ := returns_quiet hret
    exact take_keeps hctx (by simp) (by simp)
  · exact deliver_keeps (b := .skip) hctx (fun hstay => (nomatch hstay)) hret

theorem string_keeps (hr : m.rule = .inString) (hm : m.WellFormed)
    (hret : (stringEffect c m).Returns a m') : Keeps c m a m' := by
  obtain ⟨rule, ctx, level, data, hexByte, tellg⟩ := m
  obtain rfl : rule = .inString := hr
  have hctx : ctx = [] := hm
  unfold stringEffect at hret
  split_ifs at hret
  · exact deliver_keeps (b := .skip) hctx (fun hstay => (nomatch hstay)) hret
  · exact escape_keeps (Or.inl rfl) hctx hret
  · exact nomatch hret
  · obtain ⟨rfl, rfl⟩ := returns_quiet hret
    exact take_keeps hctx (by simp) (by simp)

theorem atom_keeps (hr : m.rule = .inAtom) (hm : m.WellFormed)
    (hret : (atomEffect c m).Returns a m') : Keeps c m a m' := by
  obtain ⟨rule, ctx, level, data, hexByte, tellg⟩ := m
  obtain rfl : rule = .inAtom := hr
  have hctx : ctx = [] := hm
  unfold atomEffect at hret
  split_ifs at hret with hends
  · refine deliver_keeps hctx ?_ hret
    intro _
    have hends' : EndsAtom c := hends
    unfold turns
    simp [hends']
  · exact escape_keeps (Or.inr rfl) hctx hret
  · obtain ⟨rfl, rfl⟩ := returns_quiet hret
    exact take_keeps hctx (by simp) (by simp)

/-- The token goes on with the base rule that is on the stack. -/
theorem base_keeps {b : Action} {m₁ : Machine} (hr : m.rule ≠ .top)
    (hctx : m₁.ctx = [.inString] ∨ m₁.ctx = [.inAtom]) (hdata : m₁.data ≠ [])
    (hstay : b = .stay → m.rule = .appendEscapedHex)
    (hret : (popEffect b m₁).Returns a m') : Keeps c m a m' := by
  have hbase : ∃ p, (p = .inString ∨ p = .inAtom) ∧ m₁.ctx = [p] := by
    rcases hctx with h | h
    · exact ⟨_, Or.inl rfl, h⟩
    · exact ⟨_, Or.inr rfl, h⟩
  obtain ⟨p, hp, hctx'⟩ := hbase
  obtain ⟨rfl, rfl⟩ := returns_pop hctx' hret
  refine ⟨?_, ?_, fun _ => Or.inl hdata, fun htop => absurd htop hr⟩
  · rcases hp with rfl | rfl
    · rfl
    · rfl
  · intro hb
    rw [hstay hb]
    rcases hp with rfl | rfl
    · show 1 < 3
      decide
    · show (if EndsAtom c then 2 else 1) < 3
      split <;> decide

theorem escaped_keeps (hr : m.rule = .appendEscaped) (hm : m.WellFormed)
    (hret : (escapedEffect c m).Returns a m') : Keeps c m a m' := by
  obtain ⟨rule, ctx, level, data, hexByte, tellg⟩ := m
  obtain rfl : rule = .appendEscaped := hr
  have hctx : ctx = [.inString] ∨ ctx = [.inAtom] := hm
  unfold escapedEffect at hret
  split_ifs at hret
  · exact nomatch hret
  · -- `\x`: the stack gets the rule that ends the escape
    obtain ⟨rfl, rfl⟩ := returns_quiet hret
    refine ⟨?_, fun hstay => (nomatch hstay), fun hr => (nomatch hr), fun htop => (nomatch htop)⟩
    rcases hctx with rfl | rfl
    · exact Or.inl rfl
    · exact Or.inr rfl
  · exact base_keeps (b := .skip) (by simp) hctx (by simp) (fun hstay => (nomatch hstay)) hret

theorem escapedHex_keeps (hr : m.rule = .appendEscapedHex) (hm : m.WellFormed)
    (hret : (escapedHexEffect m).Returns a m') : Keeps c m a m' := by
  obtain ⟨rule, ctx, level, data, hexByte, tellg⟩ := m
  obtain rfl : rule = .appendEscapedHex := hr
  have hctx : ctx = [.inString] ∨ ctx = [.inAtom] := hm
  unfold escapedHexEffect at hret
  split_ifs at hret
  · exact nomatch hret
  · exact base_keeps (by simp) hctx (by simp) (fun _ => rfl) hret

/-- The end of the digits: the rule that appends the byte is on the stack. -/
theorem digits_keep {m₁ : Machine} (hr : m.rule = .inHex)
    (hctx : m₁.ctx = [.appendEscapedHex, .inString] ∨ m₁.ctx = [.appendEscapedHex, .inAtom])
    (hret : (popEffect .stay m₁).Returns a m') : Keeps c m a m' := by
  have hpop : ∃ ctx, (ctx = [.inString] ∨ ctx = [.inAtom]) ∧
      m₁.ctx = .appendEscapedHex :: ctx := by
    rcases hctx with h | h
    · exact ⟨_, Or.inl rfl, h⟩
    · exact ⟨_, Or.inr rfl, h⟩
  obtain ⟨ctx, hbase, hctx'⟩ := hpop
  obtain ⟨rfl, rfl⟩ := returns_pop hctx' hret
  refine ⟨hbase, ?_, fun hatom => (nomatch hatom), ?_⟩
  · intro _
    rw [hr]
    show 3 < 4
    decide
  · intro htop
    rw [hr] at htop
    exact nomatch htop

theorem hex_keeps (hr : m.rule = .inHex) (hm : m.WellFormed)
    (hret : (hexEffect c m).Returns a m') : Keeps c m a m' := by
  obtain ⟨rule, ctx, level, data, hexByte, tellg⟩ := m
  obtain rfl : rule = .inHex := hr
  have hctx : ctx = [.appendEscapedHex, .inString] ∨ ctx = [.appendEscapedHex, .inAtom] := hm
  unfold hexEffect at hret
  split_ifs at hret
  · exact digits_keep rfl hctx hret
  · obtain ⟨rfl, rfl⟩ := returns_quiet hret
    exact ⟨hctx, fun hstay => (nomatch hstay), fun hatom => (nomatch hatom),
      fun htop => (nomatch htop)⟩
  · exact digits_keep rfl hctx hret

/-- **One application of a rule** keeps the control state well-formed, and hands its
character on to a rule that has fewer turns. -/
theorem ruleEffect_keeps (hb : isBound c = true ↔ c = ord '(' ∨ c = ord ')')
    (hm : m.WellFormed) (hret : (ruleEffect c m).Returns a m') : Keeps c m a m' := by
  unfold ruleEffect at hret
  cases hr : m.rule with
  | top =>
    rw [hr] at hret
    exact top_keeps hb hr hm hret
  | inString =>
    rw [hr] at hret
    exact string_keeps hr hm hret
  | inAtom =>
    rw [hr] at hret
    exact atom_keeps hr hm hret
  | inComment =>
    rw [hr] at hret
    exact comment_keeps hr hm hret
  | inHex =>
    rw [hr] at hret
    exact hex_keeps hr hm hret
  | appendEscaped =>
    rw [hr] at hret
    exact escaped_keeps hr hm hret
  | appendEscapedHex =>
    rw [hr] at hret
    exact escapedHex_keeps hr hm hret

theorem popEffect_defined {b : Action} {m₁ : Machine} (hctx : m₁.ctx ≠ []) :
    popEffect b m₁ ≠ .undefined m' := by
  obtain ⟨p, ctx, hp⟩ := List.exists_cons_of_ne_nil hctx
  unfold popEffect
  rw [hp]
  simp

/-- A rule never returns to an empty stack. -/
theorem ruleEffect_defined (hm : m.WellFormed) : ruleEffect c m ≠ .undefined m' := by
  have hstack : m.rule = .inHex ∨ m.rule = .appendEscaped ∨ m.rule = .appendEscapedHex →
      m.ctx ≠ [] := by
    intro hr hnil
    unfold Machine.WellFormed at hm
    rw [hnil] at hm
    rcases hr with hr | hr | hr
    · simp [hr] at hm
    · simp [hr] at hm
    · simp [hr] at hm
  unfold ruleEffect
  cases hr : m.rule with
  | top =>
    show topEffect c m ≠ _
    unfold topEffect closeEffect
    split_ifs <;> simp
  | inString =>
    show stringEffect c m ≠ _
    unfold stringEffect deliverEffect escapeEffect
    split_ifs <;> simp
  | inAtom =>
    show atomEffect c m ≠ _
    unfold atomEffect deliverEffect escapeEffect
    split_ifs <;> simp
  | inComment =>
    show commentEffect c m ≠ _
    unfold commentEffect deliverEffect
    split_ifs <;> simp
  | inHex =>
    have hctx := hstack (Or.inl hr)
    show hexEffect c m ≠ _
    unfold hexEffect
    split_ifs
    · exact popEffect_defined hctx
    · simp
    · exact popEffect_defined hctx
  | appendEscaped =>
    have hctx := hstack (Or.inr (Or.inl hr))
    show escapedEffect c m ≠ _
    unfold escapedEffect
    split_ifs
    · simp
    · simp
    · exact popEffect_defined hctx
  | appendEscapedHex =>
    have hctx := hstack (Or.inr (Or.inr hr))
    show escapedHexEffect m ≠ _
    unfold escapedHexEffect
    split_ifs
    · simp
    · exact popEffect_defined hctx

/-- Only `in_atom` delivers an atom, and only at a character that ends it. -/
theorem made_atom {d : Bytes} (h : .onAtom d ∈ (ruleEffect c m).made) :
    m.rule = .inAtom ∧ EndsAtom c ∧ d = m.data := by
  have hpop : ∀ {b : Action} {m₁ : Machine}, .onAtom d ∉ (popEffect b m₁).made := by
    intro b m₁
    unfold popEffect
    split <;> simp [Effect.made]
  unfold ruleEffect at h
  cases hr : m.rule with
  | inAtom =>
    rw [hr] at h
    dsimp only [atomEffect] at h
    split_ifs at h with hends
    · exact ⟨rfl, hends, Callback.onAtom.inj (List.mem_singleton.mp h)⟩
    · exact absurd h (by simp [escapeEffect, Effect.made])
    · exact absurd h (by simp [Effect.made])
  | top =>
    rw [hr] at h
    dsimp only [topEffect, closeEffect] at h
    split_ifs at h <;> exact absurd h (by simp [Effect.made])
  | inString =>
    rw [hr] at h
    dsimp only [stringEffect, deliverEffect, escapeEffect] at h
    split_ifs at h <;> exact absurd h (by simp [Effect.made])
  | inComment =>
    rw [hr] at h
    dsimp only [commentEffect, deliverEffect] at h
    split_ifs at h <;> exact absurd h (by simp [Effect.made])
  | inHex =>
    rw [hr] at h
    dsimp only [hexEffect] at h
    split_ifs at h
    · exact absurd h hpop
    · exact absurd h (by simp [Effect.made])
    · exact absurd h hpop
  | appendEscaped =>
    rw [hr] at h
    dsimp only [escapedEffect] at h
    split_ifs at h
    · exact absurd h (by simp [Effect.made])
    · exact absurd h (by simp [Effect.made])
    · exact absurd h hpop
  | appendEscapedHex =>
    rw [hr] at h
    dsimp only [escapedHexEffect] at h
    split_ifs at h
    · exact absurd h (by simp [Effect.made])
    · exact absurd h hpop

end

/-! ## Runs -/

section

variable {ε η : Type} {h : Handler ε η} {sg : CharSign} {src : Bytes} {s₀ : η}

/-- `while (rule(c) == Stay) {}` applies `n` rules. -/
inductive Turns (h : Handler ε η) (c : Int) : Nat → Machine × η → Prop
  | last {st : Machine × η} (hlast : ∀ st', applyRule h c st ≠ .ok .stay st') : Turns h c 1 st
  | stay {n : Nat} {st st' : Machine × η} (hstay : applyRule h c st = .ok .stay st')
      (hrest : Turns h c n st') : Turns h c (n + 1) st

/-- What holds at the points of a run. -/
structure Point.Holds (sg : CharSign) (p : Point) (m : Machine) : Prop where
  wellFormed : m.WellFormed
  char : ∀ c rest, p = .apply c rest → ∃ b, c = sg.toInt b
  atom : m.rule = .inAtom → m.data ≠ [] ∨ ∃ c rest, p = .apply c rest ∧ ¬ EndsAtom c

theorem applyRule_returns {c : Int} {m : Machine} {s : η} {a : Action} {st' : Machine × η}
    (hrun : applyRule h c (m, s) = .ok a st') : (ruleEffect c m).Returns a st'.1 := by
  rw [applyRule_run] at hrun
  cases hx : ruleEffect c m with
  | quiet b m' =>
    rw [hx] at hrun
    injection hrun with ha hst
    rw [← ha, ← hst]
    exact .quiet
  | calls w m₁ m' b =>
    rw [hx] at hrun
    unfold Effect.run at hrun
    dsimp only at hrun
    cases hw : h.on w s with
    | ok u s' =>
      rw [hw] at hrun
      injection hrun with ha hst
      rw [← ha, ← hst]
      exact .calls
    | error e s' =>
      rw [hw] at hrun
      exact nomatch hrun
  | fails e m' =>
    rw [hx] at hrun
    exact nomatch hrun
  | undefined m' =>
    rw [hx] at hrun
    exact nomatch hrun

theorem Visits.holds {p : Point} {st : Machine × η} (hv : Visits h sg src s₀ p st) :
    p.Holds sg st.1 := by
  induction hv with
  | start => exact ⟨rfl, fun c rest hp => (nomatch hp), fun hr => (nomatch hr)⟩
  | @get b rest m s hprev ih =>
    refine ⟨ih.wellFormed, ?_, ?_⟩
    · intro c rest' hp
      injection hp with hc
      exact ⟨b, hc.symm⟩
    · intro hr
      rcases ih.atom hr with hdata | ⟨c, rest', hp, -⟩
      · exact Or.inl hdata
      · exact nomatch hp
  | @stay c rest st st' hprev hstay ih =>
    obtain ⟨b, rfl⟩ := ih.char c rest rfl
    have hkeeps := ruleEffect_keeps (isBound_toInt sg b) ih.wellFormed (applyRule_returns hstay)
    refine ⟨hkeeps.wellFormed, ih.char, ?_⟩
    intro hr
    rcases hkeeps.atom hr with hdata | ⟨-, hin⟩
    · exact Or.inl hdata
    · exact Or.inr ⟨_, rest, rfl, hin⟩
  | @skip c rest st st' hprev hskip ih =>
    obtain ⟨b, rfl⟩ := ih.char c rest rfl
    have hkeeps := ruleEffect_keeps (isBound_toInt sg b) ih.wellFormed (applyRule_returns hskip)
    refine ⟨hkeeps.wellFormed, fun c rest hp => (nomatch hp), ?_⟩
    intro hr
    rcases hkeeps.atom hr with hdata | ⟨hstay, -⟩
    · exact Or.inl hdata
    · exact nomatch hstay
  | eos hprev ih =>
    refine ⟨ih.wellFormed, fun c rest hp => (nomatch hp), ?_⟩
    intro hr
    rcases ih.atom hr with hdata | ⟨c, rest, hp, -⟩
    · exact Or.inl hdata
    · exact nomatch hp

/-- A character goes through no more rules than its turns. -/
theorem exists_turns {c : Int} (hb : isBound c = true ↔ c = ord '(' ∨ c = ord ')') :
    ∀ (k : Nat) (m : Machine) (s : η), turns c m.rule ≤ k → m.WellFormed →
      ∃ n, n ≤ k ∧ Turns h c n (m, s)
  | 0, m, s, hk, _ => by
    have hpos := (turns_bounds c m.rule).1
    omega
  | k + 1, m, s, hk, hm => by
    cases hrun : applyRule h c (m, s) with
    | error e st' =>
      refine ⟨1, by omega, .last ?_⟩
      intro st'' hok
      exact nomatch hrun.symm.trans hok
    | ok a st' =>
      cases a with
      | skip =>
        refine ⟨1, by omega, .last ?_⟩
        intro st'' hok
        exact nomatch hrun.symm.trans hok
      | stay =>
        have hkeeps := ruleEffect_keeps hb hm (applyRule_returns hrun)
        have hfewer := hkeeps.fewer rfl
        obtain ⟨n, hn, hturns⟩ := exists_turns hb k st'.1 st'.2 (by omega) hkeeps.wellFormed
        exact ⟨n + 1, by omega, .stay hrun hturns⟩

/-- A rule at the end of the input sees a character too, as far as `isBound` goes. -/
theorem isBound_eos : isBound eos = true ↔ eos = ord '(' ∨ eos = ord ')' := by decide

theorem applyRule_defined {c : Int} {st st' : Machine × η} (hm : st.1.WellFormed) :
    applyRule h c st ≠ .error .undefined st' := by
  obtain ⟨m, s⟩ := st
  intro hrun
  rw [applyRule_run] at hrun
  cases hx : ruleEffect c m with
  | undefined m' => exact ruleEffect_defined hm hx
  | quiet a m' =>
    rw [hx] at hrun
    exact nomatch hrun
  | fails e m' =>
    rw [hx] at hrun
    exact nomatch hrun
  | calls w m₁ m' a =>
    rw [hx] at hrun
    unfold Effect.run at hrun
    dsimp only at hrun
    cases hw : h.on w s with
    | ok u s' =>
      rw [hw] at hrun
      exact nomatch hrun
    | error e s' =>
      rw [hw] at hrun
      exact nomatch hrun

/-! ## The calls of `on_atom` -/

variable {β : Type} {f : η → β}

/-- No call of `on_atom` with an empty string. -/
def NoEmptyAtom (log : List (Callback × β)) : Prop := ∀ e ∈ log, e.1 ≠ .onAtom []

/-- The record after a rule has the calls of its effect at the end. -/
theorem applyRule_log (c : Int) (m : Machine) (st : η × List (Callback × β)) :
    (left (applyRule (h.watch f) c (m, st))).2.2 =
      st.2 ++ (ruleEffect c m).made.map fun w => (w, f st.1) := by
  rw [applyRule_run]
  cases hx : ruleEffect c m with
  | calls w m₁ m' a => exact calls_recorded w m₁ m' a st
  | quiet a m' => exact (List.append_nil _).symm
  | fails e m' => exact (List.append_nil _).symm
  | undefined m' => exact (List.append_nil _).symm

/-- A rule that only meets an atom with something in it. -/
theorem rule_noEmptyAtom {c : Int} {m : Machine} {st : η × List (Callback × β)}
    (hatom : m.rule = .inAtom → EndsAtom c → m.data ≠ []) (hlog : NoEmptyAtom st.2) :
    NoEmptyAtom (left (applyRule (h.watch f) c (m, st))).2.2 := by
  intro e he
  rw [applyRule_log] at he
  rcases List.mem_append.mp he with hold | hnew
  · exact hlog e hold
  · obtain ⟨w, hw, rfl⟩ := List.mem_map.mp hnew
    rintro rfl
    obtain ⟨hr, hends, hd⟩ := made_atom hw
    exact hatom hr hends hd.symm

theorem Point.Holds.atom_ends {c : Int} {rest : Bytes} {m : Machine}
    (hp : (Point.apply c rest).Holds sg m) (hr : m.rule = .inAtom) (hends : EndsAtom c) :
    m.data ≠ [] := by
  rcases hp.atom hr with hdata | ⟨c', rest', heq, hin⟩
  · exact hdata
  · injection heq with hc
    rw [hc] at hends
    exact absurd hends hin

theorem Visits.noEmptyAtom {p : Point} {st : Machine × (η × List (Callback × β))}
    (hv : Visits (h.watch f) sg src (s₀, []) p st) : NoEmptyAtom st.2.2 := by
  have hrule : ∀ {c : Int} {rest : Bytes} {a : Action}
      {st st' : Machine × (η × List (Callback × β))},
      Visits (h.watch f) sg src (s₀, []) (.apply c rest) st → NoEmptyAtom st.2.2 →
        applyRule (h.watch f) c st = .ok a st' → NoEmptyAtom st'.2.2 := by
    intro c rest a st st' hvis ih hrun
    have hlog := rule_noEmptyAtom (h := h) (f := f) hvis.holds.atom_ends ih
    have hleft : left (applyRule (h.watch f) c st) = st' := by
      rw [hrun]
      rfl
    rw [← hleft]
    exact hlog
  induction hv with
  | start =>
    intro e he
    exact nomatch he
  | get hprev ih => exact ih
  | stay hprev hstay ih => exact hrule hprev ih hstay
  | skip hprev hskip ih => exact hrule hprev ih hskip
  | eos hprev ih => exact ih

theorem callsOf_noEmptyAtom (h : Handler ε η) (f : η → β) (sg : CharSign) (src : Bytes) (s₀ : η) :
    NoEmptyAtom (callsOf h f sg src s₀) := by
  have hlast : ∀ {st : Machine × (η × List (Callback × β))},
      Visits (h.watch f) sg src (s₀, []) .last st →
        NoEmptyAtom (left (applyRule (h.watch f) eos st)).2.2 := by
    intro st hv
    refine rule_noEmptyAtom ?_ hv.noEmptyAtom
    intro hr _
    rcases hv.holds.atom hr with hdata | ⟨c, rest, hp, -⟩
    · exact hdata
    · exact nomatch hp
  have hstop : Stops (h.watch f) sg src (s₀, []) (parse (h.watch f) sg src (s₀, [])) :=
    parse_stops
  unfold callsOf
  generalize parse (h.watch f) sg src (s₀, []) = res at hstop
  cases hstop with
  | rule hv herr =>
    have hlog := rule_noEmptyAtom (h := h) (f := f) hv.holds.atom_ends hv.noEmptyAtom
    rw [herr] at hlog
    exact hlog
  | last hv herr =>
    have hlog := hlast hv
    rw [herr] at hlog
    exact hlog
  | @eof st a m' s' hv hok =>
    have hlog := hlast hv
    rw [hok] at hlog
    have heof : (left ((h.watch f).listen .onEof s')).2 = s'.2 ++ [(.onEof, f s'.1)] := by
      obtain ⟨s, log⟩ := s'
      rw [listen_watch]
      cases h.listen .onEof s with
      | ok u s₁ => rfl
      | error e s₁ => rfl
    intro e he
    rw [heof] at he
    rcases List.mem_append.mp he with hold | hnew
    · exact hlog e hold
    · obtain rfl := List.mem_singleton.mp hnew
      exact fun heq => (nomatch heq)

/-! ## The machine -/

/-- The parser's machine on one input, with one handler. -/
structure Progresses (h : Handler ε η) (sg : CharSign) (src : Bytes) (s₀ : η) : Prop where
  /-- The stack belongs to the rule at every point of the run. -/
  wellFormed : ∀ p st, Visits h sg src s₀ p st → st.1.WellFormed
  /-- It does after the rule at the end of the input. -/
  wellFormed_eos : ∀ st a st', Visits h sg src s₀ .last st →
    applyRule h eos st = .ok a st' → st'.1.WellFormed
  /-- No rule returns to an empty stack. -/
  pops : ∀ c rest st st', Visits h sg src s₀ (.apply c rest) st →
    applyRule h c st ≠ .error .undefined st'
  pops_eos : ∀ st st', Visits h sg src s₀ .last st → applyRule h eos st ≠ .error .undefined st'
  /-- From wherever it is, the inner loop ends after at most four rules. -/
  turns : ∀ c rest st, Visits h sg src s₀ (.apply c rest) st → ∃ n, n ≤ 4 ∧ Turns h c n st
  /-- A string, an atom or a comment begins with nothing in `data`. -/
  fresh : ∀ c rest st a st', Visits h sg src s₀ (.apply c rest) st →
    applyRule h c st = .ok a st' → st.1.rule = .top → st'.1.rule ≠ .top → st'.1.data = []
  /-- `on_atom` is not called with an empty string. -/
  atoms : ∀ e ∈ callsOf h (fun _ => ()) sg src s₀, e.1 ≠ .onAtom []

/-- **The machine is well-formed and makes progress**, on every input and with every
handler. -/
theorem parse_progresses (h : Handler ε η) (sg : CharSign) (src : Bytes) (s₀ : η) :
    Progresses h sg src s₀ where
  wellFormed := fun p st hv => hv.holds.wellFormed
  wellFormed_eos := by
    intro st a st' hv hrun
    exact (ruleEffect_keeps isBound_eos hv.holds.wellFormed (applyRule_returns hrun)).wellFormed
  pops := fun c rest st st' hv => applyRule_defined hv.holds.wellFormed
  pops_eos := fun st st' hv => applyRule_defined hv.holds.wellFormed
  turns := by
    intro c rest st hv
    obtain ⟨b, rfl⟩ := hv.holds.char c rest rfl
    have hle := (turns_bounds (sg.toInt b) st.1.rule).2
    exact exists_turns (isBound_toInt sg b) 4 st.1 st.2 hle hv.holds.wellFormed
  fresh := by
    intro c rest st a st' hv hrun hr hr'
    obtain ⟨b, rfl⟩ := hv.holds.char c rest rfl
    exact (ruleEffect_keeps (isBound_toInt sg b) hv.holds.wellFormed
      (applyRule_returns hrun)).fresh hr hr'
  atoms := callsOf_noEmptyAtom h (fun _ => ()) sg src s₀

end

end Cor.Sexp

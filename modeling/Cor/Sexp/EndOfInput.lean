import Cor.Sexp.Escapes

/-!
# The end of the input

At the end of the input the current rule is applied once, and its `Stay` is not
followed. For most rules that is enough: a comment or an atom is delivered, a
string or an escape that is not finished is an error. The rule of a hex escape
only hands the character on, so a token that ends in a hex escape is dropped
without a word.

`EndsClean` is what one expects of a text that `parse` accepts: it does not end
inside a string or an escape, and ends as if a newline followed.
`endsClean_iff` says that exactly the texts that end in a hex escape of a token
break it.
-/

namespace Cor.Sexp

open Lib (Emit)

/-- The mode the lexer is in at the end of a text, if it gets there without an
error. -/
def modeAfter (sg : CharSign) (src : Bytes) : Option Mode :=
  match (Lexer.start.steps sg src).result with
  | .ok l => some l.mode
  | .error _ => none

/-- The text ends inside a string literal, or inside an escape that still needs
characters. -/
def EndsInside (sg : CharSign) (src : Bytes) : Prop :=
  (∃ b, modeAfter sg src = some (.escape b) ∨ modeAfter sg src = some (.hex b none)) ∨
  modeAfter sg src = some (.text .string) ∨
  ∃ high, modeAfter sg src = some (.hex .string high)

/-- What one expects of an accepted text, for a handler that does not throw: it
does not end inside a token that needs more, and the calls are those for the
text with a newline at its end. -/
def EndsClean (sg : CharSign) (src : Bytes) : Prop :=
  ∀ (ε η : Type) (h : Handler ε η), (∀ w s, ∃ s', h.on w s = .ok () s') →
    ∀ s s', parse h sg src s = .ok () s' →
      ¬ EndsInside sg src ∧ parse h sg (src ++ [0x0a]) s = .ok () s'

/-- The text ends in `\x` or in `\xH`, and the backslash is one that starts an
escape of a token. -/
def EndsInHex (sg : CharSign) (src : Bytes) : Prop :=
  ∃ pre b, modeAfter sg (pre ++ [0x5c]) = some (.escape b) ∧
    (src = pre ++ [0x5c, 0x78] ∨
      ∃ d n, hexDigit d = some n ∧ src = pre ++ [0x5c, 0x78, d])

namespace Lexer

variable {sg : CharSign}

/-- How a mode inside an escape is entered. -/
def Enters (m : Mode) (c : Int) : Mode → Prop
  | .escape _ => c = ord '\\'
  | .hex b none => m = .escape b ∧ c = ord 'x'
  | .hex b (some _) => m = .hex b none ∧ 0 ≤ char2hex c
  | _ => True

section Enters

variable {c : Int} {data d : Bytes} {ws : List Callback} {t : Option (Mode × Bytes)} {m : Mode}

theorem TakeSpec.enters {b : Base} (h : TakeSpec b c data (m, d)) (m₀ : Mode) : Enters m₀ c m := by
  cases h with
  | escape hc => exact hc
  | byte => trivial

theorem TopSpec.enters (h : TopSpec c data ws t) (ht : t = some (m, d)) (m₀ : Mode) :
    Enters m₀ c m := by
  cases h with
  | unexpected => exact nomatch ht
  | take h =>
    obtain rfl := Option.some.inj ht
    exact h.enters m₀
  | _ =>
    obtain ⟨rfl, -⟩ := Prod.mk.inj (Option.some.inj ht)
    trivial

theorem TextSpec.enters {b : Base} (h : TextSpec c data b ws t) (ht : t = some (m, d))
    (m₀ : Mode) : Enters m₀ c m := by
  cases h with
  | atomEnd hends h => exact h.enters ht m₀
  | unlimited => exact nomatch ht
  | stringEnd =>
    obtain ⟨rfl, -⟩ := Prod.mk.inj (Option.some.inj ht)
    trivial
  | atomTake hends h =>
    obtain rfl := Option.some.inj ht
    exact h.enters m₀
  | stringTake hquote heos h =>
    obtain rfl := Option.some.inj ht
    exact h.enters m₀

theorem CharSpec.enters {m₀ : Mode} (h : CharSpec c data m₀ ws t) (ht : t = some (m, d)) :
    Enters m₀ c m := by
  cases h with
  | top h => exact h.enters ht _
  | text h => exact h.enters ht _
  | hexEnd byte h => exact h.enters ht _
  | escapeEos | hexEmpty => exact nomatch ht
  | escapeHex hx =>
    obtain ⟨rfl, -⟩ := Prod.mk.inj (Option.some.inj ht)
    exact ⟨rfl, hx⟩
  | hexHigh hd =>
    obtain ⟨rfl, -⟩ := Prod.mk.inj (Option.some.inj ht)
    exact ⟨rfl, hd⟩
  | _ =>
    obtain ⟨rfl, -⟩ := Prod.mk.inj (Option.some.inj ht)
    trivial

end Enters

theorem onChar_enters {l l' : Lexer} {c : Int} (h : (l.onChar c).result = .ok l') :
    Enters l.mode c l'.mode :=
  (onChar_spec l c).enters (token_ok h)

end Lexer

section Modes

variable {sg : CharSign} {src : Bytes}

theorem modeAfter_eq_some {m : Mode} :
    modeAfter sg src = some m ↔ ∃ l, (Lexer.start.steps sg src).result = .ok l ∧ l.mode = m := by
  unfold modeAfter
  cases (Lexer.start.steps sg src).result with
  | ok l => simp
  | error e => simp

theorem steps_concat {c : UInt8} {l l' : Lexer} :
    (l.steps sg (src ++ [c])).result = .ok l' ↔
      ∃ l₁, (l.steps sg src).result = .ok l₁ ∧ (l₁.step sg c).result = .ok l' := by
  rw [Lexer.steps_append, Emit.bind_result_ok]
  have hone : ∀ l₁ : Lexer, l₁.steps sg [c] = l₁.step sg c := by
    intro l₁
    show (l₁.step sg c >>= pure) = _
    cases hr : (l₁.step sg c).result with
    | ok a =>
      rw [Emit.bind_ok hr]
      ext1
      · exact List.append_nil _
      · exact hr.symm
    | error e =>
      rw [Emit.bind_error hr]
      ext1
      · rfl
      · exact hr.symm
  simp only [hone]

/-- A mode inside an escape is entered by the last character. -/
theorem modeAfter_enters {m : Mode} (h : modeAfter sg src = some m) (hm : m ≠ .top) :
    ∃ s c m₁, src = s ++ [c] ∧ modeAfter sg s = some m₁ ∧ Lexer.Enters m₁ (sg.toInt c) m := by
  obtain ⟨l, hl, rfl⟩ := modeAfter_eq_some.mp h
  rcases List.eq_nil_or_concat src with rfl | ⟨s, c, rfl⟩
  · obtain rfl := Except.ok.inj hl
    exact absurd rfl hm
  · rw [List.concat_eq_append] at hl ⊢
    obtain ⟨l₁, hs, hc⟩ := steps_concat.mp hl
    have henters := Lexer.onChar_enters (l := { l₁ with tellg := l₁.tellg + 1 }) hc
    exact ⟨s, c, l₁.mode, rfl, modeAfter_eq_some.mpr ⟨l₁, hs, rfl⟩, henters⟩

/-- A character after a text that ends in the mode `m`. -/
theorem modeAfter_step {c : UInt8} {m m' : Mode} (h : modeAfter sg src = some m)
    (hstep : ∀ l : Lexer, l.mode = m → ∃ l', (l.step sg c).result = .ok l' ∧ l'.mode = m') :
    modeAfter sg (src ++ [c]) = some m' := by
  obtain ⟨l, hl, hm⟩ := modeAfter_eq_some.mp h
  obtain ⟨l', hl', hm'⟩ := hstep l hm
  exact modeAfter_eq_some.mpr ⟨l', steps_concat.mpr ⟨l, hl, hl'⟩, hm'⟩

/-- Ending in a hex escape, as the lexer sees it. -/
theorem endsInHex_iff :
    EndsInHex sg src ↔ ∃ b high, modeAfter sg src = some (.hex b high) := by
  have hx : ∀ {pre : Bytes} {b : Base}, modeAfter sg (pre ++ [0x5c]) = some (.escape b) →
      modeAfter sg (pre ++ [0x5c, 0x78]) = some (.hex b none) := by
    intro pre b h
    rw [show pre ++ [0x5c, 0x78] = pre ++ [0x5c] ++ [0x78] by simp]
    refine modeAfter_step h ?_
    rintro ⟨mode, level, data, pos⟩ rfl
    exact ⟨⟨.hex b none, level, data, pos + 1⟩, by cases sg <;> rfl, rfl⟩
  have hnone : ∀ {s : Bytes} {b : Base}, modeAfter sg s = some (.hex b none) →
      ∃ pre, modeAfter sg (pre ++ [0x5c]) = some (.escape b) ∧ s = pre ++ [0x5c, 0x78] := by
    intro s b h
    obtain ⟨s₁, c, m, rfl, hm, rfl, hc⟩ := modeAfter_enters h (by simp)
    obtain ⟨pre, c', m', rfl, -, hc'⟩ := modeAfter_enters hm (by simp)
    obtain rfl := (toInt_eq_ord sg c (by decide)).mp hc
    obtain rfl := (toInt_eq_ord sg c' (by decide)).mp hc'
    refine ⟨pre, hm, ?_⟩
    rw [List.append_assoc]
    rfl
  constructor
  · rintro ⟨pre, b, hpre, rfl | ⟨d, n, hd, rfl⟩⟩
    · exact ⟨b, none, hx hpre⟩
    · refine ⟨b, some ((n : Int) <<< (4 : Nat)), ?_⟩
      rw [show pre ++ [0x5c, 0x78, d] = pre ++ [0x5c, 0x78] ++ [d] by simp]
      refine modeAfter_step (hx hpre) ?_
      rintro ⟨mode, level, data, pos⟩ rfl
      refine ⟨⟨.hex b (some ((n : Int) <<< (4 : Nat))), level, data, pos + 1⟩, ?_, rfl⟩
      show (if 0 ≤ char2hex (sg.toInt d) then _ else _ : Lexer.Scan Lexer).result = _
      rw [char2hex_hexDigit sg hd, if_pos (Int.natCast_nonneg n)]
      rfl
  · rintro ⟨b, high, h⟩
    cases high with
    | none =>
      obtain ⟨pre, hpre, rfl⟩ := hnone h
      exact ⟨pre, b, hpre, Or.inl rfl⟩
    | some high =>
      obtain ⟨s, d, m, rfl, hm, rfl, hd⟩ := modeAfter_enters h (by simp)
      obtain ⟨pre, hpre, rfl⟩ := hnone hm
      obtain ⟨n, hn⟩ := hexDigit_of_char2hex sg hd
      refine ⟨pre, b, hpre, Or.inr ⟨d, n, hn, ?_⟩⟩
      rw [List.append_assoc]
      rfl

end Modes

/-! ## Accepted texts -/

/-- The lexer reads what follows a text in the state the text leaves it in. -/
theorem scan_append_of_steps {sg : CharSign} {src : Bytes} {l : Lexer}
    (hl : (Lexer.start.steps sg src).result = .ok l) (k : Bytes) :
    Lexer.scan sg (src ++ k) = (l.scanFrom sg k).after (Lexer.start.steps sg src).events := by
  rw [show Lexer.scan sg (src ++ k) = Lexer.start.scanFrom sg (src ++ k) from rfl,
    Lexer.scanFrom_append, Emit.bind_ok hl]

theorem scan_of_steps {sg : CharSign} {src : Bytes} {l : Lexer}
    (hl : (Lexer.start.steps sg src).result = .ok l) :
    Lexer.scan sg src = (l.scanFrom sg []).after (Lexer.start.steps sg src).events := by
  have hsrc := scan_append_of_steps hl []
  rw [List.append_nil] at hsrc
  exact hsrc

/-- A text that ends in a hex escape is accepted without its token, which a newline
after it would deliver if it is an atom. -/
theorem not_endsClean_of_hex {sg : CharSign} {src : Bytes} {b : Base} {high : Option Int}
    (hmode : modeAfter sg src = some (.hex b high)) : ¬ EndsClean sg src := by
  intro hclean
  obtain ⟨⟨mode, level, data, pos⟩, hl, rfl⟩ := modeAfter_eq_some.mp hmode
  have hok : parse recorder sg src [] =
      .ok () ([] ++ ((Lexer.start.steps sg src).events ++ [.onEof])) := by
    rw [parse_eq_play, recorder_play, scan_of_steps hl]
    rfl
  obtain ⟨hinside, hnl⟩ := hclean Empty (List Callback) recorder recorder_ok _ _ hok
  cases high with
  | none => exact hinside (Or.inl ⟨b, Or.inr hmode⟩)
  | some high =>
    cases b with
    | string => exact hinside (Or.inr (Or.inr ⟨high, hmode⟩))
    | atom =>
      -- the newline delivers the atom that the end of the input drops
      have hatom : Lexer.scanFrom sg ⟨.hex .atom (some high), level, data, pos⟩ [0x0a] =
          ⟨[.onAtom (data ++ [toChar high]), .onEof], .ok ()⟩ := by
        cases sg <;> rfl
      rw [parse_eq_play, recorder_play, scan_append_of_steps hl, hatom] at hnl
      have hlog := (EStateM.Result.ok.inj hnl).2
      have hlen := congrArg List.length hlog
      simp only [Emit.after, List.length_append, List.length_cons, List.length_nil] at hlen
      omega

/-- A text is accepted between two tokens, in a comment, in an atom or in a hex escape. -/
theorem accepted_mode {sg : CharSign} {l : Lexer} (hend : (l.scanFrom sg []).result = .ok ()) :
    (l.mode = .top ∨ l.mode = .comment ∨ l.mode = .text .atom) ∨
      ∃ b high, l.mode = .hex b high := by
  obtain ⟨mode, level, data, pos⟩ := l
  cases mode with
  | top => exact Or.inl (Or.inl rfl)
  | comment => exact Or.inl (Or.inr (Or.inl rfl))
  | text b =>
    cases b with
    | atom => exact Or.inl (Or.inr (Or.inr rfl))
    | string => cases hend
  | escape b => cases hend
  | hex b high => exact Or.inr ⟨b, high, rfl⟩

/-- Outside of escapes and strings a newline at the end makes no difference. -/
theorem scanFrom_newline {sg : CharSign} {l : Lexer}
    (hplain : l.mode = .top ∨ l.mode = .comment ∨ l.mode = .text .atom) :
    l.scanFrom sg [0x0a] = l.scanFrom sg [] := by
  obtain ⟨mode, level, data, pos⟩ := l
  rcases hplain with h | h | h
  · obtain rfl : mode = .top := h
    cases sg <;> rfl
  · obtain rfl : mode = .comment := h
    cases sg <;> rfl
  · obtain rfl : mode = .text .atom := h
    cases sg <;> rfl

/-- **Which accepted texts end cleanly.** Exactly those that do not end in a hex
escape of a token. -/
theorem endsClean_iff (sg : CharSign) (src : Bytes) :
    EndsClean sg src ↔ ¬ EndsInHex sg src := by
  constructor
  · intro hclean hhex
    obtain ⟨b, high, hmode⟩ := endsInHex_iff.mp hhex
    exact not_endsClean_of_hex hmode hclean
  · intro hhex ε η h hnothrow s s' hok
    -- a text that is accepted is one the lexer has no error for
    have hresult : ∃ l, (Lexer.start.steps sg src).result = .ok l ∧
        (l.scanFrom sg []).result = .ok () := by
      cases hr : (Lexer.scan sg src).result with
      | error e =>
        obtain ⟨s₁, hthrow⟩ := play_throws hnothrow hr s
        rw [parse_eq_play, hthrow] at hok
        exact absurd hok (by simp)
      | ok u =>
        obtain ⟨l, hl, hend⟩ := Emit.bind_result_ok.mp hr
        exact ⟨l, hl, hend⟩
    obtain ⟨l, hl, hend⟩ := hresult
    have hmode : modeAfter sg src = some l.mode := modeAfter_eq_some.mpr ⟨l, hl, rfl⟩
    have hplain : l.mode = .top ∨ l.mode = .comment ∨ l.mode = .text .atom := by
      rcases accepted_mode hend with hplain | ⟨b, high, hmode'⟩
      · exact hplain
      · rw [hmode'] at hmode
        exact absurd (endsInHex_iff.mpr ⟨b, high, hmode⟩) hhex
    refine ⟨?_, ?_⟩
    · unfold EndsInside
      rw [hmode]
      rcases hplain with hplain | hplain | hplain
      · simp [hplain]
      · simp [hplain]
      · simp [hplain]
    · have hsame : Lexer.scan sg (src ++ [0x0a]) = Lexer.scan sg src := by
        rw [scan_append_of_steps hl, scan_of_steps hl, scanFrom_newline hplain]
      rw [parse_eq_play, hsame, ← parse_eq_play]
      exact hok

/-- The atom `\x4` is dropped. -/
theorem hex_dropped : ¬ ∀ (sg : CharSign) (src : Bytes), EndsClean sg src :=
  fun hall => by
    have hclean := hall .signed (ascii "\\x4") Empty (List Callback) recorder recorder_ok []
      [.onEof] (by rfl)
    have hnl : parse recorder .signed (ascii "\\x4" ++ [0x0a]) [] =
        .ok () [.onAtom [0x40], .onEof] := by rfl
    have hsame := hclean.2.symm.trans hnl
    exact absurd hsame (by simp)

end Cor.Sexp

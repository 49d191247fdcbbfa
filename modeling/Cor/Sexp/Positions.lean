import Cor.Sexp.EndOfInput

/-!
# Positions, prefixes, and texts one after another

The lexer never looks ahead, and the position is the only thing in it that remembers
how much was read. Two consequences for `parse`:

* `parse_error_at`: an error is thrown at the first character that no accepted text has
  there, and names its position. What was read before that character can be continued
  to a text that is accepted, and nothing that follows it makes a difference. Only the
  end of the input has the position `-1`.
* `parse_append`: a text that ends between two tokens with no list open (`Complete`) may
  be parsed by itself. Parsing what follows by another call makes the same calls of the
  handler and throws the same exceptions; only the positions then count from the start
  of the second text.
-/

namespace Cor.Sexp

open Lib (Emit)

/-! ## The position -/

namespace Lexer

variable {sg : CharSign}

/-- The lexer `n` characters further on. -/
def later (n : Int) (l : Lexer) : Lexer := { l with tellg := l.tellg + n }

/-- What the lexer does, `n` characters further on. -/
def shift (n : Int) (x : Scan Lexer) : Scan Lexer where
  events := x.events
  result :=
    match x.result with
    | .ok l => .ok (l.later n)
    | .error e => .error { e with pos := e.pos + n }

theorem take_later (n : Int) (l : Lexer) (b : Base) (c : Int) :
    (l.later n).take b c = (l.take b c).later n := by
  unfold take
  split <;> rfl

theorem atTop_later (n : Int) (l : Lexer) (c : Int) :
    (l.later n).atTop c = shift n (l.atTop c) := by
  unfold atTop
  split
  · show (if l.level = 0 then _ else _) = _
    split <;> rfl
  split
  · rfl
  split
  · rfl
  split
  · rfl
  split
  · rfl
  split
  · rfl
  · exact congrArg Pure.pure (take_later n { l with data := [] } .atom c)

/-- A call before what comes next. -/
theorem shift_after (n : Int) (ws : List Callback) (x : Scan Lexer) :
    shift n (x.after ws) = (shift n x).after ws := rfl

theorem inText_later (n : Int) (l : Lexer) (b : Base) (c : Int) :
    (l.later n).inText b c = shift n (l.inText b c) := by
  cases b with
  | atom =>
    show (l.later n).inAtom c = shift n (l.inAtom c)
    unfold inAtom
    split
    · show ((l.toTop.later n).atTop c).after [.onAtom l.data] =
        shift n ((l.toTop.atTop c).after [.onAtom l.data])
      rw [atTop_later, shift_after]
    · exact congrArg Pure.pure (take_later n l .atom c)
  | string =>
    show (l.later n).inString c = shift n (l.inString c)
    unfold inString
    split
    · rfl
    split
    · rfl
    · exact congrArg Pure.pure (take_later n l .string c)

theorem onChar_later (n : Int) (l : Lexer) (c : Int) :
    (l.later n).onChar c = shift n (l.onChar c) := by
  obtain ⟨mode, level, data, pos⟩ := l
  cases mode with
  | top => exact atTop_later n ⟨.top, level, data, pos⟩ c
  | comment =>
    unfold onChar later
    dsimp only
    split <;> rfl
  | text b => exact inText_later n ⟨.text b, level, data, pos⟩ b c
  | escape b =>
    unfold onChar later
    dsimp only
    split
    · rfl
    split <;> rfl
  | hex b high =>
    cases high with
    | none =>
      unfold onChar later
      dsimp only
      split <;> rfl
    | some high =>
      unfold onChar
      dsimp only [later]
      split
      · exact inText_later n (push ⟨.hex b (some high), level, data, pos⟩ b _) b c
      · exact inText_later n (push ⟨.hex b (some high), level, data, pos⟩ b _) b c

theorem step_later (n : Int) (l : Lexer) (b : UInt8) :
    (l.later n).step sg b = shift n (l.step sg b) := by
  have hpos : ({ l.later n with tellg := (l.later n).tellg + 1 } : Lexer) =
      later n { l with tellg := l.tellg + 1 } := by
    show (⟨l.mode, l.level, l.data, l.tellg + n + 1⟩ : Lexer) =
      ⟨l.mode, l.level, l.data, l.tellg + 1 + n⟩
    congr 1
    omega
  unfold step
  rw [hpos]
  exact onChar_later n _ _

/-- **The position is only remembered.** -/
theorem steps_later (sg : CharSign) (n : Int) : ∀ (src : Bytes) (l : Lexer),
    (l.later n).steps sg src = shift n (l.steps sg src)
  | [], _ => rfl
  | b :: src, l => by
    show ((l.later n).step sg b >>= fun l' => l'.steps sg src) =
      shift n (l.step sg b >>= fun l' => l'.steps sg src)
    rw [step_later]
    cases hres : (l.step sg b).result with
    | error e =>
      have hshift : (shift n (l.step sg b)).result = .error { e with pos := e.pos + n } := by
        simp only [shift, hres]
      rw [Emit.bind_error hres, Emit.bind_error hshift]
      rfl
    | ok l₁ =>
      have hshift : (shift n (l.step sg b)).result = .ok (l₁.later n) := by
        simp only [shift, hres]
      rw [Emit.bind_ok hres, Emit.bind_ok hshift, steps_later sg n src l₁]
      rfl

/-! ### Where an error is -/

/-- A result of the lexer at the position `n`. -/
def At (n : Int) (x : Scan Lexer) : Prop :=
  (∀ l, x.result = .ok l → l.tellg = n ∧ (l.mode = .top → l.data = [])) ∧
    ∀ e, x.result = .error e → e.pos = n

theorem At.pure {n : Int} {l : Lexer} (hpos : l.tellg = n) (hdata : l.mode = .top → l.data = []) :
    At n (Pure.pure l) := by
  refine ⟨fun l' h => ?_, fun e h => by cases h⟩
  obtain rfl := Except.ok.inj h
  exact ⟨hpos, hdata⟩

theorem At.fail {n : Int} {l : Lexer} (hpos : l.tellg = n) (info : String) :
    At n (l.error info) := by
  refine ⟨fun l' h => (by cases h), fun e h => ?_⟩
  obtain rfl := Except.error.inj h
  exact hpos

theorem take_at {n : Int} {l : Lexer} (hpos : l.tellg = n) (b : Base) (c : Int) :
    At n (Pure.pure (l.take b c)) := by
  unfold take
  split
  · exact .pure hpos fun h => by cases h
  · exact .pure hpos fun h => by cases h

theorem atTop_at {n : Int} {l : Lexer} (hpos : l.tellg = n) (hdata : l.data = [])
    (c : Int) : At n (l.atTop c) := by
  unfold atTop
  split
  · split
    · exact .fail hpos _
    · exact At.pure (l := { l with level := l.level - 1 }) hpos fun _ => hdata
  split
  · exact At.pure (l := { l with level := l.level + 1 }) hpos fun _ => hdata
  split
  · exact .pure hpos fun h => by cases h
  split
  · exact .pure hpos fun _ => hdata
  split
  · exact .pure hpos fun h => by cases h
  split
  · exact .pure hpos fun _ => hdata
  · exact take_at (l := { l with data := [] }) hpos .atom c

theorem inText_at {n : Int} {l : Lexer} (hpos : l.tellg = n) (b : Base) (c : Int) :
    At n (l.inText b c) := by
  cases b with
  | atom =>
    show At n (l.inAtom c)
    unfold inAtom
    split
    · exact atTop_at (l := l.toTop) hpos rfl c
    · exact take_at hpos .atom c
  | string =>
    show At n (l.inString c)
    unfold inString
    split
    · exact At.pure (l := l.toTop) hpos fun _ => rfl
    split
    · exact .fail hpos _
    · exact take_at hpos .string c

theorem onChar_at {n : Int} {l : Lexer} (hpos : l.tellg = n) (hdata : l.mode = .top → l.data = [])
    (c : Int) : At n (l.onChar c) := by
  unfold onChar
  split
  next hm => exact atTop_at hpos (hdata hm) c
  next =>
    split
    · exact At.pure (l := l.toTop) hpos fun _ => rfl
    next hm _ => exact .pure hpos fun h => by rw [show l.mode = .comment from hm] at h; cases h
  next => exact inText_at hpos _ c
  next =>
    split
    · exact .fail hpos _
    split
    · exact .pure hpos fun h => by cases h
    · exact .pure hpos fun h => by cases h
  next =>
    split
    · exact .pure hpos fun h => by cases h
    · exact .fail hpos _
  next =>
    split
    · exact inText_at (l := l.push _ _) hpos _ c
    · exact inText_at (l := l.push _ _) hpos _ c

theorem step_at {l : Lexer} (hdata : l.mode = .top → l.data = []) (b : UInt8) :
    At (l.tellg + 1) (l.step sg b) :=
  onChar_at (l := { l with tellg := l.tellg + 1 }) rfl hdata _

/-- The lexer counts the characters, and between tokens it has no data. -/
theorem steps_ok_at : ∀ (src : Bytes) {l l' : Lexer}, (l.mode = .top → l.data = []) →
    (l.steps sg src).result = .ok l' →
      l'.tellg = l.tellg + src.length ∧ (l'.mode = .top → l'.data = [])
  | [], l, l', hdata, h => by
    obtain rfl := Except.ok.inj h
    exact ⟨(Int.add_zero _).symm, hdata⟩
  | b :: src, l, l', hdata, h => by
    obtain ⟨l₁, h₁, h₂⟩ := Emit.bind_result_ok.mp h
    obtain ⟨hpos, hdata₁⟩ := (step_at hdata b).1 l₁ h₁
    obtain ⟨hpos', hdata'⟩ := steps_ok_at src hdata₁ h₂
    refine ⟨?_, hdata'⟩
    rw [hpos', hpos, List.length_cons]
    omega

/-- An error has the position of the character that is one. -/
theorem steps_error_at : ∀ (src : Bytes) {l : Lexer} {e : Error},
    (l.mode = .top → l.data = []) → (l.steps sg src).result = .error e →
      ∃ pre b rest l₁, src = pre ++ b :: rest ∧ (l.steps sg pre).result = .ok l₁ ∧
        (l₁.step sg b).result = .error e ∧ e.pos = l.tellg + pre.length + 1
  | [], l, e, _, h => by cases h
  | b :: src, l, e, hdata, h => by
    cases h₁ : (l.step sg b).result with
    | error e₁ =>
      have hbind : (l.steps sg (b :: src)).result = .error e₁ := by
        show (l.step sg b >>= fun l' => l'.steps sg src).result = _
        rw [Emit.bind_error h₁]
      obtain rfl := Except.error.inj (hbind.symm.trans h)
      refine ⟨[], b, src, l, rfl, rfl, h₁, ?_⟩
      rw [(step_at hdata b).2 _ h₁, List.length_nil]
      omega
    | ok l₁ =>
      have hbind : (l₁.steps sg src).result = .error e := by
        rw [← h]
        show _ = (l.step sg b >>= fun l' => l'.steps sg src).result
        rw [Emit.bind_ok h₁]
        rfl
      obtain ⟨hpos, hdata₁⟩ := (step_at hdata b).1 l₁ h₁
      obtain ⟨pre, c, rest, l₂, rfl, hpre, hc, he⟩ := steps_error_at src hdata₁ hbind
      refine ⟨b :: pre, c, rest, l₂, rfl, ?_, hc, ?_⟩
      · show (l.step sg b >>= fun l' => l'.steps sg pre).result = _
        rw [Emit.bind_ok h₁]
        exact hpre
      · rw [he, hpos, List.length_cons]
        omega

end Lexer

/-! ## Errors and accepted texts -/

/-- The parser itself has no error for the text. -/
def Accepts (sg : CharSign) (src : Bytes) : Prop := (Lexer.scan sg src).result = .ok ()

/-- That is to say: `parse` returns, if the handler lets it. -/
theorem accepts_iff {ε η : Type} {h : Handler ε η} (hok : ∀ w s, ∃ s', h.on w s = .ok () s')
    {sg : CharSign} {src : Bytes} {s : η} :
    Accepts sg src ↔ ∃ s', parse h sg src s = .ok () s' := by
  unfold Accepts
  rw [parse_eq_play]
  constructor
  · intro hres
    obtain ⟨s', hs'⟩ := receives_ok hok (Lexer.scan sg src).events s
    refine ⟨s', ?_⟩
    unfold Handler.play
    rw [Emit.play_apply, show Emit.deliver h.listen _ s = .ok () s' from hs']
    simp only [hres]
  · rintro ⟨s', hs'⟩
    cases hres : (Lexer.scan sg src).result with
    | ok u => rfl
    | error e =>
      obtain ⟨s₁, hthrow⟩ := play_throws hok hres s
      rw [hthrow] at hs'
      cases hs'

/-- From any state of the lexer there is a way to an accepted text. -/
theorem exists_continuation (sg : CharSign) (l : Lexer) :
    ∃ more, (l.scanFrom sg more).result = .ok () := by
  obtain ⟨mode, level, data, pos⟩ := l
  cases mode with
  | top => exact ⟨[], rfl⟩
  | comment => exact ⟨[], rfl⟩
  | text b =>
    cases b with
    | atom => exact ⟨[], rfl⟩
    | string => exact ⟨[0x22], by cases sg <;> rfl⟩
  | escape b =>
    cases b with
    | atom => exact ⟨[0x61], by cases sg <;> rfl⟩
    | string => exact ⟨[0x61, 0x22], by cases sg <;> rfl⟩
  | hex b high => exact ⟨[], rfl⟩

theorem accepts_append {sg : CharSign} {pre : Bytes} {l : Lexer}
    (hl : (Lexer.start.steps sg pre).result = .ok l) (more : Bytes) :
    Accepts sg (pre ++ more) ↔ (l.scanFrom sg more).result = .ok () := by
  unfold Accepts
  rw [scan_append_of_steps hl]
  exact Iff.rfl

/-- What follows an error makes no difference. -/
theorem scan_error_append {sg : CharSign} {pre : Bytes} {b : UInt8} {l : Lexer} {e : Error}
    (hl : (Lexer.start.steps sg pre).result = .ok l) (hb : (l.step sg b).result = .error e)
    (more : Bytes) : Lexer.scan sg (pre ++ b :: more) =
      ⟨(Lexer.start.steps sg pre).events ++ (l.step sg b).events, .error e⟩ := by
  rw [scan_append_of_steps hl, Lexer.scanFrom_cons, Emit.bind_error hb]
  rfl

/-- The errors at the end of the input. -/
theorem scanFrom_nil_error {sg : CharSign} {l : Lexer} {e : Error}
    (h : (l.scanFrom sg []).result = .error e) : e.pos = -1 := by
  obtain ⟨mode, level, data, pos⟩ := l
  cases mode with
  | top => cases h
  | comment => cases h
  | text b =>
    cases b with
    | atom => cases h
    | string => obtain rfl := Except.error.inj h; rfl
  | escape b => obtain rfl := Except.error.inj h; rfl
  | hex b high => cases h

/-- An error of the parser is one of the lexer, not an exception of the handler. -/
theorem scan_of_parse_error {ε η : Type} {h : Handler ε η} {sg : CharSign} {src : Bytes}
    {s s' : η} {e : Error} (hrun : parse h sg src s = .error (.error e) s') :
    (Lexer.scan sg src).result = .error e := by
  have hlisten : ∀ w s₁ s₂, h.listen w s₁ ≠ .error (.error e) s₂ := by
    intro w s₁ s₂ hw
    unfold Handler.listen at hw
    cases hon : h.on w s₁ with
    | ok u s₃ => rw [hon] at hw; cases hw
    | error d s₃ => rw [hon] at hw; cases hw
  rw [parse_eq_play] at hrun
  unfold Handler.play at hrun
  rw [Emit.play_apply] at hrun
  cases hdel : Emit.deliver h.listen (Lexer.scan sg src).events s with
  | error d s₁ =>
    rw [hdel] at hrun
    injection hrun with hd hs
    rw [hd] at hdel
    obtain ⟨w, s₂, hw⟩ := Emit.deliver_error h.listen _ hdel
    exact absurd hw (hlisten w s₂ s₁)
  | ok u s₁ =>
    rw [hdel] at hrun
    cases hres : (Lexer.scan sg src).result with
    | ok v => rw [hres] at hrun; cases hrun
    | error e₁ =>
      rw [hres] at hrun
      injection hrun with he hs
      injection he with he
      rw [he]

/-- **Where an error is.** When `parse` throws an error of its own, then either

* it names the first character that no accepted text has after those before it: they can
  be continued to an accepted text, with this character they cannot, and whatever
  follows it the call of `parse` is the same; or
* the text has come to its end too early: it can be continued to an accepted text, and
  the position is `-1`. -/
theorem parse_error_at {ε η : Type} {h : Handler ε η} {sg : CharSign} {src : Bytes} {s s' : η}
    {e : Error} (hrun : parse h sg src s = .error (.error e) s') :
    (∃ pre b rest, src = pre ++ b :: rest ∧ e.pos = pre.length + 1 ∧
      (∃ more, Accepts sg (pre ++ more)) ∧
      ∀ more, ¬ Accepts sg (pre ++ b :: more) ∧
        parse h sg (pre ++ b :: more) = parse h sg src) ∨
    (e.pos = -1 ∧ ∃ more, Accepts sg (src ++ more)) := by
  have hres : (Lexer.scan sg src).result = .error e := scan_of_parse_error hrun
  cases hsteps : (Lexer.start.steps sg src).result with
  | error e₁ =>
    have hscan : (Lexer.scan sg src).result = .error e₁ := by
      show (Lexer.start.scanFrom sg src).result = _
      unfold Lexer.scanFrom
      rw [Emit.bind_error hsteps]
    obtain rfl := Except.error.inj (hscan.symm.trans hres)
    obtain ⟨pre, b, rest, l, rfl, hl, hb, hpos⟩ := Lexer.steps_error_at src (fun _ => rfl) hsteps
    refine Or.inl ⟨pre, b, rest, rfl, ?_, ?_, fun more => ⟨fun hacc => ?_, ?_⟩⟩
    · rw [hpos]
      show (0 : Int) + _ + 1 = _
      omega
    · obtain ⟨more, hmore⟩ := exists_continuation sg l
      exact ⟨more, (accepts_append hl more).mpr hmore⟩
    · unfold Accepts at hacc
      rw [scan_error_append hl hb] at hacc
      cases hacc
    · rw [parse_eq_play, parse_eq_play, scan_error_append hl hb, scan_error_append hl hb]
  | ok l =>
    refine Or.inr ⟨?_, ?_⟩
    · refine @scanFrom_nil_error sg l _ ?_
      rw [scan_of_steps hsteps] at hres
      exact hres
    · obtain ⟨more, hmore⟩ := exists_continuation sg l
      exact ⟨more, (accepts_append hsteps more).mpr hmore⟩

/-- `a))`, whose second character is the error. -/
theorem parse_error_at_paren : ∃ e s', parse idle .signed [0x61, 0x29, 0x29] () =
    .error (.error e) s' ∧ e.pos = 2 ∧
    ((∃ pre b rest, [0x61, 0x29, 0x29] = pre ++ b :: rest ∧ e.pos = pre.length + 1 ∧
      (∃ more, Accepts .signed (pre ++ more)) ∧
      ∀ more, ¬ Accepts .signed (pre ++ b :: more) ∧
        parse idle .signed (pre ++ b :: more) = parse idle .signed [0x61, 0x29, 0x29]) ∨
    (e.pos = -1 ∧ ∃ more, Accepts .signed ([0x61, 0x29, 0x29] ++ more))) :=
  ⟨_, _, rfl, rfl, parse_error_at (h := idle) (s := ()) rfl⟩

/-! ## Texts one after another -/

/-- The text ends between two tokens, with no list open. -/
def Complete (sg : CharSign) (src : Bytes) : Prop :=
  ∃ l, (Lexer.start.steps sg src).result = .ok l ∧ l.mode = .top ∧ l.level = 0

/-- The error in a text that `n` characters precede. The end of the input has no
position. -/
def Error.later (n : Int) (e : Error) : Error :=
  if e.pos = -1 then e else { e with pos := e.pos + n }

def Fault.later {ε : Type} (n : Int) : Fault ε → Fault ε
  | .error e => .error (e.later n)
  | f => f

/-- A call of `parse` as one for the end of a text, after `n` characters of it. -/
def later {ε η : Type} (n : Int) (x : EStateM (Fault ε) η Unit) : EStateM (Fault ε) η Unit :=
  fun s =>
    match x s with
    | .ok u s' => .ok u s'
    | .error e s' => .error (e.later n) s'

/-- The handler without its `on_eof`. -/
def Handler.muted {ε η : Type} (h : Handler ε η) : Handler ε η := { h with onEof := pure () }

/-- After a complete text the lexer is where it started, but for the position. -/
theorem complete_steps {sg : CharSign} {src : Bytes} (hs : Complete sg src) :
    (Lexer.start.steps sg src).result = .ok (Lexer.start.later src.length) := by
  obtain ⟨⟨mode, level, data, pos⟩, hl, hmode, hlevel⟩ := hs
  obtain ⟨hpos, hdata⟩ := Lexer.steps_ok_at src (fun _ => rfl) hl
  rw [hl]
  obtain rfl : mode = .top := hmode
  obtain rfl : level = 0 := hlevel
  obtain rfl : data = [] := hdata rfl
  obtain rfl : pos = 0 + src.length := hpos
  rfl

namespace Lexer

/-- What the lexer says about the end of a text, after `n` characters of it. -/
def laterScan (n : Int) (x : Scan Unit) : Scan Unit where
  events := x.events
  result := x.result.mapError (Error.later n)

theorem atEos_later (n : Int) (l : Lexer) : (l.later n).atEos = l.atEos := by
  obtain ⟨mode, level, data, pos⟩ := l
  cases mode with
  | text b => cases b <;> rfl
  | _ => rfl

/-- The end of a text after `n` characters. -/
theorem scanFrom_later (sg : CharSign) (n : Nat) (src : Bytes) :
    (start.later n).scanFrom sg src = laterScan n (scan sg src) := by
  show (start.later n).scanFrom sg src = laterScan n (start.scanFrom sg src)
  unfold scanFrom
  rw [steps_later]
  cases hsteps : (start.steps sg src).result with
  | error e =>
    have hshift : (shift n (start.steps sg src)).result = .error { e with pos := e.pos + n } := by
      simp only [shift, hsteps]
    obtain ⟨pre, b, rest, l₁, -, -, -, hpos⟩ := steps_error_at src (fun _ => rfl) hsteps
    -- the position of a character is none of the end of the input
    have hne : e.pos ≠ -1 := by
      rw [hpos]
      show (0 : Int) + pre.length + 1 ≠ -1
      omega
    rw [Emit.bind_error hsteps, Emit.bind_error hshift]
    show (⟨_, .error _⟩ : Scan Unit) = ⟨_, .error (Error.later n e)⟩
    rw [Error.later, if_neg hne]
    rfl
  | ok l =>
    have hshift : (shift n (start.steps sg src)).result = .ok (l.later n) := by
      simp only [shift, hsteps]
    rw [Emit.bind_ok hsteps, Emit.bind_ok hshift, atEos_later]
    obtain ⟨mode, level, data, pos⟩ := l
    cases mode with
    | text b => cases b <;> rfl
    | _ => rfl

/-- The lexer calls `on_eof` at the end only. -/
theorem onChar_no_eof (l : Lexer) (c : Int) : Callback.onEof ∉ (l.onChar c).events := by
  have htop : ∀ {data ws t}, TopSpec c data ws t → Callback.onEof ∉ ws := by
    intro data ws t h
    cases h <;> simp
  have htext : ∀ {data b ws t}, TextSpec c data b ws t → Callback.onEof ∉ ws := by
    intro data b ws t h
    cases h with
    | atomEnd hends h =>
      intro hmem
      rcases List.mem_cons.mp hmem with heq | hmem
      · cases heq
      · exact htop h hmem
    | _ => simp
  have hspec := onChar_spec l c
  revert hspec
  generalize (l.onChar c).events = ws, token (l.onChar c) = t, l.mode = m
  intro hspec
  cases hspec with
  | top h => exact htop h
  | text h => exact htext h
  | hexEnd byte h => exact htext h
  | _ => simp

theorem steps_no_eof (sg : CharSign) : ∀ (src : Bytes) (l : Lexer),
    Callback.onEof ∉ (l.steps sg src).events
  | [], l => List.not_mem_nil
  | b :: src, l => by
    have hone : Callback.onEof ∉ (l.step sg b).events := onChar_no_eof _ _
    show Callback.onEof ∉ (l.step sg b >>= fun l' => l'.steps sg src).events
    cases h₁ : (l.step sg b).result with
    | error e =>
      rw [Emit.bind_error h₁]
      exact hone
    | ok l₁ =>
      rw [Emit.bind_ok h₁]
      intro hmem
      rcases List.mem_append.mp hmem with hmem | hmem
      · exact hone hmem
      · exact steps_no_eof sg src l₁ hmem

end Lexer

section

variable {ε η : Type} (h : Handler ε η)

/-- Without `on_eof` among the calls, its absence is not noticed. -/
theorem receives_muted : ∀ (ws : List Callback), .onEof ∉ ws → h.muted.receives ws = h.receives ws
  | [], _ => rfl
  | w :: ws, hno => by
    rw [List.mem_cons, not_or] at hno
    funext s
    have hw : h.muted.listen w = h.listen w := by
      cases w with
      | onEof => exact absurd rfl hno.1
      | _ => rfl
    rw [receives_cons, receives_cons, hw, receives_muted ws hno.2]

theorem play_later (n : Int) (x : Lexer.Scan Unit) :
    h.play (Lexer.laterScan n x) = later n (h.play x) := by
  funext s
  unfold later Handler.play
  rw [Emit.play_apply, Emit.play_apply]
  have hlisten : ∀ w s₁ e s₂, h.listen w s₁ = .error e s₂ → e.later n = e := by
    intro w s₁ e s₂ hw
    unfold Handler.listen at hw
    cases hon : h.on w s₁ with
    | ok u s₃ => rw [hon] at hw; cases hw
    | error d s₃ =>
      rw [hon] at hw
      injection hw with he hs
      rw [← he]
      rfl
  have hevents : (Lexer.laterScan n x).events = x.events := rfl
  rw [hevents]
  cases hdel : Emit.deliver h.listen x.events s with
  | error d s₁ =>
    obtain ⟨w, s₂, hw⟩ := Emit.deliver_error h.listen _ hdel
    simp only [hlisten w s₂ d s₁ hw]
  | ok u s₁ =>
    obtain ⟨events, result⟩ := x
    cases result <;> rfl

/-- A complete text without its end. -/
theorem parse_muted {sg : CharSign} {src : Bytes} (hs : Complete sg src) :
    parse h.muted sg src = h.receives (Lexer.start.steps sg src).events := by
  have hscan : Lexer.scan sg src = ⟨(Lexer.start.steps sg src).events ++ [.onEof], .ok ()⟩ := by
    rw [scan_of_steps (complete_steps hs)]
    rfl
  rw [parse_receives hscan, ← receives_muted h _ (Lexer.steps_no_eof sg src _)]
  funext s
  rw [receives_append]
  cases h.muted.receives (Lexer.start.steps sg src).events s with
  | ok u s' => rfl
  | error e s' => rfl

/-- The end of a text, after a first part that is complete, may be parsed by a call of its
own. -/
theorem parse_append {sg : CharSign} {s₁ : Bytes} (hs : Complete sg s₁) (s₂ : Bytes) :
    parse h sg (s₁ ++ s₂) =
      (parse h.muted sg s₁ >>= fun _ => later s₁.length (parse h sg s₂)) := by
  rw [parse_muted h hs, parse_eq_play, parse_eq_play, ← play_later,
    scan_append_of_steps (complete_steps hs), Lexer.scanFrom_later]
  unfold Handler.play
  rw [Emit.play_after]
  rfl

/-- What follows a complete text is read as from the start. -/
theorem complete_append {sg : CharSign} {s₁ s₂ : Bytes} (h₁ : Complete sg s₁)
    (h₂ : Complete sg s₂) : Complete sg (s₁ ++ s₂) ∧
      (Lexer.start.steps sg (s₁ ++ s₂)).events =
        (Lexer.start.steps sg s₁).events ++ (Lexer.start.steps sg s₂).events := by
  have hsteps : Lexer.start.steps sg (s₁ ++ s₂) =
      (Lexer.shift s₁.length (Lexer.start.steps sg s₂)).after (Lexer.start.steps sg s₁).events := by
    rw [Lexer.steps_append, Emit.bind_ok (complete_steps h₁), Lexer.steps_later]
  obtain ⟨l, hl, hmode, hlevel⟩ := h₂
  rw [Complete, hsteps]
  refine ⟨⟨l.later s₁.length, ?_, hmode, hlevel⟩, rfl⟩
  show (Lexer.shift s₁.length (Lexer.start.steps sg s₂)).result = _
  simp only [Lexer.shift, hl]

theorem parse_muted_flatten {sg : CharSign} : ∀ (texts : List Bytes),
    (∀ t ∈ texts, Complete sg t) → Complete sg texts.flatten ∧
      h.receives (Lexer.start.steps sg texts.flatten).events = texts.forM (parse h.muted sg)
  | [], _ => ⟨⟨Lexer.start, rfl, rfl, rfl⟩, rfl⟩
  | t :: texts, hall => by
    have ht := hall t List.mem_cons_self
    obtain ⟨hrest, hforM⟩ :=
      parse_muted_flatten texts fun t' ht' => hall t' (List.mem_cons_of_mem t ht')
    obtain ⟨hjoined, hevents⟩ := complete_append ht hrest
    refine ⟨hjoined, ?_⟩
    show h.receives (Lexer.start.steps sg (t ++ texts.flatten)).events =
      (parse h.muted sg t >>= fun _ => texts.forM (parse h.muted sg))
    rw [hevents, parse_muted h ht, ← hforM]
    funext s
    rw [receives_append, Emit.bind_apply]
    cases h.receives (Lexer.start.steps sg t).events s <;> rfl

/-- **Texts one after another.** A text that begins with any number of complete parts may be
parsed part by part, by as many calls, of which only the last one ends with `on_eof`. -/
theorem parse_inputs {sg : CharSign} {texts : List Bytes} (hall : ∀ t ∈ texts, Complete sg t)
    (last : Bytes) : parse h sg (texts.flatten ++ last) =
      (texts.forM (parse h.muted sg) >>= fun _ =>
        later texts.flatten.length (parse h sg last)) := by
  obtain ⟨hcomplete, hforM⟩ := parse_muted_flatten h texts hall
  rw [parse_append h hcomplete, parse_muted h hcomplete, hforM]

end

/-- `(a)` and ` ` are complete, and the `)` after them is the fifth character. -/
theorem parse_inputs_paren :
    parse idle .signed ([[0x28, 0x61, 0x29], [0x20]].flatten ++ [0x29]) =
      ([[0x28, 0x61, 0x29], [0x20]].forM (parse idle.muted .signed) >>= fun _ =>
        later 4 (parse idle .signed [0x29])) := by
  refine parse_inputs idle (fun t ht => ?_) [0x29]
  rcases List.mem_cons.mp ht with rfl | ht
  · exact ⟨_, rfl, rfl, rfl⟩
  · rw [List.mem_singleton] at ht
    subst ht
    exact ⟨_, rfl, rfl, rfl⟩

end Cor.Sexp

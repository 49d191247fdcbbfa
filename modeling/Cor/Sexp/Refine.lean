import Cor.Sexp.Flat

/-!
# `parse` is the lexer played to the handler

`Repr l m` says that the machine `m` is in the lexer state `l`: the rule and the
return stack are functions of the mode. `feed_follows` is the simulation of one
character, through as many rule applications as it takes, with whatever the
handler does at the event in between; `parse_eq_play` is the result for a whole
text: `parse` against a handler is `scan` played to it, for every handler and
every text. In particular the return stack is never read empty and four rule
applications are always enough.
-/

namespace Cor.Sexp

open Lib (Emit)

def Base.rule : Base → Rule
  | .string => .inString
  | .atom => .inAtom

def Mode.rule : Mode → Rule
  | .top => .top
  | .comment => .inComment
  | .text b => b.rule
  | .escape _ => .appendEscaped
  | .hex _ _ => .inHex

def Mode.ctx : Mode → List Rule
  | .escape b => [b.rule]
  | .hex b _ => [.appendEscapedHex, b.rule]
  | _ => []

/-- What `hex_byte` holds. -/
def Mode.Holds : Mode → Int → Prop
  | .hex _ none, v => v = -1
  | .hex _ (some high), v => v = high ∧ 0 ≤ high
  | _, _ => True

/-- The machine of a lexer state, with the value of `hex_byte`. -/
def Lexer.machine (l : Lexer) (hexByte : Int) : Machine where
  rule := l.mode.rule
  ctx := l.mode.ctx
  level := l.level
  data := l.data
  hexByte := hexByte
  tellg := l.tellg

/-- The machine `m` is in the lexer state `l`. -/
def Repr (l : Lexer) (m : Machine) : Prop := ∃ v, l.mode.Holds v ∧ m = l.machine v

theorem start_repr : Repr .start .start := ⟨0, trivial, rfl⟩

variable {ε η α β : Type} (h : Handler ε η)

/-- The calls of the handler. -/
def Handler.on : Callback → EStateM ε η Unit
  | .onListBegin => h.onListBegin
  | .onListEnd => h.onListEnd
  | .onComment s => h.onComment s
  | .onString s => h.onString s
  | .onAtom s => h.onAtom s
  | .onEof => h.onEof

/-- A call with its exceptions as they leave `parse`. -/
def Handler.listen (w : Callback) : EStateM (Fault ε) η Unit := fun s =>
  match h.on w s with
  | .ok () s' => .ok () s'
  | .error e s' => .error (.handler e) s'

/-- Scanning against a handler. -/
def Handler.play (x : Lexer.Scan α) : EStateM (Fault ε) η α :=
  Emit.play h.listen Fault.error x

theorem play_event (w : Callback) (f : Unit → Lexer.Scan α) (s : η) :
    h.play (Emit.event w >>= f) s = match h.on w s with
      | .ok () s' => h.play (f ()) s'
      | .error e s' => .error (.handler e) s' := by
  unfold Handler.play
  rw [Emit.play_bind, Emit.play_event, Emit.bind_apply]
  unfold Handler.listen
  cases h.on w s <;> rfl

/-! ## One application of a rule -/

section Rules

theorem dispatch_stay {c : Int} {n : Nat} {st st' : Machine × η}
    (hr : applyRule h c st = .ok .stay st') : dispatch h c (n + 1) st = dispatch h c n st' := by
  show (applyRule h c >>= _) st = _
  rw [Emit.bind_apply, hr]

theorem dispatch_skip {c : Int} {n : Nat} {st st' : Machine × η}
    (hr : applyRule h c st = .ok .skip st') : dispatch h c (n + 1) st = .ok () st' := by
  show (applyRule h c >>= _) st = _
  rw [Emit.bind_apply, hr]
  rfl

theorem dispatch_error {c : Int} {n : Nat} {st st' : Machine × η} {e : Fault ε}
    (hr : applyRule h c st = .error e st') : dispatch h c (n + 1) st = .error e st' := by
  show (applyRule h c >>= _) st = _
  rw [Emit.bind_apply, hr]

theorem call_run (x : EStateM ε η Unit) (m : Machine) (s : η) :
    (call x : RuleM ε η Unit) (m, s) = match x s with
      | .ok () s' => .ok () (m, s')
      | .error e s' => .error (.handler e) (m, s') := rfl

end Rules

/-! ## The simulation of one character -/

/-- The machine came out in a state of the lexer, with the handler in the same
state, or both stopped alike. -/
def Follows (x : EStateM.Result (Fault ε) (Machine × η) Unit)
    (y : EStateM.Result (Fault ε) η Lexer) : Prop :=
  match y with
  | .ok l s' => ∃ m, x = .ok () (m, s') ∧ Repr l m
  | .error e s' => ∃ m, x = .error e (m, s')

section Simulation

variable {h} {s : η} {c : Int} {n : Nat}

/-- Without an event nothing depends on the handler. -/
theorem follows_pure {x : EStateM.Result (Fault ε) (Machine × η) Unit} {l : Lexer} (v : Int)
    (hv : l.mode.Holds v) (hx : x = .ok () (l.machine v, s)) : Follows x (h.play (pure l) s) :=
  ⟨l.machine v, hx, v, hv, rfl⟩

/-- An event: the handler returns and both go on, or it throws and both stop. -/
theorem follows_event {x : EStateM.Result (Fault ε) (Machine × η) Unit} {w : Callback}
    {f : Unit → Lexer.Scan Lexer}
    (hok : ∀ s', h.on w s = .ok () s' → Follows x (h.play (f ()) s'))
    (herr : ∀ e s', h.on w s = .error e s' → ∃ m, x = .error (.handler e) (m, s')) :
    Follows x (h.play (Emit.event w >>= f) s) := by
  rw [play_event]
  cases hw : h.on w s with
  | ok u s' => exact hok s' hw
  | error e s' => exact herr e s' hw

/-- A rule that makes a call: the handler returns and the rule goes on with `k`, or it
throws and both stop. -/
theorem follows_call {w : Callback} {m₀ m₁ : Machine} {k : Unit → RuleM ε η Action}
    {f : Unit → Lexer.Scan Lexer}
    (hrule : applyRule h c (m₀, s) = (call (h.on w) >>= k) (m₁, s))
    (hk : ∀ s', applyRule h c (m₀, s) = k () (m₁, s') →
      Follows (dispatch h c (n + 1) (m₀, s)) (h.play (f ()) s')) :
    Follows (dispatch h c (n + 1) (m₀, s)) (h.play (Emit.event w >>= f) s) := by
  rw [Emit.bind_apply, call_run] at hrule
  refine follows_event (fun s' hs' => hk s' ?_) (fun e s' hs' => ⟨m₁, dispatch_error h ?_⟩)
  · rw [hrule, hs']
  · rw [hrule, hs']

/-- `top` on a character that ends an atom. -/
theorem follows_top_ends {level : UInt32} {data : Bytes} {pos v : Int}
    (hc : Lexer.endsAtom c = true) :
    Follows (dispatch h c (n + 1) (Lexer.machine ⟨.top, level, data, pos⟩ v, s))
      (h.play (Lexer.atTop ⟨.top, level, data, pos⟩ c) s) := by
  have hrule : applyRule h c (Lexer.machine ⟨.top, level, data, pos⟩ v, s) =
      top h c (Lexer.machine ⟨.top, level, data, pos⟩ v, s) := rfl
  unfold Lexer.atTop
  unfold top at hrule
  by_cases hclose : c = ord ')'
  · rw [if_pos hclose]
    rw [if_pos hclose, Emit.bind_apply] at hrule
    by_cases h0 : level = 0
    · subst h0
      rw [if_pos rfl]
      exact ⟨_, dispatch_error h hrule⟩
    · rw [if_neg h0]
      have hcall : applyRule h c (Lexer.machine ⟨.top, level, data, pos⟩ v, s) =
          (call h.onListEnd >>= fun _ => pure Action.skip)
            (Lexer.machine ⟨.top, level - 1, data, pos⟩ v, s) := by
        rw [hrule]
        show (if level = 0 then _ else _ : RuleM ε η Action) _ = _
        rw [if_neg h0]
        rfl
      exact follows_call (w := .onListEnd) hcall fun s' hs' =>
        follows_pure v trivial (dispatch_skip h hs')
  rw [if_neg hclose]
  rw [if_neg hclose] at hrule
  by_cases hopen : c = ord '('
  · rw [if_pos hopen]
    rw [if_pos hopen] at hrule
    have hcall : applyRule h c (Lexer.machine ⟨.top, level, data, pos⟩ v, s) =
        (call h.onListBegin >>= fun _ => pure Action.skip)
          (Lexer.machine ⟨.top, level + 1, data, pos⟩ v, s) := hrule
    exact follows_call (w := .onListBegin) hcall fun s' hs' =>
      follows_pure v trivial (dispatch_skip h hs')
  rw [if_neg hopen]
  rw [if_neg hopen] at hrule
  have hsemi : c ≠ ord ';' := by
    rintro rfl
    exact absurd hc (by decide)
  rw [if_neg hsemi]
  rw [if_neg hsemi] at hrule
  by_cases hspace : isspace c = true
  · rw [if_pos hspace]
    rw [if_pos hspace] at hrule
    exact follows_pure v trivial (dispatch_skip h hrule)
  · have heos : c = eos := by
      simpa [Lexer.endsAtom, hclose, hopen, hspace] using hc
    subst heos
    exact follows_pure v trivial (dispatch_skip h hrule)

/-- `in_atom` on a character of the atom. -/
theorem inAtom_take {level : UInt32} {data : Bytes} {pos v : Int}
    (hb : isBound c = true ↔ c = ord '(' ∨ c = ord ')') (hc : Lexer.endsAtom c = false) :
    applyRule h c (Lexer.machine ⟨.text .atom, level, data, pos⟩ v, s) =
      .ok .skip ((Lexer.take ⟨.text .atom, level, data, pos⟩ .atom c).machine v, s) := by
  have hrule : applyRule h c (Lexer.machine ⟨.text .atom, level, data, pos⟩ v, s) =
      inAtom h c (Lexer.machine ⟨.text .atom, level, data, pos⟩ v, s) := rfl
  have hends : ¬ (isBound c = true ∨ isspace c = true ∨ c = eos) := by
    simp only [Lexer.endsAtom, decide_eq_false_iff_not, not_or] at hc
    rw [hb]
    tauto
  unfold inAtom at hrule
  rw [if_neg hends] at hrule
  unfold Lexer.take
  by_cases hesc : c = ord '\\'
  · rw [if_pos hesc]
    rw [if_pos hesc] at hrule
    exact hrule
  · rw [if_neg hesc]
    rw [if_neg hesc] at hrule
    exact hrule

/-- `top` on any character, which may be the first of an atom. -/
theorem follows_top {level : UInt32} {data : Bytes} {pos v : Int}
    (hb : isBound c = true ↔ c = ord '(' ∨ c = ord ')') :
    Follows (dispatch h c (n + 2) (Lexer.machine ⟨.top, level, data, pos⟩ v, s))
      (h.play (Lexer.atTop ⟨.top, level, data, pos⟩ c) s) := by
  cases hc : Lexer.endsAtom c with
  | true => exact follows_top_ends hc
  | false =>
    have hrule : applyRule h c (Lexer.machine ⟨.top, level, data, pos⟩ v, s) =
        top h c (Lexer.machine ⟨.top, level, data, pos⟩ v, s) := rfl
    obtain ⟨hopen, hclose, hspace, heos⟩ :
        c ≠ ord '(' ∧ c ≠ ord ')' ∧ ¬ isspace c = true ∧ c ≠ eos := by
      simpa [Lexer.endsAtom, not_or] using hc
    unfold Lexer.atTop
    unfold top at hrule
    rw [if_neg hclose, if_neg hopen]
    rw [if_neg hclose, if_neg hopen] at hrule
    by_cases hsemi : c = ord ';'
    · rw [if_pos hsemi]
      rw [if_pos hsemi] at hrule
      exact follows_pure v trivial (dispatch_skip h hrule)
    rw [if_neg hsemi, if_neg hspace]
    rw [if_neg hsemi, if_neg hspace] at hrule
    by_cases hquote : c = ord '"'
    · rw [if_pos hquote]
      rw [if_pos hquote] at hrule
      exact follows_pure v trivial (dispatch_skip h hrule)
    rw [if_neg hquote, if_neg heos]
    rw [if_neg hquote, if_pos heos] at hrule
    -- the rule stays, and `in_atom` takes the character
    have hatom : applyRule h c (Lexer.machine ⟨.text .atom, level, [], pos⟩ v, s) =
        .ok .skip ((Lexer.take ⟨.top, level, [], pos⟩ .atom c).machine v, s) := inAtom_take hb hc
    have hrun := (dispatch_stay h (n := n + 1) hrule).trans (dispatch_skip h hatom)
    refine follows_pure v ?_ hrun
    unfold Lexer.take
    split <;> trivial

/-- The rule of a token. -/
theorem follows_text {b : Base} {level : UInt32} {data : Bytes} {pos v : Int}
    (hb : isBound c = true ↔ c = ord '(' ∨ c = ord ')') :
    Follows (dispatch h c (n + 2) (Lexer.machine ⟨.text b, level, data, pos⟩ v, s))
      (h.play (Lexer.inText ⟨.text b, level, data, pos⟩ b c) s) := by
  cases b with
  | atom =>
    show Follows _ (h.play (Lexer.inAtom ⟨.text .atom, level, data, pos⟩ c) s)
    unfold Lexer.inAtom
    cases hc : Lexer.endsAtom c with
    | false =>
      refine follows_pure v ?_ (dispatch_skip h (inAtom_take hb hc))
      unfold Lexer.take
      split <;> trivial
    | true =>
      have hrule : applyRule h c (Lexer.machine ⟨.text .atom, level, data, pos⟩ v, s) =
          inAtom h c (Lexer.machine ⟨.text .atom, level, data, pos⟩ v, s) := rfl
      have hends : isBound c = true ∨ isspace c = true ∨ c = eos := by
        rw [hb]
        simpa [Lexer.endsAtom, or_assoc] using hc
      unfold inAtom at hrule
      rw [if_pos hends] at hrule
      have hcall : applyRule h c (Lexer.machine ⟨.text .atom, level, data, pos⟩ v, s) =
          (call (h.onAtom data) >>= fun _ => do ruleUse .top; pure Action.stay)
            (Lexer.machine ⟨.text .atom, level, data, pos⟩ v, s) := hrule
      refine follows_call (w := .onAtom data) hcall fun s' hs' => ?_
      rw [dispatch_stay h hs']
      exact follows_top_ends hc
  | string =>
    have hrule : applyRule h c (Lexer.machine ⟨.text .string, level, data, pos⟩ v, s) =
        inString h c (Lexer.machine ⟨.text .string, level, data, pos⟩ v, s) := rfl
    show Follows _ (h.play (Lexer.inString ⟨.text .string, level, data, pos⟩ c) s)
    unfold Lexer.inString
    unfold inString at hrule
    by_cases hquote : c = ord '"'
    · rw [if_pos hquote]
      rw [if_pos hquote] at hrule
      have hcall : applyRule h c (Lexer.machine ⟨.text .string, level, data, pos⟩ v, s) =
          (call (h.onString data) >>= fun _ => do ruleUse .top; pure Action.skip)
            (Lexer.machine ⟨.text .string, level, data, pos⟩ v, s) := hrule
      exact follows_call (w := .onString data) hcall fun s' hs' =>
        follows_pure v trivial (dispatch_skip h hs')
    rw [if_neg hquote]
    rw [if_neg hquote] at hrule
    by_cases heos : c = eos
    · rw [if_pos heos]
      rw [if_neg (by rw [heos]; decide), if_pos heos] at hrule
      exact ⟨_, dispatch_error h hrule⟩
    rw [if_neg heos]
    rw [if_neg heos] at hrule
    unfold Lexer.take
    by_cases hesc : c = ord '\\'
    · rw [if_pos hesc]
      rw [if_pos hesc] at hrule
      exact follows_pure v trivial (dispatch_skip h hrule)
    · rw [if_neg hesc]
      rw [if_neg hesc] at hrule
      exact follows_pure v trivial (dispatch_skip h hrule)

/-- The end of the input is no digit. -/
theorem ne_eos_of_char2hex {c : Int} (h : 0 ≤ char2hex c) : c ≠ eos := by
  rintro rfl
  exact absurd h (by decide)

theorem lor_nonneg {x y : Int} (hx : 0 ≤ x) (hy : 0 ≤ y) : 0 ≤ Int.lor x y := by
  obtain ⟨a, rfl⟩ := Int.eq_ofNat_of_zero_le hx
  obtain ⟨b, rfl⟩ := Int.eq_ofNat_of_zero_le hy
  exact Int.natCast_nonneg (a ||| b)

/-- `append_escaped_hex` appends the byte and returns to the token, which gets
the character again. -/
theorem follows_escapedHex {b : Base} {level : UInt32} {data : Bytes} {pos v : Int} (hv : 0 ≤ v)
    (hb : isBound c = true ↔ c = ord '(' ∨ c = ord ')') :
    Follows (dispatch h c (n + 3) (⟨.appendEscapedHex, [b.rule], level, data, v, pos⟩, s))
      (h.play (Lexer.inText ⟨.text b, level, data ++ [toChar v], pos⟩ b c) s) := by
  have hrule : applyRule h c (⟨.appendEscapedHex, [b.rule], level, data, v, pos⟩, s) =
      appendEscapedHex (⟨.appendEscapedHex, [b.rule], level, data, v, pos⟩, s) := rfl
  have hstay : applyRule h c (⟨.appendEscapedHex, [b.rule], level, data, v, pos⟩, s) =
      .ok .stay (Lexer.machine ⟨.text b, level, data ++ [toChar v], pos⟩ v, s) := by
    rw [hrule]
    unfold appendEscapedHex
    rw [Emit.bind_apply]
    show (if v < 0 then _ else _ : RuleM ε η Action) _ = _
    rw [if_neg (by omega)]
    rfl
  rw [dispatch_stay h hstay]
  exact follows_text hb

/-- `in_hex` on a character that is no digit. -/
theorem inHex_other {b : Base} {high : Option Int} {level : UInt32} {data : Bytes} {pos v : Int}
    (hdigit : ¬ 0 ≤ char2hex c) :
    applyRule h c (Lexer.machine ⟨.hex b high, level, data, pos⟩ v, s) =
      .ok .stay (⟨.appendEscapedHex, [b.rule], level, data, v, pos⟩, s) := by
  have hrule : applyRule h c (Lexer.machine ⟨.hex b high, level, data, pos⟩ v, s) =
      inHex c (Lexer.machine ⟨.hex b high, level, data, pos⟩ v, s) := rfl
  rw [hrule]
  unfold inHex
  by_cases heos : c = eos
  · rw [if_neg (by simpa using heos)]
    rfl
  · rw [if_pos heos]
    show (if char2hex c ≥ 0 then _ else _ : RuleM ε η Action) _ = _
    rw [if_neg hdigit]
    rfl

/-- The rule of a comment. -/
theorem follows_comment {level : UInt32} {data : Bytes} {pos v : Int} :
    Follows (dispatch h c (n + 1) (Lexer.machine ⟨.comment, level, data, pos⟩ v, s))
      (h.play (Lexer.onChar ⟨.comment, level, data, pos⟩ c) s) := by
  have hrule : applyRule h c (Lexer.machine ⟨.comment, level, data, pos⟩ v, s) =
      inComment h c (Lexer.machine ⟨.comment, level, data, pos⟩ v, s) := rfl
  show Follows _ (h.play (if c = ord '\n' ∨ c = eos then _ else _) s)
  unfold inComment at hrule
  by_cases hend : c = ord '\n' ∨ c = eos
  · rw [if_pos hend]
    rw [if_neg (by tauto)] at hrule
    have hcall : applyRule h c (Lexer.machine ⟨.comment, level, data, pos⟩ v, s) =
        (call (h.onComment data) >>= fun _ => do ruleUse .top; pure Action.skip)
          (Lexer.machine ⟨.comment, level, data, pos⟩ v, s) := hrule
    exact follows_call (w := .onComment data) hcall fun s' hs' =>
      follows_pure v trivial (dispatch_skip h hs')
  · rw [if_neg hend]
    rw [if_pos (by tauto)] at hrule
    exact follows_pure v trivial (dispatch_skip h hrule)

/-- The rule of the character after a backslash. -/
theorem follows_escape {b : Base} {level : UInt32} {data : Bytes} {pos v : Int} :
    Follows (dispatch h c (n + 1) (Lexer.machine ⟨.escape b, level, data, pos⟩ v, s))
      (h.play (Lexer.onChar ⟨.escape b, level, data, pos⟩ c) s) := by
  have hrule : applyRule h c (Lexer.machine ⟨.escape b, level, data, pos⟩ v, s) =
      appendEscaped c (Lexer.machine ⟨.escape b, level, data, pos⟩ v, s) := rfl
  show Follows _ (h.play (if c = eos then _ else _) s)
  unfold appendEscaped at hrule
  by_cases heos : c = eos
  · rw [if_pos heos]
    rw [if_pos heos] at hrule
    exact ⟨_, dispatch_error h hrule⟩
  rw [if_neg heos]
  rw [if_neg heos] at hrule
  by_cases hx : c = ord 'x'
  · rw [if_pos hx]
    rw [if_pos hx] at hrule
    exact follows_pure (-1) rfl (dispatch_skip h hrule)
  rw [if_neg hx]
  rw [if_neg hx] at hrule
  cases ha : assoc (toChar c) with
  | none =>
    rw [ha] at hrule
    exact follows_pure v trivial (dispatch_skip h hrule)
  | some p =>
    rw [ha] at hrule
    exact follows_pure v trivial (dispatch_skip h hrule)

/-- `in_hex` on a digit: the first is kept for the second. -/
theorem inHex_digit {b : Base} {high : Option Int} {level : UInt32} {data : Bytes} {pos v : Int}
    (hdigit : 0 ≤ char2hex c) :
    applyRule h c (Lexer.machine ⟨.hex b high, level, data, pos⟩ v, s) =
      if v < 0 then .ok .skip (Lexer.machine ⟨.hex b (some (char2hex c <<< (4 : Nat))), level,
        data, pos⟩ (char2hex c <<< (4 : Nat)), s)
      else .ok .stay (⟨.appendEscapedHex, [b.rule], level, data, Int.lor v (char2hex c), pos⟩,
        s) := by
  have hrule : applyRule h c (Lexer.machine ⟨.hex b high, level, data, pos⟩ v, s) =
      inHex c (Lexer.machine ⟨.hex b high, level, data, pos⟩ v, s) := rfl
  rw [hrule]
  unfold inHex
  rw [if_pos (ne_eos_of_char2hex hdigit)]
  show (if char2hex c ≥ 0 then _ else _ : RuleM ε η Action) _ = _
  rw [if_pos hdigit, Emit.bind_apply]
  show (if v < 0 then _ else _ : RuleM ε η Action) _ = _
  split
  next => rfl
  next => rfl

/-- The rule of the digits. -/
theorem follows_hex {b : Base} {high : Option Int} {level : UInt32} {data : Bytes} {pos v : Int}
    (hv : (Mode.hex b high).Holds v) (hb : isBound c = true ↔ c = ord '(' ∨ c = ord ')') :
    Follows (dispatch h c (n + 4) (Lexer.machine ⟨.hex b high, level, data, pos⟩ v, s))
      (h.play (Lexer.onChar ⟨.hex b high, level, data, pos⟩ c) s) := by
  cases high with
  | none =>
    obtain rfl : v = -1 := hv
    show Follows _ (h.play (if 0 ≤ char2hex c then _ else _) s)
    by_cases hdigit : 0 ≤ char2hex c
    · rw [if_pos hdigit]
      refine follows_pure _ ⟨rfl, ?_⟩
        (dispatch_skip h ((inHex_digit hdigit).trans (if_pos (by decide))))
      rw [Int.shiftLeft_eq]
      omega
    · rw [if_neg hdigit]
      rw [dispatch_stay h (inHex_other hdigit)]
      exact ⟨_, dispatch_error h rfl⟩
  | some high =>
    obtain ⟨rfl, hpos⟩ : v = high ∧ 0 ≤ high := hv
    show Follows _ (h.play (if 0 ≤ char2hex c then _ else _) s)
    by_cases hdigit : 0 ≤ char2hex c
    · rw [if_pos hdigit]
      rw [dispatch_stay h ((inHex_digit hdigit).trans (if_neg (by omega)))]
      exact follows_escapedHex (lor_nonneg hpos hdigit) hb
    · rw [if_neg hdigit]
      rw [dispatch_stay h (inHex_other hdigit)]
      exact follows_escapedHex hpos hb

/-- One character, in any mode. -/
theorem follows_onChar {l : Lexer} {v : Int} (hv : l.mode.Holds v)
    (hb : isBound c = true ↔ c = ord '(' ∨ c = ord ')') :
    Follows (dispatch h c (n + 4) (l.machine v, s)) (h.play (l.onChar c) s) := by
  obtain ⟨mode, level, data, pos⟩ := l
  cases mode with
  | top => exact follows_top hb
  | text b => exact follows_text hb
  | comment => exact follows_comment
  | escape b => exact follows_escape
  | hex b high => exact follows_hex hv hb

theorem feed_follows (sg : CharSign) (b : UInt8) {l : Lexer} {m : Machine} (hr : Repr l m) :
    Follows (feed h sg b (m, s)) (h.play (l.step sg b) s) := by
  obtain ⟨v, hv, rfl⟩ := hr
  exact follows_onChar (n := 0) (l := { l with tellg := l.tellg + 1 }) hv (isBound_toInt sg b)

/-- Both returned, or both stopped alike. -/
def Ends (x : EStateM.Result (Fault ε) (Machine × η) α) (y : EStateM.Result (Fault ε) η β) :
    Prop :=
  match y with
  | .ok _ s' => ∃ a m, x = .ok a (m, s')
  | .error e s' => ∃ m, x = .error e (m, s')

/-- A call of the handler, and what follows it in a rule. -/
theorem ends_event {w : Callback} {m : Machine} {k : Unit → RuleM ε η α}
    (hk : ∀ s', ∃ a m', k () (m, s') = .ok a (m', s')) :
    Ends ((call (h.on w) >>= k) (m, s)) (h.play (Emit.event w) s) := by
  unfold Handler.play
  rw [Emit.play_event, Emit.bind_apply, call_run]
  unfold Handler.listen
  cases hs : h.on w s with
  | ok u s' =>
    obtain ⟨a, m', hm'⟩ := hk s'
    exact ⟨a, m', hm'⟩
  | error e s' => exact ⟨m, rfl⟩

/-- The rule at the end of the input, applied once. -/
theorem applyRule_eos {l : Lexer} {m : Machine} (hr : Repr l m) :
    Ends (applyRule h eos ({ m with tellg := -1 }, s)) (h.play l.atEos s) := by
  obtain ⟨v, hv, rfl⟩ := hr
  obtain ⟨mode, level, data, pos⟩ := l
  cases mode with
  | top => exact ⟨_, _, rfl⟩
  | comment => exact ends_event (w := .onComment data) fun s' => ⟨_, _, rfl⟩
  | text b =>
    cases b with
    | atom => exact ends_event (w := .onAtom data) fun s' => ⟨_, _, rfl⟩
    | string => exact ⟨_, rfl⟩
  | escape b => exact ⟨_, rfl⟩
  | hex b high => exact ⟨_, _, rfl⟩

theorem loop_follows (sg : CharSign) : ∀ (src : Bytes) {l : Lexer} {m : Machine} {s : η},
    Repr l m → Ends (loop h sg src (m, s)) (h.play (l.scanFrom sg src) s)
  | [], l, m, s, hr => by
    have hrule := applyRule_eos (h := h) (s := s) hr
    have hloop : loop h sg [] (m, s) =
        (applyRule h eos >>= fun _ => call h.onEof) ({ m with tellg := -1 }, s) := rfl
    have hscan : h.play (l.scanFrom sg []) s =
        (h.play l.atEos >>= fun _ => h.play (Emit.event .onEof)) s :=
      congrFun (Emit.play_bind h.listen Fault.error l.atEos fun _ => Emit.event .onEof) s
    rw [hloop, hscan, Emit.bind_apply, Emit.bind_apply]
    cases he : h.play l.atEos s with
    | ok u s' =>
      rw [he] at hrule
      obtain ⟨a, m', hm'⟩ := hrule
      rw [hm']
      show Ends (call (h.on .onEof) (m', s')) (h.play (Emit.event .onEof) s')
      rw [← bind_pure (call (h.on .onEof))]
      exact ends_event fun s'' => ⟨_, _, rfl⟩
    | error e s' =>
      rw [he] at hrule
      obtain ⟨m', hm'⟩ := hrule
      rw [hm']
      exact ⟨m', rfl⟩
  | b :: src, l, m, s, hr => by
    have hfeed := feed_follows (h := h) (s := s) sg b hr
    have hloop : loop h sg (b :: src) (m, s) =
        (feed h sg b >>= fun _ => loop h sg src) (m, s) := rfl
    have hscan : h.play (l.scanFrom sg (b :: src)) s =
        (h.play (l.step sg b) >>= fun l' => h.play (l'.scanFrom sg src)) s := by
      rw [Lexer.scanFrom_cons]
      exact congrFun (Emit.play_bind h.listen Fault.error (l.step sg b) _) s
    rw [hloop, hscan, Emit.bind_apply, Emit.bind_apply]
    cases he : h.play (l.step sg b) s with
    | ok l' s' =>
      rw [he] at hfeed
      obtain ⟨m', hm', hr'⟩ := hfeed
      rw [hm']
      exact loop_follows sg src hr'
    | error e s' =>
      rw [he] at hfeed
      obtain ⟨m', hm'⟩ := hfeed
      rw [hm']
      exact ⟨m', rfl⟩

end Simulation

/-- The main loop from a machine in a lexer state. -/
theorem resume_eq_play (sg : CharSign) {l : Lexer} {m : Machine} (hr : Repr l m) (src : Bytes) :
    resume h sg m src = h.play (l.scanFrom sg src) := by
  funext s
  have hends := loop_follows (h := h) (s := s) sg src hr
  unfold resume
  cases hs : h.play (l.scanFrom sg src) s with
  | ok u s' =>
    rw [hs] at hends
    obtain ⟨a, m', hm'⟩ := hends
    rw [hm']
  | error e s' =>
    rw [hs] at hends
    obtain ⟨m', hm'⟩ := hends
    rw [hm']

/-- **`parse` is `scan` played to the handler.** -/
theorem parse_eq_play (sg : CharSign) (src : Bytes) :
    parse h sg src = h.play (Lexer.scan sg src) :=
  resume_eq_play h sg start_repr src

end Cor.Sexp

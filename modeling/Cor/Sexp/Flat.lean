import Cor.Lib.Emit
import Cor.Sexp.Parse

/-!
# The parser as a flat lexer

What `parse` says about a text, without its closures: a lexer whose state is one
of ten modes (`Mode`), the list level, the token read so far and the position.
The return stack of the machine is a function of the mode, and the re-dispatch
loop is gone: one character is one `Lexer.step`.

The lexer never sees the handler, it produces events (`Lib.Emit`), so all that
`parse` does is `scan`: the callbacks for a text, in order, and the error after
them if there is one.

End of input is not a character: `Lexer.atEos` is the one application of the
current rule that the source makes there, whose `Stay` nobody follows.
-/

namespace Cor.Sexp

open Lib (Emit)

/-- A call of the handler. -/
inductive Callback where
  | onListBegin
  | onListEnd
  | onComment (s : Bytes)
  | onString (s : Bytes)
  | onAtom (s : Bytes)
  | onEof
deriving DecidableEq, Repr

/-- The two tokens that have escapes. -/
inductive Base where
  | string
  | atom
deriving DecidableEq, Repr

/-- The call that delivers a token. -/
def Base.callback : Base → Bytes → Callback
  | .string, s => .onString s
  | .atom, s => .onAtom s

/-- Where in the text the lexer is: between tokens, in a comment, in a token, after
its backslash, or after `\x` with the high digit if it has been read. -/
inductive Mode where
  | top
  | comment
  | text (b : Base)
  | escape (b : Base)
  | hex (b : Base) (high : Option Int)
deriving DecidableEq, Repr

structure Lexer where
  mode : Mode
  level : UInt32
  data : Bytes
  tellg : Int
deriving DecidableEq, Repr

namespace Lexer

abbrev Scan := Emit Callback Error

def error {α : Type} (l : Lexer) (info : String) : Scan α := Emit.fail ⟨ascii info, l.tellg⟩

/-- The lexer after a token, a comment or a parenthesis. -/
def toTop (l : Lexer) : Lexer := { l with mode := .top, data := [] }

/-- An ordinary character of a token, or its backslash. -/
def take (l : Lexer) (b : Base) (c : Int) : Lexer :=
  if c = ord '\\' then { l with mode := .escape b }
  else { l with mode := .text b, data := l.data ++ [toChar c] }

/-- The characters that end an atom. -/
def endsAtom (c : Int) : Bool := c = ord '(' ∨ c = ord ')' ∨ isspace c ∨ c = eos

/-- Between tokens. -/
def atTop (l : Lexer) (c : Int) : Scan Lexer :=
  if c = ord ')' then
    if l.level = 0 then l.error "Unexpected ')'"
    else do
      Emit.event .onListEnd
      pure { l with level := l.level - 1 }
  else if c = ord '(' then do
    Emit.event .onListBegin
    pure { l with level := l.level + 1 }
  else if c = ord ';' then pure { l with mode := .comment, data := [] }
  else if isspace c then pure l
  else if c = ord '"' then pure { l with mode := .text .string, data := [] }
  else if c = eos then pure l
  else pure ({ l with data := [] }.take .atom c)

/-- Inside an atom. The character that ends it is read again between tokens. -/
def inAtom (l : Lexer) (c : Int) : Scan Lexer :=
  if endsAtom c then do
    Emit.event (.onAtom l.data)
    l.toTop.atTop c
  else pure (l.take .atom c)

/-- Inside a string. -/
def inString (l : Lexer) (c : Int) : Scan Lexer :=
  if c = ord '"' then do
    Emit.event (.onString l.data)
    pure l.toTop
  else if c = eos then l.error "string is not limited, got EOS"
  else pure (l.take .string c)

def inText (l : Lexer) : Base → Int → Scan Lexer
  | .atom => l.inAtom
  | .string => l.inString

/-- The token with one byte more. -/
def push (l : Lexer) (b : Base) (c : UInt8) : Lexer :=
  { l with mode := .text b, data := l.data ++ [c] }

/-- One character, as the `int` it is converted to. -/
def onChar (l : Lexer) (c : Int) : Scan Lexer :=
  match l.mode with
  | .top => l.atTop c
  | .comment =>
    if c = ord '\n' ∨ c = eos then do
      Emit.event (.onComment l.data)
      pure l.toTop
    else pure { l with data := l.data ++ [toChar c] }
  | .text b => l.inText b c
  | .escape b =>
    if c = eos then l.error "Expected escaped symbol, got EOS"
    else if c = ord 'x' then pure { l with mode := .hex b none }
    else pure (l.push b ((assoc (toChar c)).getD (toChar c)))
  | .hex b none =>
    if 0 ≤ char2hex c then pure { l with mode := .hex b (some (char2hex c <<< (4 : Nat))) }
    else l.error "Escaped hex is empty"
  | .hex b (some high) =>
    -- the character that ends the escape is read again in the token, a digit too
    if 0 ≤ char2hex c then (l.push b (toChar (Int.lor high (char2hex c)))).inText b c
    else (l.push b (toChar high)).inText b c

def step (sg : CharSign) (l : Lexer) (b : UInt8) : Scan Lexer :=
  { l with tellg := l.tellg + 1 }.onChar (sg.toInt b)

/-- The characters of a text. -/
def steps (sg : CharSign) : Lexer → Bytes → Scan Lexer
  | l, [] => pure l
  | l, b :: bs => do
    let l' ← l.step sg b
    steps sg l' bs

/-- The end of the input. -/
def atEos (l : Lexer) : Scan Unit :=
  match l.mode with
  | .top => pure ()
  | .comment => Emit.event (.onComment l.data)
  | .text .atom => Emit.event (.onAtom l.data)
  | .text .string => { l with tellg := -1 }.error "string is not limited, got EOS"
  | .escape _ => { l with tellg := -1 }.error "Expected escaped symbol, got EOS"
  | .hex _ _ => pure ()

def start : Lexer := ⟨.top, 0, [], 0⟩

/-- A text from the state `l`, to its end. -/
def scanFrom (sg : CharSign) (l : Lexer) (src : Bytes) : Scan Unit := do
  let l' ← l.steps sg src
  l'.atEos
  Emit.event .onEof

/-- **The callbacks of `parse` for a text and the error that stops it.** -/
def scan (sg : CharSign) (src : Bytes) : Scan Unit := scanFrom sg .start src

theorem steps_append (sg : CharSign) : ∀ (xs ys : Bytes) (l : Lexer),
    l.steps sg (xs ++ ys) = (l.steps sg xs >>= fun l' => l'.steps sg ys)
  | [], _, _ => rfl
  | x :: xs, ys, l => by
    show (l.step sg x >>= fun l' => l'.steps sg (xs ++ ys)) =
      ((l.step sg x >>= fun l' => l'.steps sg xs) >>= fun l' => l'.steps sg ys)
    rw [Emit.bind_assoc]
    congr 1
    funext l'
    exact steps_append sg xs ys l'

theorem scanFrom_append (sg : CharSign) (xs ys : Bytes) (l : Lexer) :
    l.scanFrom sg (xs ++ ys) = (l.steps sg xs >>= fun l' => l'.scanFrom sg ys) := by
  unfold scanFrom
  rw [steps_append, Emit.bind_assoc]

theorem scanFrom_cons (sg : CharSign) (b : UInt8) (bs : Bytes) (l : Lexer) :
    l.scanFrom sg (b :: bs) = (l.step sg b >>= fun l' => l'.scanFrom sg bs) := by
  unfold scanFrom
  show ((l.step sg b >>= fun l' => l'.steps sg bs) >>= _) = _
  rw [Emit.bind_assoc]

/-! ## What a character does

What a character does to the lexer depends on its mode and on the data alone, but for the
level at a closing parenthesis: it makes some calls and leads to another mode with other
data, or fails. -/

/-- The mode and the data that the lexer goes on with, if it does. -/
def token (x : Scan Lexer) : Option (Mode × Bytes) :=
  x.result.toOption.map fun l => (l.mode, l.data)

theorem token_ok {x : Scan Lexer} {l : Lexer} (h : x.result = .ok l) :
    token x = some (l.mode, l.data) := by
  unfold token
  rw [h]
  rfl

/-- A character that a token takes. -/
inductive TakeSpec (b : Base) (c : Int) (data : Bytes) : Mode × Bytes → Prop
  | escape (hc : c = ord '\\') : TakeSpec b c data (.escape b, data)
  | byte (hc : c ≠ ord '\\') : TakeSpec b c data (.text b, data ++ [toChar c])

/-- Between tokens. -/
inductive TopSpec (c : Int) (data : Bytes) : List Callback → Option (Mode × Bytes) → Prop
  | unexpected : TopSpec c data [] none
  | listEnd : TopSpec c data [.onListEnd] (some (.top, data))
  | listBegin : TopSpec c data [.onListBegin] (some (.top, data))
  | comment : TopSpec c data [] (some (.comment, []))
  | skip : TopSpec c data [] (some (.top, data))
  | quote : TopSpec c data [] (some (.text .string, []))
  | take {t : Mode × Bytes} (h : TakeSpec .atom c [] t) : TopSpec c data [] (some t)

/-- Inside a token. -/
inductive TextSpec (c : Int) (data : Bytes) : Base → List Callback → Option (Mode × Bytes) → Prop
  | atomEnd {ws : List Callback} {t : Option (Mode × Bytes)} (hends : endsAtom c = true)
      (h : TopSpec c [] ws t) : TextSpec c data .atom (.onAtom data :: ws) t
  | atomTake {t : Mode × Bytes} (hends : endsAtom c = false) (h : TakeSpec .atom c data t) :
    TextSpec c data .atom [] (some t)
  | stringEnd : TextSpec c data .string [.onString data] (some (.top, []))
  | unlimited : TextSpec c data .string [] none
  | stringTake {t : Mode × Bytes} (hquote : c ≠ ord '"') (heos : c ≠ eos)
      (h : TakeSpec .string c data t) : TextSpec c data .string [] (some t)

/-- In any mode. -/
inductive CharSpec (c : Int) (data : Bytes) :
    Mode → List Callback → Option (Mode × Bytes) → Prop
  | top {ws : List Callback} {t : Option (Mode × Bytes)} (h : TopSpec c data ws t) :
    CharSpec c data .top ws t
  | commentEnd : CharSpec c data .comment [.onComment data] (some (.top, []))
  | comment : CharSpec c data .comment [] (some (.comment, data ++ [toChar c]))
  | text {b : Base} {ws : List Callback} {t : Option (Mode × Bytes)} (h : TextSpec c data b ws t) :
    CharSpec c data (.text b) ws t
  | escapeEos {b : Base} : CharSpec c data (.escape b) [] none
  | escapeHex {b : Base} (hx : c = ord 'x') :
    CharSpec c data (.escape b) [] (some (.hex b none, data))
  | escaped {b : Base} (byte : UInt8) :
    CharSpec c data (.escape b) [] (some (.text b, data ++ [byte]))
  | hexHigh {b : Base} {high : Int} (hd : 0 ≤ char2hex c) :
    CharSpec c data (.hex b none) [] (some (.hex b (some high), data))
  | hexEmpty {b : Base} : CharSpec c data (.hex b none) [] none
  | hexEnd {b : Base} {high : Int} (byte : UInt8) {ws : List Callback}
      {t : Option (Mode × Bytes)} (h : TextSpec c (data ++ [byte]) b ws t) :
    CharSpec c data (.hex b (some high)) ws t

theorem take_spec (l : Lexer) (b : Base) (c : Int) :
    TakeSpec b c l.data ((l.take b c).mode, (l.take b c).data) := by
  unfold take
  split
  · next hc => exact .escape hc
  · next hc => exact .byte hc

theorem atTop_spec (level : UInt32) (data : Bytes) (pos c : Int) :
    TopSpec c data (atTop ⟨.top, level, data, pos⟩ c).events
      (token (atTop ⟨.top, level, data, pos⟩ c)) := by
  unfold atTop
  split
  · split
    · exact .unexpected
    · exact .listEnd
  split
  · exact .listBegin
  split
  · exact .comment
  split
  · exact .skip
  split
  · exact .quote
  split
  · exact .skip
  · exact .take (take_spec ⟨.top, level, [], pos⟩ .atom c)

theorem inText_spec (b : Base) (level : UInt32) (data : Bytes) (pos c : Int) :
    TextSpec c data b (inText ⟨.text b, level, data, pos⟩ b c).events
      (token (inText ⟨.text b, level, data, pos⟩ b c)) := by
  cases b with
  | atom =>
    show TextSpec c data .atom (inAtom _ c).events (token (inAtom _ c))
    unfold inAtom
    split
    · next hends => exact .atomEnd hends (atTop_spec level [] pos c)
    · next hends =>
      exact .atomTake (eq_false_of_ne_true hends)
        (take_spec ⟨.text .atom, level, data, pos⟩ .atom c)
  | string =>
    show TextSpec c data .string (inString _ c).events (token (inString _ c))
    unfold inString
    split
    · exact .stringEnd
    next hquote =>
    split
    · exact .unlimited
    · next heos =>
      exact .stringTake hquote heos (take_spec ⟨.text .string, level, data, pos⟩ .string c)

/-- **The inversion lemma of the lexer.** -/
theorem onChar_spec (l : Lexer) (c : Int) :
    CharSpec c l.data l.mode (l.onChar c).events (token (l.onChar c)) := by
  obtain ⟨mode, level, data, pos⟩ := l
  unfold onChar
  cases mode with
  | top => exact .top (atTop_spec level data pos c)
  | comment =>
    dsimp only
    split
    · exact .commentEnd
    · exact .comment
  | text b => exact .text (inText_spec b level data pos c)
  | escape b =>
    dsimp only
    split
    · exact .escapeEos
    split
    · next hx => exact .escapeHex hx
    · exact .escaped _
  | hex b high =>
    cases high with
    | none =>
      dsimp only
      split
      · next hd => exact .hexHigh hd
      · exact .hexEmpty
    | some high =>
      dsimp only
      split
      · exact .hexEnd _ (inText_spec b level _ pos c)
      · exact .hexEnd _ (inText_spec b level _ pos c)

theorem step_spec (sg : CharSign) (l : Lexer) (b : UInt8) :
    CharSpec (sg.toInt b) l.data l.mode (l.step sg b).events (token (l.step sg b)) :=
  onChar_spec { l with tellg := l.tellg + 1 } (sg.toInt b)

end Lexer

/-! ## Characters -/

/-- The conversions to `int` and back. -/
theorem toChar_toInt (sg : CharSign) (b : UInt8) : toChar (sg.toInt b) = b := by
  have hb := b.toNat_lt
  apply UInt8.toNat_inj.mp
  unfold toChar UInt8.ofInt
  cases sg with
  | signed =>
    unfold CharSign.toInt
    split <;> simp [UInt8.toNat_ofNat'] <;> omega
  | unsigned =>
    unfold CharSign.toInt
    simp [UInt8.toNat_ofNat']
    omega

/-- An ASCII character is converted to its code by either kind of `char`. -/
theorem toInt_eq_ord (sg : CharSign) (b : UInt8) {c : Char} (hc : c.toNat < 128) :
    sg.toInt b = ord c ↔ b = UInt8.ofNat c.toNat := by
  have hb := b.toNat_lt
  have hcode : b = UInt8.ofNat c.toNat ↔ b.toNat = c.toNat := by
    rw [← UInt8.toNat_inj, UInt8.toNat_ofNat']
    omega
  rw [hcode]
  unfold ord CharSign.toInt
  cases sg with
  | signed => split <;> omega
  | unsigned => simp

/-- `bound` has the two parentheses. -/
theorem isBound_toInt (sg : CharSign) (b : UInt8) :
    isBound (sg.toInt b) = true ↔ sg.toInt b = ord '(' ∨ sg.toInt b = ord ')' := by
  unfold isBound
  rw [toChar_toInt, toInt_eq_ord sg b (by decide), toInt_eq_ord sg b (by decide),
    decide_eq_true_iff]
  show b ∈ [40, 41] ↔ b = 40 ∨ b = 41
  simp

end Cor.Sexp

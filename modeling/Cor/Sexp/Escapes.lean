import Cor.Sexp.Render

/-!
# Hex escapes

`\xHH` in a token is handled by two rules that hand the current character on
with `Stay`. The second digit ends the escape, but it is not consumed: the rule of
the token gets it again and appends it (`scanFrom_hex`).

So `parse` reads the escape as its byte alone only in those inputs in which the
token is never delivered anyway. `delivers` follows a token through a text and
says whether its end is reached, and `hex_escape_iff` is that condition, in both
directions.
-/

namespace Cor.Sexp

open Lib (Emit)

/-- The value of a hexadecimal digit of either case. -/
def hexDigit (c : UInt8) : Option Nat :=
  if 0x30 ≤ c.toNat ∧ c.toNat ≤ 0x39 then some (c.toNat - 0x30)
  else if 0x41 ≤ c.toNat ∧ c.toNat ≤ 0x46 then some (c.toNat - 0x41 + 10)
  else if 0x61 ≤ c.toNat ∧ c.toNat ≤ 0x66 then some (c.toNat - 0x61 + 10)
  else none

theorem hexDigit_lt {c : UInt8} {n : Nat} (hc : hexDigit c = some n) : n < 16 := by
  unfold hexDigit at hc
  split at hc
  · obtain rfl := Option.some.inj hc; omega
  split at hc
  · obtain rfl := Option.some.inj hc; omega
  split at hc
  · obtain rfl := Option.some.inj hc; omega
  · exact absurd hc (by simp)

theorem toInt_ascii (sg : CharSign) {c : UInt8} (hc : c.toNat < 128) : sg.toInt c = c.toNat := by
  cases sg with
  | unsigned => rfl
  | signed =>
    simp only [CharSign.toInt]
    rw [if_pos hc]

/-- `char2hex` with the codes of the characters. -/
theorem char2hex_codes (c : Int) : char2hex c =
    if c ≥ 48 ∧ c ≤ 57 then c - 48
    else if c ≥ 65 ∧ c ≤ 70 then c - 65 + 10
    else if c ≥ 97 ∧ c ≤ 102 then c - 97 + 10
    else -1 := rfl

theorem char2hex_hexDigit (sg : CharSign) {c : UInt8} {n : Nat} (hc : hexDigit c = some n) :
    char2hex (sg.toInt c) = n := by
  unfold hexDigit at hc
  have hascii : c.toNat < 128 := by
    by_contra hge
    rw [if_neg (by omega), if_neg (by omega), if_neg (by omega)] at hc
    exact absurd hc (by simp)
  rw [toInt_ascii sg hascii, char2hex_codes]
  split at hc
  · obtain rfl := Option.some.inj hc
    rw [if_pos (by omega)]
    omega
  split at hc
  · obtain rfl := Option.some.inj hc
    rw [if_neg (by omega), if_pos (by omega)]
    omega
  split at hc
  · obtain rfl := Option.some.inj hc
    rw [if_neg (by omega), if_neg (by omega), if_pos (by omega)]
    omega
  · exact absurd hc (by simp)

theorem hexDigit_of_char2hex (sg : CharSign) {c : UInt8} (hc : 0 ≤ char2hex (sg.toInt c)) :
    ∃ n, hexDigit c = some n := by
  have hlt := c.toNat_lt
  by_contra hnone
  have hout : ¬ (0x30 ≤ c.toNat ∧ c.toNat ≤ 0x39) ∧ ¬ (0x41 ≤ c.toNat ∧ c.toNat ≤ 0x46) ∧
      ¬ (0x61 ≤ c.toNat ∧ c.toNat ≤ 0x66) := by
    refine ⟨fun h => hnone ?_, fun h => hnone ?_, fun h => hnone ?_⟩
    · exact ⟨_, if_pos h⟩
    · unfold hexDigit
      rw [if_neg (by omega), if_pos h]
      exact ⟨_, rfl⟩
    · unfold hexDigit
      rw [if_neg (by omega), if_neg (by omega), if_pos h]
      exact ⟨_, rfl⟩
  rw [char2hex_codes] at hc
  have hint : sg.toInt c = c.toNat ∨ sg.toInt c < 0 := by
    cases sg with
    | unsigned => exact Or.inl rfl
    | signed =>
      simp only [CharSign.toInt]
      split <;> omega
  rw [if_neg (by omega), if_neg (by omega), if_neg (by omega)] at hc
  omega

/-- A digit is an ordinary character of both tokens. -/
theorem hexDigit_raw {b : Base} {c : UInt8} {n : Nat} (hc : hexDigit c = some n) :
    Base.raw b c ∧ c ≠ 0xff := by
  have hrange : 0x30 ≤ c.toNat ∧ c.toNat ≤ 0x66 ∧ c.toNat ≠ 0x5c := by
    unfold hexDigit at hc
    by_contra hout
    rw [if_neg (by omega), if_neg (by omega), if_neg (by omega)] at hc
    exact absurd hc (by simp)
  have hne : ∀ d : UInt8, d.toNat < 0x30 ∨ 0x66 < d.toNat ∨ d.toNat = 0x5c → c ≠ d := by
    rintro d hd rfl
    omega
  refine ⟨?_, hne _ (by decide)⟩
  cases b with
  | string => exact ⟨hne _ (by decide), hne _ (by decide)⟩
  | atom =>
    refine ⟨hne _ (by decide), hne _ (by decide), hne _ (by decide), ?_⟩
    unfold spaceByte isspace
    rw [decide_eq_false_iff_not]
    omega

/-- The two digits put together. -/
theorem toChar_lor {hi lo : Nat} (hhi : hi < 16) (hlo : lo < 16) :
    toChar (Int.lor ((hi : Int) <<< (4 : Nat)) lo) = UInt8.ofNat (16 * hi + lo) := by
  have hshift : (hi : Int) <<< (4 : Nat) = ((hi <<< 4 : Nat) : Int) := by
    rw [Int.shiftLeft_eq, Nat.shiftLeft_eq]
    push_cast
    rfl
  have hor : Int.lor ((hi <<< 4 : Nat) : Int) lo = ((hi <<< 4 ||| lo : Nat) : Int) := rfl
  have hsum : hi <<< 4 ||| lo = 16 * hi + lo := by
    rw [← Nat.shiftLeft_add_eq_or_of_lt (by omega), Nat.shiftLeft_eq]
    omega
  rw [hshift, hor, hsum]
  unfold toChar
  apply UInt8.toNat_inj.mp
  have hlt : 16 * hi + lo < 256 := by omega
  simp [UInt8.ofInt, UInt8.toNat_ofNat']
  omega

namespace Lexer

variable {sg : CharSign} {level : UInt32} {data : Bytes} {pos : Int}

/-- **What the lexer does with `\xHH`**: the byte, and the second digit once more
as a character of the token. -/
theorem scanFrom_hex {b : Base} {d₁ d₂ : UInt8} {hi lo : Nat} (h₁ : hexDigit d₁ = some hi)
    (h₂ : hexDigit d₂ = some lo) (rest : Bytes) :
    scanFrom sg ⟨.text b, level, data, pos⟩ (0x5c :: 0x78 :: d₁ :: d₂ :: rest) =
      scanFrom sg ⟨.text b, level, data ++ [UInt8.ofNat (16 * hi + lo), d₂], pos + 4⟩ rest := by
  have hesc : step sg ⟨.text b, level, data, pos⟩ 0x5c =
      pure ⟨.escape b, level, data, pos + 1⟩ := by
    cases sg <;> cases b <;> rfl
  have hx : step sg ⟨.escape b, level, data, pos + 1⟩ 0x78 =
      pure ⟨.hex b none, level, data, pos + 1 + 1⟩ := by
    cases sg <;> rfl
  have hfirst : step sg ⟨.hex b none, level, data, pos + 1 + 1⟩ d₁ =
      pure ⟨.hex b (some ((hi : Int) <<< (4 : Nat))), level, data, pos + 1 + 1 + 1⟩ := by
    rw [step_eq]
    show (if 0 ≤ char2hex (sg.toInt d₁) then _ else _) = _
    rw [char2hex_hexDigit sg h₁, if_pos (Int.natCast_nonneg hi)]
  have hsecond : step sg
      ⟨.hex b (some ((hi : Int) <<< (4 : Nat))), level, data, pos + 1 + 1 + 1⟩ d₂ =
        pure ⟨.text b, level, data ++ [UInt8.ofNat (16 * hi + lo)] ++ [d₂],
          pos + 1 + 1 + 1 + 1⟩ := by
    obtain ⟨hraw, h255⟩ := hexDigit_raw (b := b) h₂
    have htake : step sg
        ⟨.text b, level, data ++ [UInt8.ofNat (16 * hi + lo)], pos + 1 + 1 + 1⟩ d₂ = _ :=
      step_raw hraw (toInt_ne_eos sg h255)
    rw [step_eq, ← htake]
    show (if 0 ≤ char2hex (sg.toInt d₂) then _ else _) = _
    rw [char2hex_hexDigit sg h₂, if_pos (Int.natCast_nonneg lo),
      toChar_lor (hexDigit_lt h₁) (hexDigit_lt h₂)]
    rfl
  have hpos : pos + 1 + 1 + 1 + 1 = pos + 4 := by omega
  rw [scanFrom_cons, hesc, Emit.pure_bind, scanFrom_cons, hx, Emit.pure_bind, scanFrom_cons, hfirst,
    Emit.pure_bind, scanFrom_cons, hsecond, Emit.pure_bind, hpos, List.append_assoc]
  rfl

end Lexer

/-! ## Following a token through a text -/

/-- What a character does to a token. -/
inductive TokenStep where
  | into (m : Mode)
  | ends
  | fails

/-- The character that ends a token. -/
def Base.ends : Base → Int → Bool
  | .atom, c => Lexer.endsAtom c
  | .string, c => c = ord '"'

def Base.textStep (b : Base) (c : Int) : TokenStep :=
  if b.ends c then .ends
  else if c = eos then .fails
  else if c = ord '\\' then .into (.escape b)
  else .into (.text b)

def Base.tokenStep (b : Base) : Mode → Int → TokenStep
  | .escape _, c =>
    if c = eos then .fails
    else if c = ord 'x' then .into (.hex b none)
    else .into (.text b)
  | .hex _ none, c =>
    if 0 ≤ char2hex c then .into (.hex b (some (char2hex c <<< (4 : Nat)))) else .fails
  | _, c => b.textStep c

/-- Whether the token that the lexer is in is completed by the text. The end of
the text completes an atom. -/
def delivers (sg : CharSign) (b : Base) : Mode → Bytes → Bool
  | m, [] => m = .text .atom
  | m, c :: s =>
    match b.tokenStep m (sg.toInt c) with
    | .into m' => delivers sg b m' s
    | .ends => true
    | .fails => false

/-- A mode of a token. -/
def Mode.In (b : Base) : Mode → Prop
  | .text b' => b' = b
  | .escape b' => b' = b
  | .hex b' _ => b' = b
  | _ => False

namespace Lexer

variable {sg : CharSign} {b : Base} {c : Int}

/-- What the lexer does at a character of a token, from any data: it stays in the
token and appends something, or delivers the token and goes on without the data,
or fails. -/
def Acts (b : Base) (x : UInt32 → Bytes → Int → Scan Lexer) : TokenStep → Prop
  | .into m => m.In b ∧ ∃ w, ∀ level data pos, x level data pos = pure ⟨m, level, data ++ w, pos⟩
  | .ends => ∃ w, ∃ f : UInt32 → Int → Scan Lexer, ∀ level data pos,
      x level data pos = (f level pos).after [b.callback (data ++ w)]
  | .fails => ∃ info, ∀ level data pos, x level data pos = Emit.fail ⟨info, pos⟩

theorem Acts.append {x : UInt32 → Bytes → Int → Scan Lexer} {t : TokenStep} (hx : Acts b x t)
    (byte : UInt8) : Acts b (fun level data pos => x level (data ++ [byte]) pos) t := by
  cases t with
  | into m =>
    obtain ⟨hm, w, hw⟩ := hx
    refine ⟨hm, byte :: w, fun level data pos => ?_⟩
    show x level (data ++ [byte]) pos = _
    rw [hw, List.append_assoc]
    rfl
  | ends =>
    obtain ⟨w, f, hw⟩ := hx
    refine ⟨byte :: w, f, fun level data pos => ?_⟩
    show x level (data ++ [byte]) pos = _
    rw [hw, List.append_assoc]
    rfl
  | fails =>
    obtain ⟨info, hw⟩ := hx
    exact ⟨info, fun level data pos => hw level _ pos⟩

theorem inText_acts (b : Base) (c : Int) :
    Acts b (fun level data pos => inText ⟨.text b, level, data, pos⟩ b c) (b.textStep c) := by
  unfold Base.textStep
  cases hends : b.ends c with
  | true =>
    cases b with
    | atom =>
      refine ⟨[], fun level pos => atTop ⟨.top, level, [], pos⟩ c, fun level data pos => ?_⟩
      show (if endsAtom c then _ else _) = _
      rw [if_pos (show endsAtom c = true from hends), List.append_nil]
      rfl
    | string =>
      refine ⟨[], fun level pos => pure ⟨.top, level, [], pos⟩, fun level data pos => ?_⟩
      show inString _ c = _
      unfold inString
      rw [if_pos (by simpa [Base.ends] using hends), List.append_nil]
      rfl
  | false =>
    rw [if_neg (by simp)]
    have htake : c ≠ eos → ∀ level data pos,
        inText ⟨.text b, level, data, pos⟩ b c = pure (take ⟨.text b, level, data, pos⟩ b c) := by
      intro heos level data pos
      cases b with
      | atom =>
        show inAtom _ c = _
        unfold inAtom
        rw [if_neg (by rw [show endsAtom c = false from hends]; simp)]
      | string =>
        show inString _ c = _
        unfold inString
        rw [if_neg (by simpa [Base.ends] using hends), if_neg heos]
    by_cases heos : c = eos
    · rw [if_pos heos]
      cases b with
      | atom =>
        rw [heos] at hends
        exact absurd hends (by decide)
      | string =>
        refine ⟨ascii "string is not limited, got EOS", fun level data pos => ?_⟩
        show inString _ c = _
        unfold inString
        rw [if_neg (by rw [heos]; decide), if_pos heos]
        rfl
    · rw [if_neg heos]
      unfold take at htake
      by_cases hesc : c = ord '\\'
      · rw [if_pos hesc]
        refine ⟨rfl, [], fun level data pos => ?_⟩
        show inText _ b c = _
        rw [htake heos, if_pos hesc, List.append_nil]
      · rw [if_neg hesc]
        refine ⟨rfl, [toChar c], fun level data pos => ?_⟩
        show inText _ b c = _
        rw [htake heos, if_neg hesc]

theorem onChar_acts {m : Mode} (hm : m.In b) (c : Int) :
    Acts b (fun level data pos => onChar ⟨m, level, data, pos⟩ c) (b.tokenStep m c) := by
  cases m with
  | top => exact hm.elim
  | comment => exact hm.elim
  | text b' =>
    obtain rfl : b' = b := hm
    exact inText_acts b' c
  | escape b' =>
    obtain rfl : b' = b := hm
    show Acts b' _ (if c = eos then _ else if c = ord 'x' then _ else _)
    by_cases heos : c = eos
    · rw [if_pos heos]
      refine ⟨ascii "Expected escaped symbol, got EOS", fun level data pos => ?_⟩
      show (if c = eos then _ else _) = _
      rw [if_pos heos]
      rfl
    rw [if_neg heos]
    by_cases hx : c = ord 'x'
    · rw [if_pos hx]
      refine ⟨rfl, [], fun level data pos => ?_⟩
      show (if c = eos then _ else if c = ord 'x' then _ else _) = _
      rw [if_neg heos, if_pos hx, List.append_nil]
    · rw [if_neg hx]
      refine ⟨rfl, [(assoc (toChar c)).getD (toChar c)], fun level data pos => ?_⟩
      show (if c = eos then _ else if c = ord 'x' then _ else _) = _
      rw [if_neg heos, if_neg hx]
      rfl
  | hex b' high =>
    obtain rfl : b' = b := hm
    cases high with
    | none =>
      show Acts b' _ (if 0 ≤ char2hex c then _ else _)
      by_cases hdigit : 0 ≤ char2hex c
      · rw [if_pos hdigit]
        refine ⟨rfl, [], fun level data pos => ?_⟩
        show (if 0 ≤ char2hex c then _ else _) = _
        rw [if_pos hdigit, List.append_nil]
      · rw [if_neg hdigit]
        refine ⟨ascii "Escaped hex is empty", fun level data pos => ?_⟩
        show (if 0 ≤ char2hex c then _ else _) = _
        rw [if_neg hdigit]
        rfl
    | some high =>
      -- the byte of the escape, then the character in the token
      obtain ⟨byte, hbyte⟩ : ∃ byte, ∀ level data pos,
          onChar ⟨.hex b' (some high), level, data, pos⟩ c =
            inText ⟨.text b', level, data ++ [byte], pos⟩ b' c := by
        by_cases hdigit : 0 ≤ char2hex c
        · refine ⟨toChar (Int.lor high (char2hex c)), fun level data pos => ?_⟩
          show (if 0 ≤ char2hex c then _ else _) = _
          rw [if_pos hdigit]
          rfl
        · refine ⟨toChar high, fun level data pos => ?_⟩
          show (if 0 ≤ char2hex c then _ else _) = _
          rw [if_neg hdigit]
          rfl
      have hfun : (fun level data pos => onChar ⟨.hex b' (some high), level, data, pos⟩ c) =
          fun level data pos => inText ⟨.text b', level, data ++ [byte], pos⟩ b' c := by
        funext level data pos
        exact hbyte level data pos
      rw [hfun]
      exact (inText_acts b' c).append byte

/-- A token that is delivered is delivered with its data first. -/
theorem scanFrom_delivers : ∀ (s : Bytes) {m : Mode}, m.In b → delivers sg b m s = true →
    ∃ w, ∃ f : UInt32 → Int → Scan Unit, ∀ level data pos,
      scanFrom sg ⟨m, level, data, pos⟩ s = (f level pos).after [b.callback (data ++ w)]
  | [], m, hm, hd => by
    obtain rfl : m = .text .atom := of_decide_eq_true hd
    obtain rfl : Base.atom = b := hm
    refine ⟨[], fun _ _ => Emit.event .onEof, fun level data pos => ?_⟩
    rw [List.append_nil]
    rfl
  | c :: s, m, hm, hd => by
    have hact := onChar_acts hm (sg.toInt c)
    unfold delivers at hd
    cases hstep : b.tokenStep m (sg.toInt c) with
    | into m' =>
      rw [hstep] at hact hd
      obtain ⟨hm', w, hw⟩ := hact
      obtain ⟨w', f, hf⟩ := scanFrom_delivers s hm' hd
      refine ⟨w ++ w', fun level pos => f level (pos + 1), fun level data pos => ?_⟩
      have hchar : step sg ⟨m, level, data, pos⟩ c = _ := hw level data (pos + 1)
      rw [scanFrom_cons, hchar, Emit.pure_bind, hf, List.append_assoc]
    | ends =>
      rw [hstep] at hact
      obtain ⟨w, f, hw⟩ := hact
      refine ⟨w, fun level pos => f level (pos + 1) >>= fun l' => l'.scanFrom sg s,
        fun level data pos => ?_⟩
      have hchar : step sg ⟨m, level, data, pos⟩ c = _ := hw level data (pos + 1)
      rw [scanFrom_cons, hchar, Emit.after_bind]
    | fails =>
      rw [hstep] at hd
      exact absurd hd (by simp)

/-- A token that is not delivered leaves no trace of its data. -/
theorem scanFrom_undelivered : ∀ (s : Bytes) {m : Mode}, m.In b → delivers sg b m s = false →
    ∃ x : UInt32 → Int → Scan Unit, ∀ level data pos,
      scanFrom sg ⟨m, level, data, pos⟩ s = x level pos
  | [], m, hm, hd => by
    have hne : m ≠ .text .atom := of_decide_eq_false hd
    cases m with
    | top => exact hm.elim
    | comment => exact hm.elim
    | text b' =>
      cases b' with
      | atom => exact absurd rfl hne
      | string => exact ⟨fun _ _ => scanFrom sg ⟨.text .string, 0, [], 0⟩ [], fun _ _ _ => rfl⟩
    | escape b' => exact ⟨fun _ _ => scanFrom sg ⟨.escape b', 0, [], 0⟩ [], fun _ _ _ => rfl⟩
    | hex b' high => exact ⟨fun _ _ => scanFrom sg ⟨.hex b' high, 0, [], 0⟩ [], fun _ _ _ => rfl⟩
  | c :: s, m, hm, hd => by
    have hact := onChar_acts hm (sg.toInt c)
    unfold delivers at hd
    cases hstep : b.tokenStep m (sg.toInt c) with
    | into m' =>
      rw [hstep] at hact hd
      obtain ⟨hm', w, hw⟩ := hact
      obtain ⟨x, hx⟩ := scanFrom_undelivered s hm' hd
      refine ⟨fun level pos => x level (pos + 1), fun level data pos => ?_⟩
      have hchar : step sg ⟨m, level, data, pos⟩ c = _ := hw level data (pos + 1)
      rw [scanFrom_cons, hchar, Emit.pure_bind, hx]
    | ends =>
      rw [hstep] at hd
      exact absurd hd (by simp)
    | fails =>
      rw [hstep] at hact
      obtain ⟨info, hw⟩ := hact
      refine ⟨fun level pos => Emit.fail ⟨info, pos + 1⟩, fun level data pos => ?_⟩
      have hchar : step sg ⟨m, level, data, pos⟩ c = _ := hw level data (pos + 1)
      rw [scanFrom_cons, hchar, Emit.fail_bind]

end Lexer

/-! ## The second digit -/

/-- The handler that records its calls. -/
def recorder : Handler Empty (List Callback) where
  onListBegin := modify (· ++ [.onListBegin])
  onListEnd := modify (· ++ [.onListEnd])
  onComment s := modify (· ++ [.onComment s])
  onString s := modify (· ++ [.onString s])
  onAtom s := modify (· ++ [.onAtom s])
  onEof := modify (· ++ [.onEof])

theorem recorder_on (w : Callback) (log : List Callback) :
    recorder.on w log = .ok () (log ++ [w]) := by
  cases w <;> rfl

theorem recorder_ok : ∀ w log, ∃ log', recorder.on w log = .ok () log' :=
  fun w log => ⟨log ++ [w], recorder_on w log⟩

theorem recorder_receives : ∀ (ws log : List Callback),
    recorder.receives ws log = .ok () (log ++ ws)
  | [], log => by
    rw [List.append_nil]
    rfl
  | w :: ws, log => by
    rw [receives_cons]
    unfold Handler.listen
    rw [recorder_on]
    show recorder.receives ws (log ++ [w]) = _
    rw [recorder_receives ws, List.append_assoc]
    rfl

theorem recorder_play {α : Type} (x : Lexer.Scan α) (log : List Callback) :
    recorder.play x log = match x.result with
      | .ok a => .ok a (log ++ x.events)
      | .error e => .error (.error e) (log ++ x.events) := by
  unfold Handler.play
  rw [Emit.play_apply, show Emit.deliver recorder.listen x.events log = _ from
    recorder_receives x.events log]
  cases x.result <;> rfl

/-- Recording tells two texts apart when their events differ. -/
theorem events_eq_of_play {x y : Lexer.Scan Unit} (h : recorder.play x = recorder.play y) :
    x.events = y.events := by
  have hlog := congrFun h []
  rw [recorder_play, recorder_play] at hlog
  cases hx : x.result <;> cases hy : y.result <;> simp [hx, hy] at hlog
  · exact hlog.2
  · exact hlog

/-- The locals of `parse` inside a token. -/
def Machine.InToken (m : Machine) (b : Base) : Prop := m.rule = b.rule ∧ m.ctx = []

/-- What it takes to read `\xHH` at this point as the byte `byte` alone: for every
handler `parse` goes on as if the byte had been appended and the rest of the
input came next. -/
def ReadsByte (sg : CharSign) (m : Machine) (d₁ d₂ byte : UInt8) (rest : Bytes) : Prop :=
  ∀ (ε η : Type) (h : Handler ε η),
    resume h sg m (0x5c :: 0x78 :: d₁ :: d₂ :: rest) =
      resume h sg { m with data := m.data ++ [byte], tellg := m.tellg + 4 } rest

/-- **When a two-digit hex escape is one byte.** Only when the token it stands in
is not delivered any more. In every other input the second digit is read once more
as a character of the token. -/
theorem hex_escape_iff {sg : CharSign} {b : Base} {m : Machine} (hm : m.InToken b)
    {d₁ d₂ : UInt8} {hi lo : Nat} (h₁ : hexDigit d₁ = some hi) (h₂ : hexDigit d₂ = some lo)
    (rest : Bytes) :
    ReadsByte sg m d₁ d₂ (UInt8.ofNat (16 * hi + lo)) rest ↔
      delivers sg b (.text b) rest = false := by
  have hrepr : ∀ m' : Machine, m'.InToken b →
      Repr ⟨.text b, m'.level, m'.data, m'.tellg⟩ m' := by
    rintro ⟨rule, ctx, level, data, v, pos⟩ ⟨hrule, hctx⟩
    obtain rfl : rule = b.rule := hrule
    obtain rfl : ctx = [] := hctx
    exact ⟨v, trivial, rfl⟩
  -- both sides as the lexer reads them: the digit is the whole difference
  have hboth : ReadsByte sg m d₁ d₂ (UInt8.ofNat (16 * hi + lo)) rest ↔
      ∀ (ε η : Type) (h : Handler ε η),
        h.play (Lexer.scanFrom sg
          ⟨.text b, m.level, m.data ++ [UInt8.ofNat (16 * hi + lo), d₂], m.tellg + 4⟩ rest) =
        h.play (Lexer.scanFrom sg
          ⟨.text b, m.level, m.data ++ [UInt8.ofNat (16 * hi + lo)], m.tellg + 4⟩ rest) := by
    refine forall_congr' fun ε => forall_congr' fun η => forall_congr' fun h => ?_
    rw [resume_eq_play h sg (hrepr m hm), Lexer.scanFrom_hex h₁ h₂,
      resume_eq_play h sg (hrepr { m with
        data := m.data ++ [UInt8.ofNat (16 * hi + lo)], tellg := m.tellg + 4 } hm)]
  rw [hboth]
  constructor
  · intro heq
    by_contra hd
    have hd' : delivers sg b (.text b) rest = true := by simpa using hd
    obtain ⟨w, f, hf⟩ := Lexer.scanFrom_delivers rest (m := .text b) rfl hd'
    have hev := events_eq_of_play (heq Empty (List Callback) recorder)
    rw [hf, hf] at hev
    have hcall := (List.cons.inj hev).1
    have hlen : ∀ x y : Bytes, b.callback x = b.callback y → x.length = y.length := by
      intro x y hxy
      cases b with
      | atom => rw [Callback.onAtom.inj hxy]
      | string => rw [Callback.onString.inj hxy]
    have hcount := hlen _ _ hcall
    simp only [List.length_append, List.length_cons, List.length_nil] at hcount
    omega
  · intro hd ε η h
    obtain ⟨x, hx⟩ := Lexer.scanFrom_undelivered rest (m := .text b) rfl hd
    rw [hx, hx]

/-- In `"\x41"` the string is `A1`. -/
theorem hex_escape_doubled :
    ¬ ∀ (sg : CharSign) (b : Base) (m : Machine) (d₁ d₂ : UInt8) (hi lo : Nat) (rest : Bytes),
      m.InToken b → hexDigit d₁ = some hi → hexDigit d₂ = some lo →
        ReadsByte sg m d₁ d₂ (UInt8.ofNat (16 * hi + lo)) rest := by
  intro hall
  have hread := hall .signed .string ⟨.inString, [], 0, [], 0, 1⟩ 0x34 0x31 4 1 [0x22]
    ⟨rfl, rfl⟩ (by decide) (by decide) Empty (List Callback) recorder
  have hlog := congrFun hread []
  have hleft : resume recorder .signed ⟨.inString, [], 0, [], 0, 1⟩ (ascii "\\x41\"") [] =
      .ok () [.onString [0x41, 0x31], .onEof] := by rfl
  have hright : resume recorder .signed ⟨.inString, [], 0, [0x41], 0, 5⟩ [0x22] [] =
      .ok () [.onString [0x41], .onEof] := by rfl
  have hsame := hleft.symm.trans (hlog.trans hright)
  exact absurd hsame (by simp)

/-- In a string that is never closed the escape does no harm. -/
theorem hex_escape_demo :
    ReadsByte .signed ⟨.inString, [], 0, [], 0, 1⟩ 0x34 0x31 0x41 (ascii "bc") :=
  (hex_escape_iff (b := .string) ⟨rfl, rfl⟩ (by decide : hexDigit 0x34 = some 4)
    (by decide : hexDigit 0x31 = some 1) _).mpr (by decide)

end Cor.Sexp

import Cor.Sexp.EndOfInput

/-!
# The byte that looks like the end of the stream

The main loop knows the end of the input from `gcount`, but the rules are told of it
by the character `eos`, which is `-1`. They get a character as an `int`, and where
plain `char` is signed the byte `0xFF` is converted to `-1` too.

`BytesAreData` is what one expects: every byte is handled as the number it is, by
either kind of `char`. `bytesAreData_iff` says that exactly the texts break it that
have a `0xFF` which `parse` comes to and which does not stand directly after `\x`,
where a number that is no hexadecimal digit and the end of the stream are the same
error.
-/

namespace Cor.Sexp

open Lib (Emit)

section

variable {ε η : Type} (h : Handler ε η)

/-- The loop body for the byte as a number, which is never `eos`. -/
def feedData (b : UInt8) : RuleM ε η Unit := do
  modifyLocals fun m => { m with tellg := m.tellg + 1 }
  dispatch h b.toNat 4

/-- The loop over some characters of a text. -/
def feeds (sg : CharSign) : Bytes → RuleM ε η Unit
  | [] => pure ()
  | b :: bs => do
    feed h sg b
    feeds sg bs

end

/-- What one expects of a text, with every handler and either kind of `char`. -/
structure BytesAreData (src : Bytes) : Prop where
  /-- The rules treat a byte they come to as data. -/
  data : ∀ {ε η : Type} (h : Handler ε η) (sg : CharSign) (s₀ : η) (pre : Bytes) (b : UInt8)
    (post : Bytes) (m : Machine) (s : η), src = pre ++ b :: post →
      feeds h sg pre (.start, s₀) = .ok () (m, s) → feed h sg b (m, s) = feedData h b (m, s)
  /-- In a string literal it is appended, unless it ends the literal or escapes. -/
  string : ∀ {ε η : Type} (h : Handler ε η) (sg : CharSign) (s₀ : η) (pre : Bytes) (b : UInt8)
    (post : Bytes) (m : Machine) (s : η), src = pre ++ b :: post →
      feeds h sg pre (.start, s₀) = .ok () (m, s) → m.rule = .inString → b ≠ 0x22 → b ≠ 0x5c →
        feed h sg b (m, s) = .ok () ({ m with tellg := m.tellg + 1, data := m.data ++ [b] }, s)
  /-- The kind of `char` makes no difference. -/
  sign : ∀ {ε η : Type} (h : Handler ε η), parse h .signed src = parse h .unsigned src

/-- Where `char` is signed, each `0xFF` that `parse` comes to stands directly after the
`\x` of an escape. -/
def NoEosByte (src : Bytes) : Prop :=
  ∀ (pre post : Bytes) (m : Mode), src = pre ++ 0xff :: post → modeAfter .signed pre = some m →
    ∃ b, m = .hex b none

/-! ## Characters that no rule tells apart -/

/-- A character that is neither ASCII nor `eos`. -/
def Plain (c : Int) : Prop := c < -1 ∨ 128 ≤ c

section

variable {c c' : Int}

theorem Plain.ne_ord (hc : Plain c) {x : Char} (hx : x.toNat < 128) : c ≠ ord x := by
  rintro rfl
  unfold Plain ord at hc
  omega

theorem Plain.ne_eos (hc : Plain c) : c ≠ eos := by
  rintro rfl
  unfold Plain eos at hc
  omega

theorem Plain.not_space (hc : Plain c) : isspace c = false := by
  unfold Plain at hc
  unfold isspace
  rw [decide_eq_false_iff_not]
  omega

theorem Plain.not_hex (hc : Plain c) : char2hex c = -1 := by
  unfold Plain at hc
  rw [char2hex_codes, if_neg (by omega), if_neg (by omega), if_neg (by omega)]

variable {ε η : Type} (h : Handler ε η)

/-- The rules see only the byte of such a character. -/
theorem applyRule_plain (hc : Plain c) (hc' : Plain c') (hsame : toChar c = toChar c')
    (st : Machine × η) : applyRule h c st = applyRule h c' st := by
  obtain ⟨⟨rule, ctx, level, data, hexByte, tellg⟩, s⟩ := st
  cases rule with
  | top =>
    show top h c _ = top h c' _
    unfold top
    simp only [hc.ne_ord (x := ')') (by decide), hc'.ne_ord (x := ')') (by decide),
      hc.ne_ord (x := '(') (by decide), hc'.ne_ord (x := '(') (by decide),
      hc.ne_ord (x := ';') (by decide), hc'.ne_ord (x := ';') (by decide),
      hc.ne_ord (x := '"') (by decide), hc'.ne_ord (x := '"') (by decide),
      hc.not_space, hc'.not_space, ne_eq, hc.ne_eos, hc'.ne_eos, reduceIte]
  | inComment =>
    show inComment h c _ = inComment h c' _
    unfold inComment
    simp only [hc.ne_ord (x := '\n') (by decide), hc'.ne_ord (x := '\n') (by decide),
      ne_eq, hc.ne_eos, hc'.ne_eos, hsame]
  | inAtom =>
    show inAtom h c _ = inAtom h c' _
    unfold inAtom isBound
    simp only [hc.ne_ord (x := '\\') (by decide), hc'.ne_ord (x := '\\') (by decide),
      hc.not_space, hc'.not_space, hc.ne_eos, hc'.ne_eos, hsame, reduceIte]
  | inString =>
    show inString h c _ = inString h c' _
    unfold inString
    simp only [hc.ne_ord (x := '"') (by decide), hc'.ne_ord (x := '"') (by decide),
      hc.ne_ord (x := '\\') (by decide), hc'.ne_ord (x := '\\') (by decide),
      hc.ne_eos, hc'.ne_eos, hsame, reduceIte]
  | inHex =>
    show inHex c _ = inHex c' _
    unfold inHex
    simp only [hc.not_hex, hc'.not_hex, ne_eq, hc.ne_eos, hc'.ne_eos]
  | appendEscaped =>
    show appendEscaped c _ = appendEscaped c' _
    unfold appendEscaped
    simp only [hc.ne_ord (x := 'x') (by decide), hc'.ne_ord (x := 'x') (by decide),
      hc.ne_eos, hc'.ne_eos, hsame, reduceIte]
  | appendEscapedHex => rfl

theorem dispatch_plain (hc : Plain c) (hc' : Plain c') (hsame : toChar c = toChar c') :
    ∀ (n : Nat) (st : Machine × η), dispatch h c n st = dispatch h c' n st
  | 0, _ => rfl
  | n + 1, st => by
    show (applyRule h c >>= _) st = (applyRule h c' >>= _) st
    rw [Emit.bind_apply, Emit.bind_apply, applyRule_plain h hc hc' hsame]
    cases applyRule h c' st with
    | ok a st' =>
      cases a with
      | stay => exact dispatch_plain hc hc' hsame n st'
      | skip => rfl
    | error e st' => rfl

/-- A byte other than `0xFF` is data for either kind of `char`. -/
theorem feed_eq_feedData (sg : CharSign) {b : UInt8} (hb : b ≠ 0xff) (st : Machine × η) :
    feed h sg b st = feedData h b st := by
  have hlt := b.toNat_lt
  have hne : b.toNat ≠ 255 := fun heq => hb (UInt8.toNat_inj.mp heq)
  show dispatch h (sg.toInt b) 4 _ = dispatch h b.toNat 4 _
  by_cases hascii : b.toNat < 128
  · have hsame : sg.toInt b = b.toNat := by
      cases sg with
      | signed => exact if_pos hascii
      | unsigned => rfl
    rw [hsame]
  · have hval : (b.toNat : Int) = CharSign.unsigned.toInt b := rfl
    have hplain : ∀ sg : CharSign, Plain (sg.toInt b) := by
      intro sg
      unfold Plain CharSign.toInt
      cases sg with
      | signed =>
        simp only [if_neg hascii]
        omega
      | unsigned =>
        simp only
        omega
    rw [hval]
    refine dispatch_plain h (hplain sg) (hplain .unsigned) ?_ 4 _
    rw [toChar_toInt, toChar_toInt]

/-! ## The loop and the lexer -/

/-- The loop over some characters goes where the lexer goes. -/
theorem feeds_follows (sg : CharSign) : ∀ (bs : Bytes) {l : Lexer} {m : Machine} {s : η},
    Repr l m → Follows (feeds h sg bs (m, s)) (h.play (l.steps sg bs) s)
  | [], l, m, s, hr => ⟨m, rfl, hr⟩
  | b :: bs, l, m, s, hr => by
    have hfeed := feed_follows (h := h) (s := s) sg b hr
    have hloop : feeds h sg (b :: bs) (m, s) =
        (feed h sg b >>= fun _ => feeds h sg bs) (m, s) := rfl
    have hsteps : h.play (l.steps sg (b :: bs)) s =
        (h.play (l.step sg b) >>= fun l' => h.play (l'.steps sg bs)) s :=
      congrFun (Emit.play_bind h.listen Fault.error (l.step sg b) fun l' => l'.steps sg bs) s
    rw [hloop, hsteps, Emit.bind_apply, Emit.bind_apply]
    cases he : h.play (l.step sg b) s with
    | ok l' s' =>
      rw [he] at hfeed
      obtain ⟨m', hm', hr'⟩ := hfeed
      rw [hm']
      exact feeds_follows sg bs hr'
    | error e s' =>
      rw [he] at hfeed
      obtain ⟨m', hm'⟩ := hfeed
      rw [hm']
      exact ⟨m', rfl⟩

/-- Where `parse` has come to, the lexer has come to. -/
theorem modeAfter_of_feeds {sg : CharSign} {pre : Bytes} {s₀ s : η} {m : Machine}
    (hrun : feeds h sg pre (.start, s₀) = .ok () (m, s)) :
    ∃ l, Repr l m ∧ modeAfter sg pre = some l.mode := by
  have hfollows := feeds_follows h sg pre (s := s₀) start_repr
  rw [hrun] at hfollows
  unfold Handler.play at hfollows
  rw [Emit.play_apply] at hfollows
  cases hevents : Emit.deliver h.listen (Lexer.start.steps sg pre).events s₀ with
  | error e s' =>
    rw [hevents] at hfollows
    obtain ⟨m', hm'⟩ := hfollows
    exact nomatch hm'
  | ok u s' =>
    rw [hevents] at hfollows
    cases hresult : (Lexer.start.steps sg pre).result with
    | error e =>
      rw [hresult] at hfollows
      obtain ⟨m', hm'⟩ := hfollows
      exact nomatch hm'
    | ok l =>
      rw [hresult] at hfollows
      obtain ⟨m', hm', hr⟩ := hfollows
      injection hm' with hu hst
      injection hst with hm hs
      rw [← hm] at hr
      exact ⟨l, hr, modeAfter_eq_some.mpr ⟨l, hresult, rfl⟩⟩

/-- With a handler that records, `parse` comes to where the lexer comes to. -/
theorem feeds_of_modeAfter {sg : CharSign} {pre : Bytes} {md : Mode}
    (hmode : modeAfter sg pre = some md) : ∃ l m log, l.mode = md ∧ Repr l m ∧
      feeds recorder sg pre (.start, []) = .ok () (m, log) := by
  obtain ⟨l, hl, hm⟩ := modeAfter_eq_some.mp hmode
  have hfollows := feeds_follows recorder sg pre (s := []) start_repr
  rw [recorder_play, hl] at hfollows
  obtain ⟨m, hrun, hr⟩ := hfollows
  exact ⟨l, m, _, hm, hr, hrun⟩

/-! ## The byte `0xFF` -/

/-- Directly after `\x` the end of the stream is the same error as any character that
is no digit. -/
theorem feed_hex_none {l : Lexer} {m : Machine} {b : Base} (hr : Repr l m)
    (hmode : l.mode = .hex b none) (sg : CharSign) (s : η) :
    feed h sg 0xff (m, s) = feedData h 0xff (m, s) := by
  obtain ⟨v, hv, rfl⟩ := hr
  obtain ⟨mode, level, data, pos⟩ := l
  obtain rfl : mode = .hex b none := hmode
  obtain rfl : v = -1 := hv
  cases sg with
  | signed => cases b <;> rfl
  | unsigned => rfl

theorem follows_rule {x : EStateM.Result (Fault ε) (Machine × η) Unit} {l l' : Lexer} {s s' : η}
    (hx : Follows x (.ok l s)) (hx' : Follows x (.ok l' s')) : l.mode.rule = l'.mode.rule := by
  obtain ⟨m, hm, v, -, rfl⟩ := hx
  obtain ⟨m', hm', v', -, rfl⟩ := hx'
  rw [hm] at hm'
  injection hm' with hu hst
  injection hst with hm hs
  exact congrArg Machine.rule hm

theorem follows_error {x : EStateM.Result (Fault ε) (Machine × η) Unit} {l : Lexer} {s s' : η}
    {e : Fault ε} (hx : Follows x (.error e s)) (hx' : Follows x (.ok l s')) : False := by
  obtain ⟨m, hm⟩ := hx
  obtain ⟨m', hm', -⟩ := hx'
  rw [hm] at hm'
  exact nomatch hm'

end

/-- Everywhere else it is not. -/
theorem hex_none_of_feed {l : Lexer} {m : Machine} {log : List Callback} (hr : Repr l m)
    (hdata : feed recorder .signed 0xff (m, log) = feedData recorder 0xff (m, log)) :
    ∃ b, l.mode = .hex b none := by
  have hsigned := feed_follows (h := recorder) (s := log) .signed 0xff hr
  have hunsigned : Follows (feedData recorder 0xff (m, log))
      (recorder.play (l.step .unsigned 0xff) log) := feed_follows .unsigned 0xff hr
  rw [recorder_play] at hsigned hunsigned
  rw [hdata] at hsigned
  obtain ⟨mode, level, data, pos⟩ := l
  cases mode with
  | hex b high =>
    cases high with
    | none => exact ⟨b, rfl⟩
    | some high =>
      cases b with
      | string => exact (follows_error hsigned hunsigned).elim
      | atom => exact nomatch follows_rule hsigned hunsigned
  | top => exact nomatch follows_rule hsigned hunsigned
  | comment => exact nomatch follows_rule hsigned hunsigned
  | escape b => exact (follows_error hsigned hunsigned).elim
  | text b =>
    cases b with
    | string => exact (follows_error hsigned hunsigned).elim
    | atom => exact nomatch follows_rule hsigned hunsigned

/-! ## Whole texts -/

section

variable {ε η : Type} (h : Handler ε η)

/-- If every byte is data where `char` is signed, its kind makes no difference. -/
theorem loop_sign : ∀ (src : Bytes) (st : Machine × η),
    (∀ (pre : Bytes) (b : UInt8) (post : Bytes) (st' : Machine × η), src = pre ++ b :: post →
      feeds h .signed pre st = .ok () st' → feed h .signed b st' = feedData h b st') →
    loop h .signed src st = loop h .unsigned src st
  | [], _, _ => rfl
  | b :: src, st, hdata => by
    have hone : feed h .signed b st = feed h .unsigned b st := hdata [] b src st rfl rfl
    show (feed h .signed b >>= fun _ => loop h .signed src) st =
      (feed h .unsigned b >>= fun _ => loop h .unsigned src) st
    rw [Emit.bind_apply, Emit.bind_apply, ← hone]
    cases hrun : feed h .signed b st with
    | error e st' => rfl
    | ok u st' =>
      refine loop_sign src st' fun pre c post st'' hsrc hfeeds => ?_
      refine hdata (b :: pre) c post st'' (by rw [hsrc, List.cons_append]) ?_
      show (feed h .signed b >>= fun _ => feeds h .signed pre) st = _
      rw [Emit.bind_apply, hrun]
      exact hfeeds

/-- In a string literal the byte as a number is appended. -/
theorem feedData_string {m : Machine} {s : η} {b : UInt8} (hr : m.rule = .inString)
    (hquote : b ≠ 0x22) (hback : b ≠ 0x5c) :
    feedData h b (m, s) = .ok () ({ m with tellg := m.tellg + 1, data := m.data ++ [b] }, s) := by
  have hne : ∀ x : Char, x.toNat < 128 → b ≠ UInt8.ofNat x.toNat → (b.toNat : Int) ≠ ord x := by
    intro x hx hb heq
    exact hb ((toInt_eq_ord .unsigned b hx).mp heq)
  have heos : (b.toNat : Int) ≠ eos := by
    unfold eos
    omega
  obtain ⟨rule, ctx, level, data, hexByte, tellg⟩ := m
  obtain rfl : rule = .inString := hr
  have happend : applyRule h b.toNat (⟨.inString, ctx, level, data, hexByte, tellg + 1⟩, s) =
      .ok .skip (⟨.inString, ctx, level, data ++ [b], hexByte, tellg + 1⟩, s) := by
    show inString h b.toNat _ = _
    unfold inString
    rw [if_neg (hne '"' (by decide) hquote), if_neg (hne '\\' (by decide) hback), if_neg heos]
    have hchar : toChar (b.toNat : Int) = b := toChar_toInt .unsigned b
    rw [hchar]
    rfl
  exact dispatch_skip h happend

end

/-- **Bytes are data** in exactly the texts in which, where `char` is signed, each
`0xFF` that `parse` comes to stands directly after the `\x` of an escape. -/
theorem bytesAreData_iff (src : Bytes) : BytesAreData src ↔ NoEosByte src := by
  constructor
  · intro hall pre post md hsrc hmode
    obtain ⟨l, m, log, rfl, hr, hrun⟩ := feeds_of_modeAfter hmode
    exact hex_none_of_feed hr (hall.data recorder .signed [] pre 0xff post m log hsrc hrun)
  · intro hno
    have hdata : ∀ {ε η : Type} (h : Handler ε η) (sg : CharSign) (s₀ : η) (pre : Bytes)
        (b : UInt8) (post : Bytes) (m : Machine) (s : η), src = pre ++ b :: post →
          feeds h sg pre (.start, s₀) = .ok () (m, s) →
            feed h sg b (m, s) = feedData h b (m, s) := by
      intro ε η h sg s₀ pre b post m s hsrc hrun
      by_cases hb : b = 0xff
      · subst hb
        cases sg with
        | unsigned => rfl
        | signed =>
          obtain ⟨l, hr, hmode⟩ := modeAfter_of_feeds h hrun
          obtain ⟨base, hhex⟩ := hno pre post l.mode hsrc hmode
          exact feed_hex_none h hr hhex .signed s
      · exact feed_eq_feedData h sg hb (m, s)
    refine ⟨hdata, ?_, ?_⟩
    · intro ε η h sg s₀ pre b post m s hsrc hrun hr hquote hback
      rw [hdata h sg s₀ pre b post m s hsrc hrun]
      exact feedData_string h hr hquote hback
    · intro ε η h
      funext s
      unfold parse resume
      rw [loop_sign h src (.start, s) fun pre b post st' hsrc hfeeds =>
        hdata h .signed s pre b post st'.1 st'.2 hsrc hfeeds]

/-- A string literal with the byte `0xFF` in it. -/
def ffText : Bytes := [0x22, 0xff, 0x22]

/-- Where `char` is signed it is an unlimited string. -/
theorem ff_mistaken : ¬ ∀ src, BytesAreData src := by
  intro hall
  have hsame := congrFun ((hall ffText).sign recorder) []
  have hsigned : parse recorder .signed ffText [] =
      .error (.error ⟨ascii "string is not limited, got EOS", 2⟩) [] := rfl
  rw [hsigned] at hsame
  exact nomatch hsame.trans (rfl : parse recorder .unsigned ffText [] =
    .ok () [.onString [0xff], .onEof])

end Cor.Sexp

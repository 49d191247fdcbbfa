import Cor.Notlisp.Accessor
import Cor.Notlisp.IntegerAtoms
import Cor.Notlisp.Refine
import Cor.Sexp.Plain

/-!
# Printing an expression and reading it back

`operator <<` writes a string between quotes, a keyword after a colon and an integer in
decimal, and escapes nothing. Interpreting the text again gives the expression back
when each byte of the string or keyword stands for itself, and only then
(`prints_back_iff`).

With nothing bound no list can be evaluated, so all that an interpreter has then are
the atoms and strings of the text (`Fresh`), and the two directions are those of
`Sexp.Plain`.
-/

namespace Cor.Notlisp

open Sexp (Base Callback CharSign)
open Strto

/-! ## Integers in decimal -/

theorem isDigit_ofNat {c : Char} (hc : c.isDigit = true) :
    isDigit (UInt8.ofNat c.toNat) = true ∧ digitVal (UInt8.ofNat c.toNat) = c.toNat - 48 := by
  obtain ⟨hlow, hhigh⟩ : 48 ≤ c.toNat ∧ c.toNat ≤ 57 := Char.isDigit_iff_toNat.mp hc
  have hbyte : (UInt8.ofNat c.toNat).toNat = c.toNat := by
    rw [UInt8.toNat_ofNat']
    omega
  have hdigit : isDigit (UInt8.ofNat c.toNat) = true := by
    unfold isDigit
    rw [decide_eq_true_iff, UInt8.le_iff_toNat_le, UInt8.le_iff_toNat_le, hbyte]
    exact ⟨hlow, hhigh⟩
  refine ⟨hdigit, ?_⟩
  unfold digitVal
  rw [if_pos hdigit, hbyte]

/-- The value of digits as bytes and as characters. -/
theorem numeral_ofDigitChars (l : List Char) (n : Nat) (hl : ∀ c ∈ l, c.isDigit = true) :
    (l.map fun c => UInt8.ofNat c.toNat).foldl (fun n c => 10 * n + digitVal c) n =
      Nat.ofDigitChars 10 l n := by
  induction l generalizing n with
  | nil => rfl
  | cons c l ih =>
    rw [List.map_cons, List.foldl_cons, (isDigit_ofNat (hl c List.mem_cons_self)).2,
      Nat.ofDigitChars_cons]
    exact ih _ fun c hc => hl c (List.mem_cons_of_mem _ hc)

/-- A number as it is printed. -/
theorem decimal_digits (n : Nat) : ascii (toString n) ≠ [] ∧
    (∀ b ∈ ascii (toString n), isDigit b = true) ∧ numeral 10 (ascii (toString n)) = n := by
  have hchars : (toString n).toList = Nat.toDigits 10 n := Nat.toList_repr
  have hdigits : ∀ c ∈ Nat.toDigits 10 n, c.isDigit = true :=
    fun c hc => Nat.isDigit_of_mem_toDigits (by decide) (by decide) hc
  unfold ascii numeral
  rw [hchars]
  refine ⟨?_, fun b hb => ?_, ?_⟩
  · rw [ne_eq, List.map_eq_nil_iff]
    exact Nat.toDigits_ne_nil
  · obtain ⟨c, hc, rfl⟩ := List.mem_map.mp hb
    exact (isDigit_ofNat (hdigits c hc)).1
  · rw [numeral_ofDigitChars _ 0 hdigits]
    exact Nat.ofDigitChars_ten_toDigits

theorem denotes_decimal (z : Int) : Denotes (ascii (toString z)) z := by
  cases z with
  | ofNat n =>
    obtain ⟨hne, hdigits, hvalue⟩ := decimal_digits n
    have hden := Denotes.unsigned hne hdigits
    rw [hvalue] at hden
    exact hden
  | negSucc n =>
    obtain ⟨hne, hdigits, hvalue⟩ := decimal_digits (n + 1)
    have hden := Denotes.minus hne hdigits
    rw [hvalue] at hden
    have htext : ascii (toString (Int.negSucc n)) = 45 :: ascii (toString (n + 1)) := by
      show ("-" ++ toString (n + 1)).toList.map _ = _
      rw [String.toList_append]
      rfl
    rw [htext]
    exact hden

/-- **A printed `long`** is an integer atom of that value. -/
theorem convert_decimal {F : Type} (i : Int64) :
    (defaultAtomConvert (ascii (toString i.toInt)) : ExprPtr F) = some (.integer i) := by
  have hden := denotes_decimal i.toInt
  have hne : ascii (toString i.toInt) ≠ [] := by
    obtain ⟨b, s, hs, -⟩ := hden.head
    rw [hs]
    exact List.cons_ne_nil b s
  rw [convert_integer hne]
  refine ⟨[], _, i.toInt, ⟨rfl, fun b hb => (nomatch hb), hden⟩, ?_⟩
  apply Int64.toInt_inj.mp
  rw [Int64.toInt_ofIntClamp i.minValue_le_toInt i.toInt_le]

/-! ## Printing -/

section Printing

variable {F W : Type}

/-- `operator <<`, with what the stream makes of a `double`; none when the number to print
was never written. -/
def Expr.put (double : Float → Bytes) (src : Expr F) : Option Bytes :=
  match src.type with
  | .string => some (ascii "\"" ++ (src.value ++ ascii "\""))
  | .symbol => some src.value
  | .keyword => some (ascii ":" ++ src.value)
  | .object => some src.value
  | .function => some src.value
  | .nil => some (ascii "nil")
  | .integer => src.toLong.map fun i => ascii (toString i.toInt)
  | .real => src.toDouble.map double

/-- The expressions that a text has for themselves, reals aside. -/
inductive Literal where
  | string (s : Bytes)
  | keyword (s : Bytes)
  | integer (i : Int64)
deriving DecidableEq

def Literal.expr : Literal → ExprPtr F
  | .string s => mkString s
  | .keyword s => mkKeyword s
  | .integer i => some (.integer i)

/-- A text with `p` as its only result on a fresh interpreter with an empty environment. -/
def SoleResult (sg : CharSign) (call : F → ExprList F → EStateM Exn (Env F W) (ExprPtr F))
    (world : W) (src : Bytes) (p : ExprPtr F) : Prop :=
  ∃ i, Sexp.parse (interpreter call) sg src (Interpreter.create ⟨∅, world⟩) = .ok () i ∧
    i.results = .ok [p]

/-- The text that `operator <<` writes gives the expression. -/
def PrintsBack (sg : CharSign) (call : F → ExprList F → EStateM Exn (Env F W) (ExprPtr F))
    (world : W) (double : Float → Bytes) (p : ExprPtr F) : Prop :=
  ∃ e ∈ p, ∃ src ∈ e.put double, SoleResult sg call world src p

/-- No byte needs an escape that is not written. -/
def Literal.Plain (sg : CharSign) : Literal → Prop
  | .string s => ∀ c ∈ s, Base.string.Plain sg c
  | .keyword s => ∀ c ∈ s, Base.atom.Plain sg c
  | .integer _ => True

/-! ## What an interpreter has when nothing is bound -/

section Fresh

variable (T : Callback → Prop)

/-- A null, or what one of the calls `T` makes without evaluation. -/
inductive Made : ExprPtr F → Prop
  | null : Made none
  | string {s : Bytes} : T (.onString s) → Made (mkString s)
  | keyword {s : Bytes} : T (.onAtom (58 :: s)) → Made (mkKeyword s)
  | integer {i : Int64} : Made (some (.integer i))
  | real {r : Float} : Made (some (.real r))

/-- Each name is null, and each value comes from one of the calls `T`. -/
structure Fresh (i : Interpreter F W) : Prop where
  unbound : ∀ (name : Bytes) (p : ExprPtr F), i.env.dict[name]? = some p → p = none
  values : ∀ t ∈ i.stack, ∀ p ∈ t, Made T p

variable {T}

theorem Made.of_string {s : Bytes} {p : ExprPtr F} (h : Made T p) (hp : p = mkString s) :
    T (.onString s) := by
  cases h with
  | string hT =>
    obtain rfl : _ = s := by simpa [mkString] using hp
    exact hT
  | keyword => exact absurd hp (by simp [mkString, mkKeyword])
  | _ => exact absurd hp (by simp [mkString])

theorem Made.of_keyword {s : Bytes} {p : ExprPtr F} (h : Made T p) (hp : p = mkKeyword s) :
    T (.onAtom (58 :: s)) := by
  cases h with
  | keyword hT =>
    obtain rfl : _ = s := by simpa [mkKeyword] using hp
    exact hT
  | string => exact absurd hp (by simp [mkString, mkKeyword])
  | _ => exact absurd hp (by simp [mkKeyword])

theorem fresh_create (world : W) : Fresh T (Interpreter.create ⟨∅, world⟩ : Interpreter F W) where
  unbound name p hp := by
    have hnone : (∅ : Std.ExtTreeMap Bytes (ExprPtr F))[name]? = none :=
      Std.ExtTreeMap.getElem?_empty
    exact nomatch hnone.symm.trans hp
  values t ht p hp := by
    rw [List.mem_singleton.mp ht] at hp
    exact nomatch hp

/-- No list is evaluated: its head is no function. -/
theorem Fresh.onListEnd {L : Lang F W} {i : Interpreter F W} (hi : Fresh T i) :
    ∃ e i', Interpreter.onListEnd L i = .error e i' := by
  obtain ⟨env, stack⟩ := i
  cases stack with
  | nil => exact ⟨_, _, rfl⟩
  | cons t ts =>
    cases t with
    | nil => exact ⟨_, _, rfl⟩
    | cons expr rest =>
      rw [Interpreter.onListEnd_head]
      cases hi.values _ List.mem_cons_self expr List.mem_cons_self <;> exact ⟨_, _, rfl⟩

/-- What `on_atom` appends. -/
theorem Fresh.evalAtom {env : Env F W} {ts : List (ExprList F)} (hi : Fresh T ⟨env, ts⟩) {s : Bytes}
    (hs : T (.onAtom s)) : Made T (eval env (defaultAtomConvert s)).1 ∧
      Fresh T ⟨(eval env (defaultAtomConvert s)).2, ts⟩ := by
  unfold defaultAtomConvert
  split
  · exact ⟨.keyword hs, hi⟩
  · dsimp only
    split_ifs
    · exact ⟨.integer, hi⟩
    · exact ⟨.real, hi⟩
    · -- a symbol is null, and is added as one
      show Made T (env.lookup s).1 ∧ Fresh T ⟨(env.lookup s).2, ts⟩
      unfold Env.lookup
      cases hd : env.dict[s]? with
      | some p =>
        rw [hi.unbound s p hd]
        exact ⟨.null, hi⟩
      | none =>
        refine ⟨.null, fun name p hp => ?_, hi.values⟩
        have hp' : (env.dict.insert s none)[name]? = some p := hp
        rw [Std.ExtTreeMap.getElem?_insert] at hp'
        split_ifs at hp'
        · exact (Option.some.inj hp').symm
        · exact hi.unbound name p hp'

/-- One more value on the frame on top. -/
theorem Fresh.snoc {env : Env F W} {t : ExprList F} {ts : List (ExprList F)} {p : ExprPtr F}
    (hi : Fresh T ⟨env, t :: ts⟩) (hp : Made T p) : Fresh T ⟨env, (t ++ [p]) :: ts⟩ := by
  refine ⟨hi.unbound, fun u hu q hq => ?_⟩
  rcases List.mem_cons.mp hu with rfl | hu
  · rcases List.mem_append.mp hq with hq | hq
    · exact hi.values t List.mem_cons_self q hq
    · rw [List.mem_singleton.mp hq]
      exact hp
  · exact hi.values u (List.mem_cons_of_mem t hu) q hq

variable {call : F → ExprList F → EStateM Exn (Env F W) (ExprPtr F)}

theorem Fresh.on {i i' : Interpreter F W} (hi : Fresh T i) {w : Callback} (hw : T w)
    (hrun : (interpreter call).on w i = .ok () i') : Fresh T i' := by
  obtain ⟨env, stack⟩ := i
  cases w with
  | onListBegin =>
    obtain rfl : (⟨env, [] :: stack⟩ : Interpreter F W) = i' := by injection hrun
    refine ⟨hi.unbound, fun t ht p hp => ?_⟩
    rcases List.mem_cons.mp ht with rfl | ht
    · exact nomatch hp
    · exact hi.values t ht p hp
  | onListEnd =>
    obtain ⟨e, i₁, herr⟩ := hi.onListEnd (L := Lang.withDefault call)
    exact nomatch herr.symm.trans hrun
  | onComment | onEof =>
    obtain rfl : (⟨env, stack⟩ : Interpreter F W) = i' := by injection hrun
    exact hi
  | onString s =>
    cases stack with
    | nil => exact nomatch hrun
    | cons t ts =>
      obtain rfl : (⟨env, (t ++ [mkString s]) :: ts⟩ : Interpreter F W) = i' := by injection hrun
      exact hi.snoc (.string hw)
  | onAtom s =>
    cases stack with
    | nil => exact nomatch hrun
    | cons t ts =>
      obtain ⟨hmade, hfresh⟩ := hi.evalAtom hw
      have hatom := (Interpreter.onAtom_run (Lang.withDefault call) s env t ts).symm.trans hrun
      obtain rfl : (⟨(eval env (defaultAtomConvert s)).2,
        (t ++ [(eval env (defaultAtomConvert s)).1]) :: ts⟩ : Interpreter F W) = i' := by
          injection hatom
      exact hfresh.snoc hmade

theorem Fresh.receives (ws : List Callback) {i i' : Interpreter F W} (hi : Fresh T i)
    (hws : ∀ w ∈ ws, T w) (hrun : (interpreter call).receives ws i = .ok () i') : Fresh T i' := by
  induction ws generalizing i with
  | nil =>
    obtain rfl : i = i' := by injection hrun
    exact hi
  | cons w ws ih =>
    rw [Sexp.receives_cons] at hrun
    cases hl : (interpreter call).listen w i with
    | error e i₁ =>
      rw [hl] at hrun
      exact nomatch hrun
    | ok u i₁ =>
      rw [hl] at hrun
      have hon : (interpreter call).on w i = .ok () i₁ := by
        unfold Sexp.Handler.listen at hl
        split at hl
        · injection hl with _ hi₁
          subst hi₁
          assumption
        · exact nomatch hl
      apply ih (hi.on (hws w List.mem_cons_self) hon) _ hrun
      intro v hv
      exact hws v (List.mem_cons_of_mem w hv)

end Fresh

/-! ## Reading a printed expression -/

section Reading

variable {sg : CharSign} {call : F → ExprList F → EStateM Exn (Env F W) (ExprPtr F)} {world : W}
  {double : Float → Bytes}

/-- What a text results in comes from the calls that `parse` makes for it. -/
theorem SoleResult.made {src : Bytes} {p : ExprPtr F} (h : SoleResult sg call world src p) :
    Made (· ∈ (Sexp.Lexer.scan sg src).events) p := by
  obtain ⟨⟨env, stack⟩, hparse, hres⟩ := h
  have hfresh := Fresh.receives _ (fresh_create world) (fun w hw => hw)
    (Sexp.receives_of_parse hparse)
  cases stack with
  | nil => exact nomatch hres
  | cons t ts =>
    obtain rfl : t = [p] := Except.ok.inj hres
    exact hfresh.values _ List.mem_cons_self p List.mem_cons_self

/-- What `operator <<` writes. -/
def Literal.text : Literal → Bytes
  | .string s => Base.string.quoted s
  | .keyword s => 58 :: s
  | .integer i => ascii (toString i.toInt)

theorem put_literal (l : Literal) :
    ∃ e : Expr F, l.expr = some e ∧ e.put double = some l.text := by
  cases l <;> exact ⟨_, rfl, rfl⟩

theorem prints_back_iff_sole {l : Literal} :
    PrintsBack sg call world double l.expr ↔ SoleResult sg call world l.text l.expr := by
  obtain ⟨e, he, hput⟩ := @put_literal F double l
  constructor
  · rintro ⟨e', he', src, hsrc, hsole⟩
    obtain rfl := Option.some.inj (he.symm.trans he')
    obtain rfl := Option.some.inj (hput.symm.trans hsrc)
    exact hsole
  · exact fun hsole => ⟨e, he, _, hput, hsole⟩

/-- The result of a text that is one atom without escapes. -/
theorem sole_atom {src : Bytes} {p : ExprPtr F} (hscan : Sexp.Lexer.scan sg src =
    ⟨[.onAtom src, .onEof], .ok ()⟩) (hconv : defaultAtomConvert src = p) (hp : Ground p) :
    SoleResult sg call world src p := by
  refine ⟨⟨⟨∅, world⟩, [[p]]⟩, ?_, rfl⟩
  have hatom := Interpreter.onAtom_run (Lang.withDefault call) src ⟨∅, world⟩ [] []
  have hval : (Lang.withDefault call).convertAtom src ⟨∅, world⟩ = .ok p ⟨∅, world⟩ := by
    rw [← hconv]
    rfl
  rw [hval] at hatom
  dsimp only at hatom
  rw [eval_ground _ hp] at hatom
  rw [Sexp.parse_receives hscan, Sexp.receives_cons]
  unfold Sexp.Handler.listen
  rw [show (interpreter call).on (.onAtom src) (Interpreter.create ⟨∅, world⟩) = _ from hatom]
  rfl

/-- The colon begins an atom. -/
theorem rawLead_colon : Sexp.RawLead 58 :=
  ⟨⟨by decide, by decide, by decide, by decide⟩, by decide, by decide⟩

/-- The bytes of a numeral stand for themselves in an atom, and at its start. -/
theorem rawLead_numeral {t : Bytes} {z : Int} (h : Denotes t z) :
    ∀ c ∈ t, Sexp.RawLead c ∧ c ≠ 0xff := by
  intro c hc
  have hrange : 43 ≤ c.toNat ∧ c.toNat ≤ 57 := by
    rcases h.bytes c hc with hd | rfl | rfl
    · simp only [isDigit, Bool.decide_and, Bool.and_eq_true, decide_eq_true_eq] at hd
      rw [UInt8.le_iff_toNat_le, UInt8.le_iff_toNat_le] at hd
      have h48 : (48 : UInt8).toNat = 48 := rfl
      have h57 : (57 : UInt8).toNat = 57 := rfl
      omega
    · decide
    · decide
  have hne : ∀ d : UInt8, d.toNat < 43 ∨ 57 < d.toNat → c ≠ d := by
    rintro d hd rfl
    omega
  have hspace : Sexp.spaceByte c = false := by
    unfold Sexp.spaceByte Sexp.isspace
    rw [decide_eq_false_iff_not]
    omega
  exact ⟨⟨⟨hne _ (by decide), hne _ (by decide), hne _ (by decide), hspace⟩, hne _ (by decide),
    hne _ (by decide)⟩, hne _ (by decide)⟩

/-- What is written without escapes and needs one is read as something else. -/
theorem plain_of_sole {l : Literal} (h : SoleResult sg call world l.text (l.expr : ExprPtr F)) :
    l.Plain sg := by
  cases l with
  | string s => exact Sexp.Lexer.plain_of_string (h.made.of_string rfl)
  | keyword s =>
    exact Sexp.Lexer.plain_of_atom (by decide) rawLead_colon (h.made.of_keyword rfl)
  | integer i => exact trivial

theorem sole_of_plain {l : Literal} (h : l.Plain sg) :
    SoleResult sg call world l.text (l.expr : ExprPtr F) := by
  cases l with
  | string s =>
    refine ⟨⟨⟨∅, world⟩, [[mkString s]]⟩, ?_, rfl⟩
    show Sexp.parse (interpreter call) sg (Base.string.quoted s) _ = _
    rw [Sexp.parse_receives (Sexp.Lexer.scan_string h)]
    rfl
  | keyword s =>
    exact sole_atom (Sexp.Lexer.scan_atom (by decide) rawLead_colon h) rfl trivial
  | integer i =>
    have hden := denotes_decimal i.toInt
    obtain ⟨b, s, hs, -⟩ := hden.head
    have hraw := rawLead_numeral hden
    refine sole_atom ?_ (convert_decimal i) trivial
    show Sexp.Lexer.scan sg (ascii (toString i.toInt)) = ⟨[.onAtom (ascii _), _], _⟩
    rw [hs] at hraw ⊢
    obtain ⟨hlead, h255⟩ := hraw b List.mem_cons_self
    refine Sexp.Lexer.scan_atom h255 hlead fun c hc => ?_
    obtain ⟨hc, hc255⟩ := hraw c (List.mem_cons_of_mem b hc)
    exact ⟨hc.1, Sexp.toInt_ne_eos sg hc255⟩

/-- **Printed atoms can be read back** when each byte of them stands for itself, and only
then: in a string no `"` and no backslash, in a keyword no parenthesis, no backslash and no white
space, and in neither `0xFF` where `char` is signed. An integer always can. -/
theorem prints_back_iff (sg : CharSign)
    (call : F → ExprList F → EStateM Exn (Env F W) (ExprPtr F)) (world : W)
    (double : Float → Bytes) (l : Literal) :
    PrintsBack sg call world double l.expr ↔ l.Plain sg := by
  rw [prints_back_iff_sole]
  exact ⟨plain_of_sole, sole_of_plain⟩

end Reading

end Printing

/-- A quote, as a string. -/
def quote : Bytes := ascii "\""

/-- A keyword with a blank in it. -/
def blankInside : Bytes := ascii "a b"

/-- The string and the keyword are what `"\""` and `:a\ b` give, and are printed as `"""` and
`:a b`, which give something else. -/
theorem printed_not_read_back :
    (SoleResult .signed firstArg () (ascii "\"\\\"\"") (mkString quote) ∧
      ¬ PrintsBack .signed firstArg () (fun _ => []) (mkString quote)) ∧
    SoleResult .signed firstArg () (ascii ":a\\ b") (mkKeyword blankInside) ∧
      ¬ PrintsBack .signed firstArg () (fun _ => []) (mkKeyword blankInside) := by
  have hbad : ∀ l : Literal, ¬ l.Plain .signed →
      ¬ PrintsBack .signed firstArg () (fun _ => []) l.expr :=
    fun l hl h => hl (plain_of_sole (prints_back_iff_sole.mp h))
  refine ⟨⟨⟨⟨⟨∅, ()⟩, [[mkString quote]]⟩, ?_, rfl⟩, hbad (.string quote) ?_⟩,
    ⟨⟨⟨∅, ()⟩, [[mkKeyword blankInside]]⟩, ?_, rfl⟩, hbad (.keyword blankInside) ?_⟩
  · rfl
  · exact fun h => absurd (h 34 List.mem_cons_self) (by decide)
  · rfl
  · exact fun h => absurd (h 32 (by decide)) (by decide)

end Cor.Notlisp

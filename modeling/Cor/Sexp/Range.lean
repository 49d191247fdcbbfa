import Cor.Sexp.Escapes

/-!
# What can be reported

Which forests are there texts for? `reports_iff` answers it for both kinds of `char`: a
forest is what `parse` reads some text as exactly when

* it is nested less deep than `level` can count,
* its atoms are not empty, and
* where `char` is signed, every byte `0xFF` in its tokens is followed by an `f`. The byte
  itself ends the input of `parse`, and `\xff` brings its second digit along.

`write` is a text for every such forest: each byte by itself or after a backslash, and
`0xFF` by the escape where it has to be. That there are no others is an invariant of the
lexer (`Sound`): at every moment the data it has are the beginning of such a token.
-/

namespace Cor.Sexp

open Lib (Emit)

/-! ## Tokens that have a text -/

/-- Every byte `0xFF` is followed by an `f` of either case. -/
def Escorted : Bytes → Prop
  | [] => True
  | c :: d => (c = 0xff → d.head? = some 0x66 ∨ d.head? = some 0x46) ∧ Escorted d

/-- A call that a text may lead to. -/
def Callback.Sayable (sg : CharSign) : Callback → Prop
  | .onString d => sg = .signed → Escorted d
  | .onAtom d => d ≠ [] ∧ (sg = .signed → Escorted d)
  | _ => True

/-- What ends well goes on with any byte but `0xFF`. -/
theorem escorted_append {w : Bytes} (hw : Escorted w) : ∀ {d : Bytes}, Escorted d →
    Escorted (d ++ w) := by
  intro d
  induction d with
  | nil => intro _; exact hw
  | cons c d ih =>
    intro hd
    refine ⟨fun hc => ?_, ih hd.2⟩
    have hhead := hd.1 hc
    cases d with
    | nil => rcases hhead with h | h <;> cases h
    | cons e d => exact hhead

theorem escorted_one {c : UInt8} (hc : c ≠ 0xff) : Escorted [c] :=
  ⟨fun h => absurd h hc, trivial⟩

/-! ## Writing -/

instance (c : UInt8) : Decidable (RawAtom c) :=
  inferInstanceAs (Decidable (c ≠ 0x28 ∧ c ≠ 0x29 ∧ c ≠ 0x5c ∧ spaceByte c = false))

instance (c : UInt8) : Decidable (RawLead c) :=
  inferInstanceAs (Decidable (RawAtom c ∧ c ≠ 0x22 ∧ c ≠ 0x3b))

/-- A byte of a token: itself, or after a backslash. -/
def spellByte (c : UInt8) : Bytes := if RawLead c then [c] else [0x5c, c]

/-- A token. The escape `\xff` is followed by the digit it brings along. -/
def spell (sg : CharSign) : Bytes → Bytes
  | [] => []
  | [c] => spellByte c
  | c :: e :: d =>
    if sg = .signed ∧ c = 0xff then 0x5c :: 0x78 :: 0x66 :: e :: spell sg d
    else spellByte c ++ spell sg (e :: d)

mutual

/-- **A text for a form.** -/
def Form.write (sg : CharSign) : Form → Bytes
  | .list items => 0x28 :: (writeForest sg items ++ [0x29])
  | .string d => 0x22 :: (spell sg d ++ [0x22])
  | .atom d => spell sg d ++ [0x20]

def writeForest (sg : CharSign) : List Form → Bytes
  | [] => []
  | f :: fs => f.write sg ++ writeForest sg fs

end

/-! ## Reading what is written -/

theorem rawLead_raw {c : UInt8} (hc : RawLead c) (b : Base) : Base.raw b c := by
  cases b with
  | string => exact ⟨hc.2.1, hc.1.2.2.1⟩
  | atom => exact hc.1

/-- What is not itself in a token stands for itself after a backslash. -/
theorem not_rawLead_escaped {c : UInt8} (hc : ¬ RawLead c) :
    c ≠ 0xff ∧ c ≠ 0x78 ∧ assoc c = none := by
  have hall : ∀ e : UInt8, RawLead e → c ≠ e := fun e he hce => hc (hce ▸ he)
  refine ⟨hall _ (by decide), hall _ (by decide), ?_⟩
  unfold assoc
  rw [if_neg (hall _ (by decide)), if_neg (hall _ (by decide)), if_neg (hall _ (by decide)),
    if_neg (hall _ (by decide)), if_neg (hall _ (by decide)), if_neg (hall _ (by decide))]

namespace Lexer

variable {sg : CharSign} {level : UInt32} {data : Bytes} {pos : Int}

variable (level data pos) in
/-- One byte of a token. -/
theorem steps_spellByte (b : Base) {c : UInt8} (hc : sg.toInt c ≠ eos) :
    ∃ pos', steps sg ⟨.text b, level, data, pos⟩ (spellByte c) =
      pure ⟨.text b, level, data ++ [c], pos'⟩ := by
  unfold spellByte
  by_cases hraw : RawLead c
  · rw [if_pos hraw]
    refine ⟨pos + 1, ?_⟩
    show (step sg _ c >>= fun l' => pure l') = _
    rw [step_raw (rawLead_raw hraw b) hc]
    rfl
  · rw [if_neg hraw]
    obtain ⟨h255, hx, hassoc⟩ := not_rawLead_escaped hraw
    have hesc : step sg ⟨.text b, level, data, pos⟩ 0x5c =
        pure ⟨.escape b, level, data, pos + 1⟩ := by
      cases sg <;> cases b <;> rfl
    refine ⟨pos + 1 + 1, ?_⟩
    show (step sg _ 0x5c >>= fun l' => step sg l' c >>= fun l'' => pure l'') = _
    rw [hesc, Emit.pure_bind, step_escape h255 hx, hassoc]
    rfl

theorem toInt_ne_eos_of {c : UInt8} (hc : ¬ (sg = .signed ∧ c = 0xff)) : sg.toInt c ≠ eos := by
  by_cases h255 : c = 0xff
  · cases sg with
    | signed => exact absurd ⟨rfl, h255⟩ hc
    | unsigned =>
      rw [h255]
      decide
  · exact toInt_ne_eos sg h255

variable (level) in
/-- The bytes of a token. -/
theorem scanFrom_spell (b : Base) (k : Bytes) : ∀ (d : Bytes), (sg = .signed → Escorted d) →
    ∀ (data : Bytes) (pos : Int), ∃ pos',
      scanFrom sg ⟨.text b, level, data, pos⟩ (spell sg d ++ k) =
        scanFrom sg ⟨.text b, level, data ++ d, pos'⟩ k
  | [], _, data, pos => ⟨pos, by rw [List.append_nil]; rfl⟩
  | [c], hd, data, pos => by
    have hc : ¬ (sg = .signed ∧ c = 0xff) := by
      rintro ⟨hsg, hc⟩
      rcases (hd hsg).1 hc with h | h <;> cases h
    obtain ⟨pos', hsteps⟩ := steps_spellByte level data pos b
      (toInt_ne_eos_of hc)
    exact ⟨pos', scanFrom_quiet hsteps k⟩
  | c :: e :: d, hd, data, pos => by
    unfold spell
    by_cases hc : sg = .signed ∧ c = 0xff
    · rw [if_pos hc]
      obtain ⟨hsg, rfl⟩ := hc
      have he : hexDigit e = some 15 := by
        rcases (hd hsg).1 rfl with h | h
        · rw [Option.some.inj h]
          rfl
        · rw [Option.some.inj h]
          rfl
      obtain ⟨pos', hrest⟩ := scanFrom_spell b k d (fun h => (hd h).2.2) (data ++ [0xff, e]) (pos + 4)
      refine ⟨pos', ?_⟩
      have hhex := @scanFrom_hex sg level data pos b 0x66 e 15 15 rfl he (spell sg d ++ k)
      rw [List.append_assoc] at hrest
      exact hhex.trans hrest
    · rw [if_neg hc, List.append_assoc]
      obtain ⟨pos₁, hsteps⟩ := steps_spellByte level data pos b
        (toInt_ne_eos_of hc)
      obtain ⟨pos', hrest⟩ := scanFrom_spell b k (e :: d) (fun h => (hd h).2) (data ++ [c]) pos₁
      refine ⟨pos', ?_⟩
      rw [scanFrom_quiet hsteps, hrest, List.append_assoc]
      rfl

/-- A character that may start an atom is taken between tokens as within one. -/
theorem step_lead {c : UInt8} (hc : RawLead c) (heos : sg.toInt c ≠ eos) :
    step sg ⟨.top, level, [], pos⟩ c = step sg ⟨.text .atom, level, [], pos⟩ c := by
  obtain ⟨hatom, hquote, hsemi⟩ := hc
  have hends := not_endsAtom sg hatom heos
  rw [step_eq, step_eq]
  show atTop _ _ = inAtom _ _
  unfold atTop inAtom
  rw [hends, if_neg, if_neg, if_neg, if_neg, if_neg, if_neg heos]
  · rfl
  · rw [toInt_eq_ord sg c (by decide)]
    exact hquote
  · rw [isspace_toInt]
    simp [hatom.2.2.2]
  · rw [toInt_eq_ord sg c (by decide)]
    exact hsemi
  · rw [toInt_eq_ord sg c (by decide)]
    exact hatom.1
  · rw [toInt_eq_ord sg c (by decide)]
    exact hatom.2.1

/-- So is a backslash. -/
theorem step_lead_escape :
    step sg ⟨.top, level, [], pos⟩ 0x5c = step sg ⟨.text .atom, level, [], pos⟩ 0x5c := by
  cases sg <;> rfl

/-- The bytes of an atom, from between tokens. -/
theorem scanFrom_spell_lead {d : Bytes} (hne : d ≠ []) (hd : sg = .signed → Escorted d)
    (k : Bytes) : scanFrom sg ⟨.top, level, [], pos⟩ (spell sg d ++ k) =
      scanFrom sg ⟨.text .atom, level, [], pos⟩ (spell sg d ++ k) := by
  have hfirst : ∀ c s, step sg ⟨.top, level, [], pos⟩ c = step sg ⟨.text .atom, level, [], pos⟩ c →
      scanFrom sg ⟨.top, level, [], pos⟩ (c :: s) =
        scanFrom sg ⟨.text .atom, level, [], pos⟩ (c :: s) := by
    intro c s hc
    rw [scanFrom_cons, scanFrom_cons, hc]
  have hbyte : ∀ c s, ¬ (sg = .signed ∧ c = 0xff) →
      scanFrom sg ⟨.top, level, [], pos⟩ (spellByte c ++ s) =
        scanFrom sg ⟨.text .atom, level, [], pos⟩ (spellByte c ++ s) := by
    intro c s hc
    unfold spellByte
    by_cases hraw : RawLead c
    · rw [if_pos hraw]
      exact hfirst c s (step_lead hraw (toInt_ne_eos_of hc))
    · rw [if_neg hraw]
      exact hfirst 0x5c (c :: s) step_lead_escape
  cases d with
  | nil => exact absurd rfl hne
  | cons c d =>
    cases d with
    | nil =>
      refine hbyte c k ?_
      rintro ⟨hsg, hc⟩
      rcases (hd hsg).1 hc with h | h <;> cases h
    | cons e d =>
      unfold spell
      by_cases hc : sg = .signed ∧ c = 0xff
      · rw [if_pos hc]
        exact hfirst 0x5c _ step_lead_escape
      · rw [if_neg hc, List.append_assoc]
        exact hbyte c _ hc

mutual

/-- **Reading a form**: its events, and the lexer between tokens at the same level. -/
theorem scanFrom_form : ∀ (f : Form) (level : UInt32) (pos : Int) (k : Bytes),
    (∀ w ∈ f.events, w.Sayable sg) → level.toNat + f.depth < 2 ^ 32 → ∃ pos',
      scanFrom sg ⟨.top, level, [], pos⟩ (f.write sg ++ k) =
        (scanFrom sg ⟨.top, level, [], pos'⟩ k).after f.events
  | .list items, level, pos, k, hsay, hdepth => by
    have hroom : level.toNat + 1 + forestDepth items < 2 ^ 32 := by
      have h : level.toNat + (forestDepth items + 1) < 2 ^ 32 := hdepth
      omega
    obtain ⟨hsucc, hne⟩ := @level_succ level (by omega)
    obtain ⟨pos', hitems⟩ := scanFrom_forest items (level + 1) (pos + 1) (0x29 :: k)
      (fun w hw => hsay w (List.mem_cons_of_mem _ (List.mem_append_left _ hw))) (by omega)
    refine ⟨pos' + 1, ?_⟩
    show scanFrom sg _ (0x28 :: ((writeForest sg items ++ [0x29]) ++ k)) = _
    rw [List.append_assoc, scanFrom_cons, step_opens, Emit.after_bind, Emit.pure_bind]
    show (scanFrom sg _ (writeForest sg items ++ 0x29 :: k)).after _ = _
    rw [hitems, scanFrom_cons, step_closes pos' hne, Emit.after_bind, Emit.pure_bind,
      Emit.after_after, Emit.after_after]
    rfl
  | .string d, level, pos, k, hsay, _ => by
    have hd : sg = .signed → Escorted d := hsay (.onString d) List.mem_cons_self
    have hopen : step sg ⟨.top, level, [], pos⟩ 0x22 =
        pure ⟨.text .string, level, [], pos + 1⟩ := by
      cases sg <;> rfl
    obtain ⟨pos', hbody⟩ := scanFrom_spell level .string (0x22 :: k) d hd [] (pos + 1)
    refine ⟨pos' + 1, ?_⟩
    show scanFrom sg _ (0x22 :: ((spell sg d ++ [0x22]) ++ k)) = _
    rw [List.append_assoc, scanFrom_cons, hopen, Emit.pure_bind]
    show scanFrom sg _ (spell sg d ++ 0x22 :: k) = _
    have hclose : step sg ⟨.text .string, level, [] ++ d, pos'⟩ 0x22 =
        (pure ⟨.top, level, [], pos' + 1⟩ : Scan Lexer).after [.onString d] := by
      cases sg <;> rfl
    rw [hbody, scanFrom_cons, hclose, Emit.after_bind, Emit.pure_bind]
    rfl
  | .atom d, level, pos, k, hsay, _ => by
    obtain ⟨hne, hd⟩ : d ≠ [] ∧ (sg = .signed → Escorted d) := hsay (.onAtom d) List.mem_cons_self
    obtain ⟨pos', hbody⟩ := scanFrom_spell level .atom (0x20 :: k) d hd [] pos
    refine ⟨pos' + 1, ?_⟩
    show scanFrom sg _ ((spell sg d ++ [0x20]) ++ k) = _
    rw [List.append_assoc]
    show scanFrom sg _ (spell sg d ++ 0x20 :: k) = _
    have hspace : step sg ⟨.text .atom, level, [] ++ d, pos'⟩ 0x20 =
        (pure ⟨.top, level, [], pos' + 1⟩ : Scan Lexer).after [.onAtom d] := by
      cases sg <;> rfl
    rw [scanFrom_spell_lead hne hd, hbody, scanFrom_cons, hspace, Emit.after_bind, Emit.pure_bind]
    rfl

theorem scanFrom_forest : ∀ (fs : List Form) (level : UInt32) (pos : Int) (k : Bytes),
    (∀ w ∈ forestEvents fs, w.Sayable sg) → level.toNat + forestDepth fs < 2 ^ 32 → ∃ pos',
      scanFrom sg ⟨.top, level, [], pos⟩ (writeForest sg fs ++ k) =
        (scanFrom sg ⟨.top, level, [], pos'⟩ k).after (forestEvents fs)
  | [], level, pos, k, _, _ => ⟨pos, rfl⟩
  | f :: fs, level, pos, k, hsay, hdepth => by
    have hmax : level.toNat + max f.depth (forestDepth fs) < 2 ^ 32 := hdepth
    obtain ⟨pos₁, hf⟩ := scanFrom_form f level pos (writeForest sg fs ++ k)
      (fun w hw => hsay w (List.mem_append_left _ hw)) (by omega)
    obtain ⟨pos', hfs⟩ := scanFrom_forest fs level pos₁ k
      (fun w hw => hsay w (List.mem_append_right _ hw)) (by omega)
    refine ⟨pos', ?_⟩
    show scanFrom sg _ ((f.write sg ++ writeForest sg fs) ++ k) = _
    rw [List.append_assoc, hf, hfs, Emit.after_after]
    rfl

end

end Lexer

mutual

/-- The events of a form are no comments. -/
theorem formEvents_tokens : ∀ (f : Form), f.events.filter Callback.isToken = f.events
  | .list items => by
    show (Callback.onListBegin :: (forestEvents items ++ [.onListEnd])).filter _ = _
    rw [List.filter_cons_of_pos rfl, List.filter_append, forestEvents_tokens items]
    rfl
  | .string s => rfl
  | .atom s => rfl

theorem forestEvents_tokens : ∀ (fs : List Form),
    (forestEvents fs).filter Callback.isToken = forestEvents fs
  | [] => rfl
  | f :: fs => by
    show (f.events ++ forestEvents fs).filter _ = f.events ++ forestEvents fs
    rw [List.filter_append, formEvents_tokens f, forestEvents_tokens fs]

end

/-- A forest that is written is read back. -/
theorem write_readsBack {sg : CharSign} {fs : List Form} (hdepth : forestDepth fs < 2 ^ 32)
    (hsay : ∀ w ∈ forestEvents fs, w.Sayable sg) : ReadsBack sg fs (writeForest sg fs) := by
  have hlevel : (0 : UInt32).toNat + forestDepth fs < 2 ^ 32 := by
    show 0 + _ < _
    omega
  obtain ⟨pos', hread⟩ := Lexer.scanFrom_forest fs 0 0 [] hsay hlevel
  rw [List.append_nil] at hread
  have hscan : Lexer.scan sg (writeForest sg fs) = ⟨forestEvents fs ++ [Callback.onEof], .ok ()⟩ := hread
  have htokens : (forestEvents fs ++ [Callback.onEof]).filter Callback.isToken =
      forestEvents fs ++ [.onEof] := by
    rw [List.filter_append, forestEvents_tokens]
    rfl
  refine ⟨_, htokens, fun ε η h => ⟨parse_receives hscan h, fun hok s => ?_⟩⟩
  rw [parse_receives hscan h]
  exact receives_ok hok _ s

/-! ## The level -/

/-- What a call does to the level. There is no list to close at level 0. -/
def Callback.levels (n : UInt32) : Callback → Option UInt32
  | .onListBegin => some (n + 1)
  | .onListEnd => if n = 0 then none else some (n - 1)
  | _ => some n

def levelAfter (n : UInt32) (ws : List Callback) : Option UInt32 := ws.foldlM Callback.levels n

theorem levelAfter_cons (n : UInt32) (w : Callback) (ws : List Callback) :
    levelAfter n (w :: ws) = (w.levels n).bind fun m => levelAfter m ws := rfl

theorem levelAfter_append (n : UInt32) (ws vs : List Callback) :
    levelAfter n (ws ++ vs) = (levelAfter n ws).bind fun m => levelAfter m vs :=
  List.foldlM_append

theorem levelAfter_filter : ∀ (ws : List Callback) (n : UInt32),
    levelAfter n (ws.filter Callback.isToken) = levelAfter n ws
  | [], n => rfl
  | w :: ws, n => by
    rw [levelAfter_cons]
    cases w with
    | onComment s => exact levelAfter_filter ws n
    | onListBegin =>
      show (Callback.levels n .onListBegin).bind (fun m => levelAfter m (ws.filter _)) = _
      exact congrArg _ (funext fun m => levelAfter_filter ws m)
    | onListEnd =>
      show (Callback.levels n .onListEnd).bind (fun m => levelAfter m (ws.filter _)) = _
      exact congrArg _ (funext fun m => levelAfter_filter ws m)
    | onString s => exact levelAfter_filter ws n
    | onAtom s => exact levelAfter_filter ws n
    | onEof => exact levelAfter_filter ws n

mutual

/-- A form comes back to its level, if `level` can count its lists. -/
theorem levelAfter_form : ∀ (f : Form) (n : UInt32),
    levelAfter n f.events = if n.toNat + f.depth < 2 ^ 32 then some n else none
  | .list items, n => by
    have hlt := n.toNat_lt
    have hevents : levelAfter n (Form.list items).events =
        (levelAfter (n + 1) (forestEvents items)).bind fun m => Callback.levels m .onListEnd := by
      show levelAfter (n + 1) (forestEvents items ++ [.onListEnd]) = _
      rw [levelAfter_append]
      congr 1
      funext m
      rw [levelAfter_cons]
      exact Option.bind_fun_some _
    have hdepth : (Form.list items).depth = forestDepth items + 1 := rfl
    rw [hevents, levelAfter_forest items (n + 1), hdepth]
    by_cases hroom : n.toNat + 1 < 2 ^ 32
    · obtain ⟨hsucc, hne⟩ := Lexer.level_succ hroom
      by_cases hdeep : n.toNat + (forestDepth items + 1) < 2 ^ 32
      · rw [if_pos (by omega), if_pos hdeep]
        show (if n + 1 = 0 then none else some (n + 1 - 1)) = _
        rw [if_neg hne, UInt32.add_sub_cancel]
      · rw [if_neg (by omega), if_neg hdeep]
        rfl
    · -- the level has wrapped, and the end of the list finds it at 0
      have hzero : n + 1 = 0 := by
        apply UInt32.toNat_inj.mp
        rw [UInt32.toNat_add]
        show (n.toNat + 1) % 2 ^ 32 = 0
        rw [show n.toNat + 1 = 2 ^ 32 by omega, Nat.mod_self]
      rw [if_neg (show ¬ n.toNat + (forestDepth items + 1) < 2 ^ 32 by omega), hzero]
      split <;> rfl
  | .string s, n => (if_pos (show n.toNat + 0 < 2 ^ 32 from n.toNat_lt)).symm
  | .atom s, n => (if_pos (show n.toNat + 0 < 2 ^ 32 from n.toNat_lt)).symm

theorem levelAfter_forest : ∀ (fs : List Form) (n : UInt32),
    levelAfter n (forestEvents fs) = if n.toNat + forestDepth fs < 2 ^ 32 then some n else none
  | [], n => (if_pos (show n.toNat + 0 < 2 ^ 32 from n.toNat_lt)).symm
  | f :: fs, n => by
    have hdepth : forestDepth (f :: fs) = max f.depth (forestDepth fs) := rfl
    show levelAfter n (f.events ++ forestEvents fs) = _
    rw [levelAfter_append, levelAfter_form f n, hdepth]
    by_cases hf : n.toNat + f.depth < 2 ^ 32
    · rw [if_pos hf]
      show levelAfter n (forestEvents fs) = _
      rw [levelAfter_forest fs n]
      by_cases hfs : n.toNat + forestDepth fs < 2 ^ 32
      · rw [if_pos hfs, if_pos (by omega)]
      · rw [if_neg hfs, if_neg (by omega)]
    · rw [if_neg hf, if_neg (by omega)]
      rfl

end

/-! ## What the lexer says -/

/-- The data of the lexer are the beginning of a token that has a text. -/
def Sound (sg : CharSign) (l : Lexer) : Prop :=
  match l.mode with
  | .top | .comment => True
  | .text b => (sg = .signed → Escorted l.data) ∧ (b = .atom → l.data ≠ [])
  | .escape _ | .hex _ none => sg = .signed → Escorted l.data
  | .hex _ (some high) =>
    (sg = .signed → Escorted l.data) ∧ ∃ n < 16, high = ((n : Nat) : Int) <<< (4 : Nat)

/-- From the level `n`, the calls of `x` are such as a text may lead to, and they lead to
the level the lexer has. -/
structure Tells (sg : CharSign) (n : UInt32) (x : Lexer.Scan Lexer) : Prop where
  sayable : ∀ w ∈ x.events, w.Sayable sg
  counts : ∃ m, levelAfter n x.events = some m ∧ ∀ l, x.result = .ok l → l.level = m ∧ Sound sg l

namespace Tells

variable {sg : CharSign} {n : UInt32}

theorem pure {l : Lexer} (hl : Sound sg l) : Tells sg l.level (Pure.pure l) where
  sayable := fun _ h => by cases h
  counts := ⟨l.level, rfl, fun l' h => by
    obtain rfl := Except.ok.inj h
    exact ⟨rfl, hl⟩⟩

theorem fail (e : Error) : Tells sg n (Emit.fail e) where
  sayable := fun _ h => by cases h
  counts := ⟨n, rfl, fun _ h => by cases h⟩

theorem after {m : UInt32} {w : Callback} {x : Lexer.Scan Lexer} (hw : w.Sayable sg)
    (hm : w.levels n = some m) (h : Tells sg m x) : Tells sg n (x.after [w]) where
  sayable := by
    intro v hv
    rcases List.mem_cons.mp hv with rfl | hv
    · exact hw
    · exact h.sayable v hv
  counts := by
    obtain ⟨k, hk, hl⟩ := h.counts
    refine ⟨k, ?_, hl⟩
    show levelAfter n (w :: x.events) = _
    rw [levelAfter_cons, hm]
    exact hk

end Tells

namespace Lexer

variable {sg : CharSign} {l : Lexer} {b : Base}

/-- A byte that a token takes as it is. -/
theorem ne_ff_of_toInt {c : UInt8} (hc : sg.toInt c ≠ eos) (hsg : sg = .signed) : c ≠ 0xff := by
  rintro rfl
  subst hsg
  exact hc rfl

theorem take_sound {c : UInt8} (hd : sg = .signed → Escorted l.data) (hc : sg.toInt c ≠ eos) :
    Sound sg (l.take b (sg.toInt c)) := by
  unfold take
  split
  · exact hd
  · rw [toChar_toInt]
    refine ⟨fun hsg => escorted_append (escorted_one (ne_ff_of_toInt hc hsg)) (hd hsg), fun _ => ?_⟩
    exact List.append_ne_nil_of_right_ne_nil _ (List.cons_ne_nil _ _)

theorem atTop_tells (hmode : l.mode = .top) (c : UInt8) :
    Tells sg l.level (l.atTop (sg.toInt c)) := by
  have htop : ∀ {l' : Lexer}, l'.mode = .top → Sound sg l' := by
    intro l' h
    unfold Sound
    rw [h]
    trivial
  unfold atTop
  split
  · split
    · exact .fail _
    next h0 =>
      have hpred : Callback.levels l.level .onListEnd = some (l.level - 1) := if_neg h0
      exact .after trivial hpred (.pure (l := { l with level := l.level - 1 }) (htop hmode))
  split
  · exact .after trivial rfl (.pure (l := { l with level := l.level + 1 }) (htop hmode))
  split
  · exact .pure (l := { l with mode := .comment, data := [] }) trivial
  split
  · exact .pure (htop hmode)
  split
  · refine .pure (l := { l with mode := .text .string, data := [] }) ⟨fun _ => trivial, ?_⟩
    intro h
    cases h
  split
  · exact .pure (htop hmode)
  next heos =>
    have hlevel : ({ l with data := [] }.take .atom (sg.toInt c)).level = l.level := by
      unfold take
      split <;> rfl
    have htells := Tells.pure (take_sound (l := { l with data := [] }) (b := .atom)
      (fun _ => trivial) heos)
    rw [hlevel] at htells
    exact htells

theorem inText_tells (hd : sg = .signed → Escorted l.data) (hne : b = .atom → l.data ≠ [])
    (c : UInt8) : Tells sg l.level (l.inText b (sg.toInt c)) := by
  have htake : ∀ b, sg.toInt c ≠ eos → Tells sg l.level (Pure.pure (l.take b (sg.toInt c))) := by
    intro b heos
    have hlevel : (l.take b (sg.toInt c)).level = l.level := by
      unfold take
      split <;> rfl
    have htells := Tells.pure (take_sound (b := b) hd heos)
    rw [hlevel] at htells
    exact htells
  cases b with
  | atom =>
    show Tells sg l.level (l.inAtom _)
    unfold inAtom
    split
    · exact .after (x := l.toTop.atTop _) ⟨hne rfl, hd⟩ rfl (atTop_tells (l := l.toTop) rfl c)
    next hends =>
      refine htake .atom fun heos => hends ?_
      rw [heos]
      decide
  | string =>
    show Tells sg l.level (l.inString _)
    unfold inString
    split
    · exact .after (x := Pure.pure l.toTop) hd rfl (.pure (l := l.toTop) trivial)
    split
    · exact .fail _
    next heos => exact htake .string heos

/-- The second digit of an escape is taken by the token. -/
theorem inText_digit (l : Lexer) (b : Base) {c : UInt8} {n : Nat} (hc : hexDigit c = some n) :
    l.inText b (sg.toInt c) = pure ⟨.text b, l.level, l.data ++ [c], l.tellg⟩ := by
  obtain ⟨hraw, h255⟩ := hexDigit_raw (b := b) hc
  obtain ⟨mode, level, data, pos⟩ := l
  have hstep := @step_raw sg level data (pos - 1) b c hraw (toInt_ne_eos sg h255)
  rw [step_eq, show pos - 1 + 1 = pos by omega] at hstep
  cases b with
  | atom => exact hstep
  | string => exact hstep

/-- The byte `0xFF` of an escape is followed by its second digit. -/
theorem escorted_hex (n : Nat) {m : Nat} {c : UInt8} (hc : hexDigit c = some m) :
    Escorted [UInt8.ofNat (16 * n + m), c] := by
  refine ⟨fun hff => ?_, escorted_one (hexDigit_raw (b := .string) hc).2⟩
  have hm := hexDigit_lt hc
  have hsum : (UInt8.ofNat (16 * n + m)).toNat = 255 := by
    rw [hff]
    rfl
  rw [UInt8.toNat_ofNat'] at hsum
  obtain rfl : m = 15 := by omega
  have hlt := c.toNat_lt
  have hcode : c.toNat = 0x66 ∨ c.toNat = 0x46 := by
    unfold hexDigit at hc
    split at hc
    · have h := Option.some.inj hc
      omega
    split at hc
    · have h := Option.some.inj hc
      omega
    split at hc
    · have h := Option.some.inj hc
      omega
    · cases hc
  rcases hcode with h | h
  · exact Or.inl (congrArg some (UInt8.toNat_inj.mp h))
  · exact Or.inr (congrArg some (UInt8.toNat_inj.mp h))

/-- What a backslash makes of a byte. -/
theorem assoc_getD_ne {c : UInt8} (hc : c ≠ 0xff) : (assoc c).getD c ≠ 0xff := by
  have hval : assoc c ≠ some 0xff := by
    intro h
    unfold assoc at h
    repeat' split at h
    all_goals exact absurd h (by decide)
  cases h : assoc c with
  | none => exact hc
  | some e =>
    rintro rfl
    exact hval h

theorem high_ne : ∀ n < 16, toChar (((n : Nat) : Int) <<< (4 : Nat)) ≠ 0xff := by decide

/-- **One character.** -/
theorem onChar_tells (hl : Sound sg l) (c : UInt8) : Tells sg l.level (l.onChar (sg.toInt c)) := by
  obtain ⟨mode, level, data, pos⟩ := l
  unfold onChar
  cases mode with
  | top => exact atTop_tells rfl c
  | comment =>
    dsimp only
    split
    · exact .after trivial rfl (.pure (l := ⟨.top, level, [], pos⟩) trivial)
    · exact .pure (l := ⟨.comment, level, _, pos⟩) trivial
  | text b => exact inText_tells hl.1 hl.2 c
  | escape b =>
    have hd : sg = .signed → Escorted data := hl
    dsimp only
    split
    · exact .fail _
    next heos =>
    split
    · exact .pure (l := ⟨.hex b none, level, data, pos⟩) hd
    · rw [toChar_toInt]
      refine .pure (l := ⟨.text b, level, _, pos⟩) ⟨fun hsg => ?_, fun _ => ?_⟩
      · exact escorted_append (escorted_one (assoc_getD_ne (ne_ff_of_toInt heos hsg))) (hd hsg)
      · exact List.append_ne_nil_of_right_ne_nil _ (List.cons_ne_nil _ _)
  | hex b high =>
    cases high with
    | none =>
      have hd : sg = .signed → Escorted data := hl
      dsimp only
      split
      · next hdigit =>
        obtain ⟨n, hn⟩ := hexDigit_of_char2hex sg hdigit
        rw [char2hex_hexDigit sg hn]
        exact .pure (l := ⟨.hex b (some _), level, data, pos⟩) ⟨hd, n, hexDigit_lt hn, rfl⟩
      · exact .fail _
    | some high =>
      obtain ⟨hd, n, hn, rfl⟩ := hl
      dsimp only
      split
      · next hdigit =>
        obtain ⟨m, hm⟩ := hexDigit_of_char2hex sg hdigit
        rw [char2hex_hexDigit sg hm, toChar_lor hn (hexDigit_lt hm), inText_digit _ b hm]
        refine .pure (l := ⟨.text b, level, _, pos⟩) ⟨fun hsg => ?_, fun _ => ?_⟩
        · show Escorted (data ++ [_] ++ [c])
          rw [List.append_assoc]
          exact escorted_append (escorted_hex n hm) (hd hsg)
        · exact List.append_ne_nil_of_right_ne_nil _ (List.cons_ne_nil _ _)
      · refine inText_tells (l := ⟨.text b, level, _, pos⟩) (fun hsg => ?_) (fun _ => ?_) c
        · exact escorted_append (escorted_one (high_ne n hn)) (hd hsg)
        · exact List.append_ne_nil_of_right_ne_nil _ (List.cons_ne_nil _ _)

/-- The characters of a text. -/
theorem steps_tells : ∀ (src : Bytes) {l : Lexer}, Sound sg l → Tells sg l.level (l.steps sg src)
  | [], l, hl => .pure hl
  | c :: src, l, hl => by
    have hone : Tells sg l.level (l.step sg c) :=
      onChar_tells (l := { l with tellg := l.tellg + 1 }) hl c
    obtain ⟨m, hm, hnext⟩ := hone.counts
    show Tells sg l.level (l.step sg c >>= fun l' => l'.steps sg src)
    cases hres : (l.step sg c).result with
    | error e =>
      rw [Emit.bind_error hres]
      exact ⟨hone.sayable, m, hm, fun _ h => by cases h⟩
    | ok l₁ =>
      obtain ⟨hlevel, hsound⟩ := hnext l₁ hres
      have hrest := steps_tells src hsound
      obtain ⟨k, hk, hend⟩ := hrest.counts
      rw [Emit.bind_ok hres]
      refine ⟨fun w hw => ?_, k, ?_, hend⟩
      · rcases List.mem_append.mp hw with hw | hw
        · exact hone.sayable w hw
        · exact hrest.sayable w hw
      · show levelAfter l.level ((l.step sg c).events ++ (l₁.steps sg src).events) = _
        rw [levelAfter_append, hm, ← hlevel]
        exact hk

/-- The calls for an accepted text. -/
theorem scan_tells {src : Bytes} {ws : List Callback} (hscan : scan sg src = ⟨ws, .ok ()⟩) :
    (∀ w ∈ ws, w.Sayable sg) ∧ ∃ m, levelAfter 0 ws = some m := by
  have hsteps : Tells sg 0 (start.steps sg src) := steps_tells src (l := start) trivial
  obtain ⟨m, hm, hend⟩ := hsteps.counts
  unfold scan scanFrom at hscan
  cases hres : (start.steps sg src).result with
  | error e =>
    rw [Emit.bind_error hres] at hscan
    cases hscan
  | ok l =>
    obtain ⟨-, hsound⟩ := hend l hres
    have heos : (∀ w ∈ l.atEos.events, w.Sayable sg) ∧ levelAfter m l.atEos.events = some m := by
      obtain ⟨mode, level, data, pos⟩ := l
      cases mode with
      | comment =>
        refine ⟨fun w hw => ?_, rfl⟩
        obtain rfl := List.mem_singleton.mp hw
        trivial
      | text b =>
        cases b with
        | atom =>
          refine ⟨fun w hw => ?_, rfl⟩
          obtain rfl := List.mem_singleton.mp hw
          exact ⟨hsound.2 rfl, hsound.1⟩
        | string => exact ⟨fun w hw => (List.not_mem_nil hw).elim, rfl⟩
      | _ => exact ⟨fun w hw => (List.not_mem_nil hw).elim, rfl⟩
    rw [Emit.bind_ok hres] at hscan
    have hevents : (start.steps sg src).events ++
        (l.atEos >>= fun _ => Emit.event .onEof).events = ws := congrArg Emit.events hscan
    have hresult : (l.atEos >>= fun _ => Emit.event .onEof).result = .ok () :=
      congrArg Emit.result hscan
    obtain ⟨u, hu, -⟩ := Emit.bind_result_ok.mp hresult
    rw [Emit.bind_ok hu] at hevents
    subst hevents
    refine ⟨fun w hw => ?_, m, ?_⟩
    · rcases List.mem_append.mp hw with hw | hw
      · exact hsteps.sayable w hw
      rcases List.mem_append.mp hw with hw | hw
      · exact heos.1 w hw
      · obtain rfl := List.mem_singleton.mp hw
        trivial
    · rw [levelAfter_append, hm]
      show levelAfter m (l.atEos.events ++ [.onEof]) = _
      rw [levelAfter_append, heos.2]
      rfl

end Lexer

/-! ## The answer -/

/-- The calls that read a forest back are those of the lexer. -/
theorem scan_of_readsBack {sg : CharSign} {fs : List Form} {src : Bytes}
    (h : ReadsBack sg fs src) : ∃ ws, ws.filter Callback.isToken = forestEvents fs ++ [.onEof] ∧
      Lexer.scan sg src = ⟨ws, .ok ()⟩ := by
  obtain ⟨ws, hws, hall⟩ := h
  refine ⟨ws, hws, ?_⟩
  have hparse := congrFun (hall Empty (List Callback) recorder).1 []
  rw [parse_eq_play, recorder_play, recorder_receives] at hparse
  cases hres : (Lexer.scan sg src).result with
  | error e =>
    rw [hres] at hparse
    cases hparse
  | ok u =>
    rw [hres] at hparse
    have hevents : [] ++ (Lexer.scan sg src).events = [] ++ ws := (EStateM.Result.ok.inj hparse).2
    exact Emit.ext hevents hres

/-- What a text is read as has a text. -/
theorem sayable_of_readsBack {sg : CharSign} {fs : List Form} {src : Bytes}
    (h : ReadsBack sg fs src) :
    forestDepth fs < 2 ^ 32 ∧ ∀ w ∈ forestEvents fs, w.Sayable sg := by
  obtain ⟨ws, hws, hscan⟩ := scan_of_readsBack h
  obtain ⟨hsay, m, hm⟩ := Lexer.scan_tells hscan
  refine ⟨?_, fun w hw => hsay w ?_⟩
  · have hlevel : levelAfter 0 (forestEvents fs ++ [.onEof]) = some m := by
      rw [← hws, levelAfter_filter]
      exact hm
    rw [levelAfter_append, levelAfter_forest] at hlevel
    by_contra hdeep
    rw [if_neg (show ¬ (0 : UInt32).toNat + forestDepth fs < 2 ^ 32 by
      show ¬ 0 + _ < _
      omega)] at hlevel
    cases hlevel
  · have hmem : w ∈ ws.filter Callback.isToken := by
      rw [hws]
      exact List.mem_append_left _ hw
    exact List.mem_of_mem_filter hmem

/-- **What can be reported.** There is a text that `parse` reads as the forest exactly when
`level` can count its depth, no atom is empty, and, where `char` is signed, every `0xFF`
in a token is followed by an `f`. Then `writeForest` gives such a text. -/
theorem reports_iff (sg : CharSign) (fs : List Form) :
    ((∃ src, ReadsBack sg fs src) ↔
      forestDepth fs < 2 ^ 32 ∧ ∀ w ∈ forestEvents fs, w.Sayable sg) ∧
    (ReadsBack sg fs (writeForest sg fs) ↔
      forestDepth fs < 2 ^ 32 ∧ ∀ w ∈ forestEvents fs, w.Sayable sg) := by
  have hwrite : forestDepth fs < 2 ^ 32 ∧ (∀ w ∈ forestEvents fs, w.Sayable sg) →
      ReadsBack sg fs (writeForest sg fs) := fun h => write_readsBack h.1 h.2
  constructor
  · constructor
    · rintro ⟨src, hsrc⟩
      exact sayable_of_readsBack hsrc
    · intro h
      exact ⟨writeForest sg fs, hwrite h⟩
  · exact ⟨sayable_of_readsBack, hwrite⟩

end Cor.Sexp

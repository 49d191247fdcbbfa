import Cor.Sexp.Refine

/-!
# Reading back what was written

`Renders fs src` says that the text `src` is a way to write the forest `fs`:
every choice of spelling for every byte of a token (raw, by its named escape,
after a backslash) and of white space and comments between the tokens.
`parse_renders` says that `parse` reads such a text as the pre-order events of
the forest, the comments aside.

The proof follows the rendering. What may come after a forest is its context `k`:
nothing, or the parenthesis that closes the list it stands in. An atom at the
end of the forest is only delivered at the first character of `k`
(`scanFrom_atom_end`), so the statement by induction is about the forest and its
context together.

The list level is a 32-bit `unsigned`, so a forest nested deeper than it can
count is not read back: `deep_not_read` is that forest.
-/

namespace Cor.Sexp

open Lib (Emit)

/-! ## Forests and their events -/

/-- An S-expression. -/
inductive Form where
  | list (items : List Form)
  | string (s : Bytes)
  | atom (s : Bytes)

mutual

/-- The callbacks of a form in pre-order. -/
def Form.events : Form → List Callback
  | .list items => .onListBegin :: (forestEvents items ++ [.onListEnd])
  | .string s => [.onString s]
  | .atom s => [.onAtom s]

def forestEvents : List Form → List Callback
  | [] => []
  | f :: fs => f.events ++ forestEvents fs

end

/-- Everything but a comment. -/
def Callback.isToken : Callback → Bool
  | .onComment _ => false
  | _ => true

mutual

/-- The nesting depth. -/
def Form.depth : Form → Nat
  | .list items => forestDepth items + 1
  | .string _ => 0
  | .atom _ => 0

def forestDepth : List Form → Nat
  | [] => 0
  | f :: fs => max f.depth (forestDepth fs)

end

/-! ## Renderings -/

/-- White space as a byte. -/
def spaceByte (b : UInt8) : Bool := isspace b.toNat

/-- White space and comments, in any mix. -/
inductive Gap : Bytes → Prop
  | nil : Gap []
  | space {b : UInt8} {g : Bytes} : spaceByte b = true → Gap g → Gap (b :: g)
  | comment {body g : Bytes} : (∀ b ∈ body, b ≠ 0x0a ∧ b ≠ 0xff) → Gap g →
      Gap (0x3b :: (body ++ 0x0a :: g))

/-- The spellings of a byte in a token where the bytes in `raw` stand for
themselves. -/
inductive Spells (raw : UInt8 → Prop) : UInt8 → Bytes → Prop
  | raw {c : UInt8} : raw c → Spells raw c [c]
  | named {c e : UInt8} : assoc e = some c → Spells raw c [0x5c, e]
  | escaped {c : UInt8} : assoc c = none → c ≠ 0x78 → Spells raw c [0x5c, c]

/-- The spellings of the bytes of a token. -/
inductive Body (raw : UInt8 → Prop) : Bytes → Bytes → Prop
  | nil : Body raw [] []
  | cons {c : UInt8} {d s t : Bytes} : c ≠ 0xff → Spells raw c s → Body raw d t →
      Body raw (c :: d) (s ++ t)

/-- In a string all bytes but `"` and the backslash stand for themselves. -/
def RawString (c : UInt8) : Prop := c ≠ 0x22 ∧ c ≠ 0x5c

/-- In an atom all but parentheses, white space and the backslash do. -/
def RawAtom (c : UInt8) : Prop := c ≠ 0x28 ∧ c ≠ 0x29 ∧ c ≠ 0x5c ∧ spaceByte c = false

/-- The bytes that stand for themselves in a token. -/
def Base.raw : Base → UInt8 → Prop
  | .string => RawString
  | .atom => RawAtom

/-- At the start of an atom `"` and `;` do not either. -/
def RawLead (c : UInt8) : Prop := RawAtom c ∧ c ≠ 0x22 ∧ c ≠ 0x3b

/-- What may follow an atom up to the end of its list: nothing, white space, or
another list. -/
def AfterAtom (t : Bytes) : Prop :=
  t = [] ∨ ∃ b t', t = b :: t' ∧ (spaceByte b = true ∨ b = 0x28)

/-- **The ways to write a forest.** -/
inductive Renders : List Form → Bytes → Prop
  | nil {g : Bytes} : Gap g → Renders [] g
  | list {items fs : List Form} {g s t : Bytes} : Gap g → Renders items s → Renders fs t →
      Renders (.list items :: fs) (g ++ 0x28 :: (s ++ 0x29 :: t))
  | string {d : Bytes} {fs : List Form} {g s t : Bytes} : Gap g → Body RawString d s →
      Renders fs t → Renders (.string d :: fs) (g ++ 0x22 :: (s ++ 0x22 :: t))
  | atom {c : UInt8} {d : Bytes} {fs : List Form} {g s₀ s t : Bytes} : Gap g → c ≠ 0xff →
      Spells RawLead c s₀ → Body RawAtom d s → Renders fs t → AfterAtom t →
      Renders (.atom (c :: d) :: fs) (g ++ (s₀ ++ (s ++ t)))

/-! ## Bytes as the lexer sees them -/

section Chars

variable (sg : CharSign)

theorem isspace_toInt (b : UInt8) : isspace (sg.toInt b) = spaceByte b := by
  have hb := b.toNat_lt
  unfold spaceByte isspace
  rw [decide_eq_decide]
  cases sg with
  | unsigned => rfl
  | signed =>
    simp only [CharSign.toInt]
    split <;> omega

theorem toInt_ne_eos {b : UInt8} (hb : b ≠ 0xff) : sg.toInt b ≠ eos := by
  have hlt := b.toNat_lt
  have hne : b.toNat ≠ 255 := fun he => hb (UInt8.toNat_inj.mp he)
  unfold eos
  cases sg with
  | unsigned =>
    simp only [CharSign.toInt]
    omega
  | signed =>
    simp only [CharSign.toInt]
    split <;> omega

theorem ends_of_space {b : UInt8} (hb : spaceByte b = true) :
    Lexer.endsAtom (sg.toInt b) = true := by
  have hspace := isspace_toInt sg b
  rw [hb] at hspace
  simp [Lexer.endsAtom, hspace]

theorem not_endsAtom {b : UInt8} (hb : RawAtom b) (heos : sg.toInt b ≠ eos) :
    Lexer.endsAtom (sg.toInt b) = false := by
  obtain ⟨hopen, hclose, -, hspace⟩ := hb
  simp only [Lexer.endsAtom, decide_eq_false_iff_not, not_or]
  rw [isspace_toInt, toInt_eq_ord sg b (by decide), toInt_eq_ord sg b (by decide)]
  exact ⟨hopen, hclose, by simp [hspace], heos⟩

end Chars

/-! ## Reading the pieces -/

namespace Lexer

variable {sg : CharSign} {level : UInt32} {data : Bytes} {pos : Int}

theorem step_eq (mode : Mode) (b : UInt8) :
    step sg ⟨mode, level, data, pos⟩ b = onChar ⟨mode, level, data, pos + 1⟩ (sg.toInt b) := rfl

/-- The characters of `s`, produce no event and lead to `l'`; then the rest. -/
theorem scanFrom_quiet {l l' : Lexer} {s : Bytes} (hs : l.steps sg s = pure l') (k : Bytes) :
    l.scanFrom sg (s ++ k) = l'.scanFrom sg k := by
  rw [scanFrom_append, hs]
  rfl

theorem step_space {b : UInt8} (hb : spaceByte b = true) :
    step sg ⟨.top, level, data, pos⟩ b = pure ⟨.top, level, data, pos + 1⟩ := by
  have hspace := isspace_toInt sg b
  rw [hb] at hspace
  rw [step_eq]
  show atTop _ _ = _
  unfold atTop
  have hne : ∀ c : Char, isspace (ord c) = false → sg.toInt b ≠ ord c := by
    intro c hc he
    rw [he, hc] at hspace
    exact absurd hspace (by simp)
  rw [if_neg (hne ')' (by decide)), if_neg (hne '(' (by decide)), if_neg (hne ';' (by decide)),
    if_pos hspace]

variable (sg level) in
/-- The body of a comment. -/
theorem steps_comment : ∀ (body : Bytes) (data : Bytes) (pos : Int),
    (∀ b ∈ body, b ≠ 0x0a ∧ b ≠ 0xff) → ∃ pos',
      steps sg ⟨.comment, level, data, pos⟩ body = pure ⟨.comment, level, data ++ body, pos'⟩
  | [], data, pos, _ => ⟨pos, by rw [List.append_nil]; rfl⟩
  | b :: body, data, pos, hbody => by
    obtain ⟨hnl, h255⟩ := hbody b List.mem_cons_self
    have hstep : step sg ⟨.comment, level, data, pos⟩ b =
        pure ⟨.comment, level, data ++ [b], pos + 1⟩ := by
      rw [step_eq]
      show (if sg.toInt b = ord '\n' ∨ sg.toInt b = eos then _ else _) = _
      rw [if_neg, toChar_toInt]
      rw [not_or, toInt_eq_ord sg b (by decide)]
      exact ⟨hnl, toInt_ne_eos sg h255⟩
    obtain ⟨pos', hrest⟩ := steps_comment body (data ++ [b]) (pos + 1)
      fun c hc => hbody c (List.mem_cons_of_mem _ hc)
    refine ⟨pos', ?_⟩
    show (step sg ⟨.comment, level, data, pos⟩ b >>= fun l' => l'.steps sg body) = _
    rw [hstep, Emit.pure_bind, hrest, List.append_assoc]
    rfl

variable (sg level) in
/-- White space and comments leave the lexer between tokens. -/
theorem scanFrom_gap {g : Bytes} (hg : Gap g) : ∀ (pos : Int) (k : Bytes), ∃ ws pos',
    ws.filter Callback.isToken = [] ∧
      scanFrom sg ⟨.top, level, [], pos⟩ (g ++ k) =
        (scanFrom sg ⟨.top, level, [], pos'⟩ k).after ws := by
  induction hg with
  | nil => exact fun pos k => ⟨[], pos, rfl, rfl⟩
  | @space b g hb _ ih =>
    intro pos k
    obtain ⟨ws, pos', hws, hrest⟩ := ih (pos + 1) k
    refine ⟨ws, pos', hws, ?_⟩
    rw [List.cons_append, scanFrom_cons, step_space hb, Emit.pure_bind, hrest]
  | @comment body g hbody _ ih =>
    intro pos k
    obtain ⟨pos₁, hsteps⟩ := steps_comment sg level body [] (pos + 1) hbody
    obtain ⟨ws, pos', hws, hrest⟩ := ih (pos₁ + 1) k
    refine ⟨.onComment body :: ws, pos', hws, ?_⟩
    have hsemi : step sg ⟨.top, level, [], pos⟩ 0x3b = pure ⟨.comment, level, [], pos + 1⟩ := by
      cases sg <;> rfl
    have hnl : step sg ⟨.comment, level, [] ++ body, pos₁⟩ 0x0a =
        (pure ⟨.top, level, [], pos₁ + 1⟩ : Scan Lexer).after [.onComment body] := by
      cases sg <;> rfl
    rw [List.cons_append, List.append_assoc, scanFrom_cons, hsemi, Emit.pure_bind,
      scanFrom_quiet hsteps, List.cons_append, scanFrom_cons, hnl, Emit.after_bind, Emit.pure_bind,
      hrest, Emit.after_after]
    rfl

/-! ### Tokens -/

/-- After the backslash, for anything but a hex escape. -/
theorem step_escape {b : Base} {e : UInt8} (h255 : e ≠ 0xff) (hx : e ≠ 0x78) :
    step sg ⟨.escape b, level, data, pos⟩ e =
      pure ⟨.text b, level, data ++ [(assoc e).getD e], pos + 1⟩ := by
  rw [step_eq]
  show (if sg.toInt e = eos then _ else if sg.toInt e = ord 'x' then _ else _) = _
  rw [if_neg (toInt_ne_eos sg h255), if_neg (by rw [toInt_eq_ord sg e (by decide)]; exact hx),
    toChar_toInt]
  rfl

/-- One byte of a token, in one of its spellings, from a state whose rule takes it
raw if it may stand for itself, and takes the backslash. -/
theorem steps_spelled {l : Lexer} {b : Base} {raw : UInt8 → Prop} {c : UInt8} {s : Bytes}
    (hraw : raw c → ∃ pos', l.step sg c = pure ⟨.text b, l.level, l.data ++ [c], pos'⟩)
    (hesc : ∃ pos', l.step sg 0x5c = pure ⟨.escape b, l.level, l.data, pos'⟩)
    (hs : Spells raw c s) (h255 : c ≠ 0xff) :
    ∃ pos', l.steps sg s = pure ⟨.text b, l.level, l.data ++ [c], pos'⟩ := by
  have hpair : ∀ e : UInt8, e ≠ 0xff → e ≠ 0x78 → (assoc e).getD e = c →
      ∃ pos', l.steps sg [0x5c, e] = pure ⟨.text b, l.level, l.data ++ [c], pos'⟩ := by
    intro e he hx hc
    obtain ⟨pos, hpos⟩ := hesc
    refine ⟨pos + 1, ?_⟩
    show (l.step sg 0x5c >>= fun l' => l'.step sg e >>= fun l'' => pure l'') = _
    rw [hpos, Emit.pure_bind, step_escape he hx, hc]
    rfl
  cases hs with
  | raw hc =>
    obtain ⟨pos', hpos⟩ := hraw hc
    refine ⟨pos', ?_⟩
    show (l.step sg c >>= fun l' => pure l') = _
    rw [hpos]
    rfl
  | @named e he =>
    refine hpair e ?_ ?_ (by rw [he]; rfl)
    · rintro rfl
      exact absurd he (by simp [assoc])
    · rintro rfl
      exact absurd he (by simp [assoc])
  | escaped hnone hx => exact hpair c h255 hx (by rw [hnone]; rfl)

theorem step_raw {b : Base} {c : UInt8} (hc : Base.raw b c) (heos : sg.toInt c ≠ eos) :
    step sg ⟨.text b, level, data, pos⟩ c = pure ⟨.text b, level, data ++ [c], pos + 1⟩ := by
  rw [step_eq]
  cases b with
  | atom =>
    show inAtom _ _ = _
    unfold inAtom take
    rw [not_endsAtom sg hc heos, if_neg (by simp), if_neg, toChar_toInt]
    rw [toInt_eq_ord sg c (by decide)]
    exact hc.2.2.1
  | string =>
    show inString _ _ = _
    unfold inString take
    rw [if_neg, if_neg heos, if_neg, toChar_toInt]
    · rw [toInt_eq_ord sg c (by decide)]
      exact hc.2
    · rw [toInt_eq_ord sg c (by decide)]
      exact hc.1

variable (sg level) in
theorem steps_body {b : Base} {d s : Bytes} (hb : Body (Base.raw b) d s) :
    ∀ (data : Bytes) (pos : Int), ∃ pos',
      steps sg ⟨.text b, level, data, pos⟩ s = pure ⟨.text b, level, data ++ d, pos'⟩ := by
  induction hb with
  | nil => exact fun data pos => ⟨pos, by rw [List.append_nil]; rfl⟩
  | @cons c d s t h255 hs _ ih =>
    intro data pos
    have hesc : step sg ⟨.text b, level, data, pos⟩ 0x5c =
        pure ⟨.escape b, level, data, pos + 1⟩ := by
      cases sg <;> cases b <;> rfl
    obtain ⟨pos₁, h₁⟩ := steps_spelled (l := ⟨.text b, level, data, pos⟩) (b := b)
      (fun hc => ⟨pos + 1, step_raw hc (toInt_ne_eos sg h255)⟩) ⟨pos + 1, hesc⟩ hs h255
    obtain ⟨pos₂, h₂⟩ := ih (data ++ [c]) pos₁
    refine ⟨pos₂, ?_⟩
    rw [steps_append, h₁, Emit.pure_bind, h₂, List.append_assoc]
    rfl

variable (sg level pos) in
/-- The first byte of an atom. -/
theorem steps_lead {c : UInt8} {s : Bytes} (h255 : c ≠ 0xff) (hs : Spells RawLead c s) :
    ∃ pos', steps sg ⟨.top, level, [], pos⟩ s = pure ⟨.text .atom, level, [c], pos'⟩ := by
  refine steps_spelled (l := ⟨.top, level, [], pos⟩) (b := .atom) (fun hc => ⟨pos + 1, ?_⟩)
    ⟨pos + 1, by cases sg <;> rfl⟩ hs h255
  obtain ⟨hatom, hquote, hsemi⟩ := hc
  have hspace : ¬ isspace (sg.toInt c) = true := by
    rw [isspace_toInt, hatom.2.2.2]
    simp
  rw [step_eq]
  show atTop _ _ = _
  unfold atTop take
  rw [if_neg, if_neg, if_neg, if_neg hspace, if_neg, if_neg (toInt_ne_eos sg h255), if_neg,
    toChar_toInt]
  all_goals rw [toInt_eq_ord sg c (by decide)]
  · exact hatom.2.2.1
  · exact hquote
  · exact hsemi
  · exact hatom.1
  · exact hatom.2.1

/-- The text after an atom starts with a character that ends it. -/
def Delimits (sg : CharSign) (k : Bytes) : Prop :=
  ∀ b k', k = b :: k' → endsAtom (sg.toInt b) = true

/-- **An atom is delivered by what follows it**, which is then read as if from
between tokens. -/
theorem scanFrom_atom_end {k : Bytes} (hk : Delimits sg k) :
    scanFrom sg ⟨.text .atom, level, data, pos⟩ k =
      (scanFrom sg ⟨.top, level, [], pos⟩ k).after [.onAtom data] := by
  cases k with
  | nil => rfl
  | cons b k' =>
    have hends := hk b k' rfl
    have hstep : step sg ⟨.text .atom, level, data, pos⟩ b =
        (step sg ⟨.top, level, [], pos⟩ b).after [.onAtom data] := by
      rw [step_eq, step_eq]
      show inAtom _ _ = _
      unfold inAtom
      rw [if_pos hends]
      rfl
    rw [scanFrom_cons, hstep, Emit.after_bind, ← scanFrom_cons]

/-- What may follow the forest of a list: nothing, or the parenthesis that closes
the list. -/
def Closes (k : Bytes) : Prop := k = [] ∨ ∃ k', k = 0x29 :: k'

theorem delimits_of_afterAtom {t k : Bytes} (ht : AfterAtom t) (hk : Closes k) :
    Delimits sg (t ++ k) := by
  rintro b k' hbk
  rcases ht with rfl | ⟨b', t', rfl, hb⟩
  · rcases hk with rfl | ⟨k'', rfl⟩
    · exact absurd hbk (by simp)
    · obtain ⟨rfl, -⟩ := List.cons.inj hbk
      cases sg <;> rfl
  · obtain ⟨rfl, -⟩ := List.cons.inj hbk
    rcases hb with hb | rfl
    · exact ends_of_space sg hb
    · cases sg <;> rfl

/-- `level` counts one more list as long as it does not wrap. -/
theorem level_succ {level : UInt32} (h : level.toNat + 1 < 2 ^ 32) :
    (level + 1).toNat = level.toNat + 1 ∧ level + 1 ≠ 0 := by
  have hlevel : (level + 1).toNat = level.toNat + 1 := by
    rw [UInt32.toNat_add]
    show (level.toNat + 1) % 2 ^ 32 = _
    exact Nat.mod_eq_of_lt h
  refine ⟨hlevel, ?_⟩
  intro h0
  rw [h0] at hlevel
  exact absurd hlevel (by simp)

theorem step_opens (level : UInt32) (pos : Int) :
    step sg ⟨.top, level, [], pos⟩ 0x28 =
      (pure ⟨.top, level + 1, [], pos + 1⟩ : Scan Lexer).after [.onListBegin] := by
  cases sg <;> rfl

theorem step_closes {level : UInt32} (pos : Int) (h : level + 1 ≠ 0) :
    step sg ⟨.top, level + 1, [], pos⟩ 0x29 =
      (pure ⟨.top, level, [], pos + 1⟩ : Scan Lexer).after [.onListEnd] := by
  have hsub : level + 1 - 1 = level := UInt32.add_sub_cancel level 1
  rw [step_eq]
  show atTop _ _ = _
  unfold atTop
  rw [if_pos (by cases sg <;> rfl), if_neg h]
  show (pure ⟨.top, level + 1 - 1, [], pos + 1⟩ : Scan Lexer).after [.onListEnd] = _
  rw [hsub]

variable (sg) in
/-- **Reading a rendering**, in its context: the events of the forest, and the
lexer between tokens at the same level. -/
theorem scanFrom_renders {fs : List Form} {s : Bytes} (hs : Renders fs s) :
    ∀ (level : UInt32) (pos : Int) (k : Bytes), level.toNat + forestDepth fs < 2 ^ 32 → Closes k →
      ∃ ws pos', ws.filter Callback.isToken = forestEvents fs ∧
        scanFrom sg ⟨.top, level, [], pos⟩ (s ++ k) =
          (scanFrom sg ⟨.top, level, [], pos'⟩ k).after ws := by
  induction hs with
  | nil hg =>
    intro level pos k _ _
    exact scanFrom_gap sg level hg pos k
  | @string d fs g s t hg hbody _ ih =>
    intro level pos k hdepth hk
    have hdepth' : level.toNat + forestDepth fs < 2 ^ 32 := by
      simp only [forestDepth] at hdepth
      omega
    obtain ⟨ws₀, p₀, hws₀, hgap⟩ := scanFrom_gap sg level hg pos
      (0x22 :: (s ++ 0x22 :: (t ++ k)))
    obtain ⟨p₁, htext⟩ := steps_body sg level (b := .string) hbody [] (p₀ + 1)
    obtain ⟨ws, p', hws, hrest⟩ := ih level (p₁ + 1) k hdepth' hk
    refine ⟨ws₀ ++ .onString d :: ws, p', ?_, ?_⟩
    · rw [List.filter_append, hws₀, List.filter_cons_of_pos rfl, hws]
      rfl
    have hquote : step sg ⟨.top, level, [], p₀⟩ 0x22 = pure ⟨.text .string, level, [], p₀ + 1⟩ := by
      cases sg <;> rfl
    have hclose : step sg ⟨.text .string, level, [] ++ d, p₁⟩ 0x22 =
        (pure ⟨.top, level, [], p₁ + 1⟩ : Scan Lexer).after [.onString d] := by
      cases sg <;> rfl
    calc scanFrom sg ⟨.top, level, [], pos⟩ (g ++ 0x22 :: (s ++ 0x22 :: t) ++ k)
        = scanFrom sg ⟨.top, level, [], pos⟩ (g ++ 0x22 :: (s ++ 0x22 :: (t ++ k))) := by
          simp only [List.append_assoc, List.cons_append]
      _ = (scanFrom sg ⟨.text .string, level, [] ++ d, p₁⟩ (0x22 :: (t ++ k))).after ws₀ := by
          rw [hgap, scanFrom_cons, hquote, Emit.pure_bind, scanFrom_quiet htext]
      _ = ((scanFrom sg ⟨.top, level, [], p₁ + 1⟩ (t ++ k)).after [.onString d]).after ws₀ := by
          rw [scanFrom_cons, hclose, Emit.after_bind, Emit.pure_bind]
      _ = (scanFrom sg ⟨.top, level, [], p'⟩ k).after (ws₀ ++ .onString d :: ws) := by
          rw [hrest, Emit.after_after, Emit.after_after, List.append_assoc]
          rfl
  | @atom c d fs g s₀ s t hg h255 hlead hbody _ hafter ih =>
    intro level pos k hdepth hk
    have hdepth' : level.toNat + forestDepth fs < 2 ^ 32 := by
      simp only [forestDepth] at hdepth
      omega
    obtain ⟨ws₀, p₀, hws₀, hgap⟩ := scanFrom_gap sg level hg pos
      (s₀ ++ (s ++ (t ++ k)))
    obtain ⟨p₁, hfirst⟩ := steps_lead sg level p₀ h255 hlead
    obtain ⟨p₂, htext⟩ := steps_body sg level (b := .atom) hbody [c] p₁
    obtain ⟨ws, p', hws, hrest⟩ := ih level p₂ k hdepth' hk
    refine ⟨ws₀ ++ .onAtom (c :: d) :: ws, p', ?_, ?_⟩
    · rw [List.filter_append, hws₀, List.filter_cons_of_pos rfl, hws]
      rfl
    calc scanFrom sg ⟨.top, level, [], pos⟩ (g ++ (s₀ ++ (s ++ t)) ++ k)
        = scanFrom sg ⟨.top, level, [], pos⟩ (g ++ (s₀ ++ (s ++ (t ++ k)))) := by
          simp only [List.append_assoc]
      _ = (scanFrom sg ⟨.text .atom, level, [c] ++ d, p₂⟩ (t ++ k)).after ws₀ := by
          rw [hgap, scanFrom_quiet hfirst, scanFrom_quiet htext]
      _ = ((scanFrom sg ⟨.top, level, [], p₂⟩ (t ++ k)).after [.onAtom (c :: d)]).after ws₀ := by
          rw [scanFrom_atom_end (delimits_of_afterAtom hafter hk)]
          rfl
      _ = (scanFrom sg ⟨.top, level, [], p'⟩ k).after (ws₀ ++ .onAtom (c :: d) :: ws) := by
          rw [hrest, Emit.after_after, Emit.after_after, List.append_assoc]
          rfl
  | @list items fs g s t hg _ _ ihitems ih =>
    intro level pos k hdepth hk
    have hdepth' : level.toNat + forestDepth fs < 2 ^ 32 ∧
        level.toNat + 1 + forestDepth items < 2 ^ 32 := by
      simp only [forestDepth, Form.depth] at hdepth
      omega
    -- one more list is open, and `level` has not wrapped
    obtain ⟨hlevel, hne⟩ :=
      level_succ (show level.toNat + 1 < 2 ^ 32 by omega)
    obtain ⟨ws₀, p₀, hws₀, hgap⟩ := scanFrom_gap sg level hg pos
      (0x28 :: (s ++ 0x29 :: (t ++ k)))
    obtain ⟨ws₁, p₁, hws₁, hinner⟩ := ihitems (level + 1) (p₀ + 1) (0x29 :: (t ++ k))
      (by rw [hlevel]; exact hdepth'.2) (Or.inr ⟨_, rfl⟩)
    obtain ⟨ws, p', hws, hrest⟩ := ih level (p₁ + 1) k hdepth'.1 hk
    refine ⟨ws₀ ++ .onListBegin :: (ws₁ ++ .onListEnd :: ws), p', ?_, ?_⟩
    · rw [List.filter_append, hws₀, List.filter_cons_of_pos rfl, List.filter_append, hws₁,
        List.filter_cons_of_pos rfl, hws]
      simp [forestEvents, Form.events]
    calc scanFrom sg ⟨.top, level, [], pos⟩ (g ++ 0x28 :: (s ++ 0x29 :: t) ++ k)
        = scanFrom sg ⟨.top, level, [], pos⟩ (g ++ 0x28 :: (s ++ 0x29 :: (t ++ k))) := by
          simp only [List.append_assoc, List.cons_append]
      _ = ((scanFrom sg ⟨.top, level + 1, [], p₀ + 1⟩ (s ++ 0x29 :: (t ++ k))).after
            [.onListBegin]).after ws₀ := by
          rw [hgap, scanFrom_cons, step_opens, Emit.after_bind, Emit.pure_bind]
      _ = ((((scanFrom sg ⟨.top, level, [], p₁ + 1⟩ (t ++ k)).after [.onListEnd]).after ws₁).after
            [.onListBegin]).after ws₀ := by
          rw [hinner, scanFrom_cons, step_closes _ hne, Emit.after_bind, Emit.pure_bind]
      _ = (scanFrom sg ⟨.top, level, [], p'⟩ k).after
            (ws₀ ++ .onListBegin :: (ws₁ ++ .onListEnd :: ws)) := by
          rw [hrest]
          simp only [Emit.after_after, List.cons_append, List.nil_append]

end Lexer

/-! ## Whole texts -/

variable {ε η : Type}

/-- A handler that is called with `ws`, in order, until it throws. -/
def Handler.receives (h : Handler ε η) (ws : List Callback) : EStateM (Fault ε) η Unit :=
  Emit.deliver h.listen ws

theorem receives_cons (h : Handler ε η) (w : Callback) (vs : List Callback) (s : η) :
    h.receives (w :: vs) s = match h.listen w s with
      | .ok () s' => h.receives vs s'
      | .error e s' => .error e s' := by
  unfold Handler.receives
  rw [Emit.deliver_cons]
  cases h.listen w s <;> rfl

theorem receives_one (h : Handler ε η) (w : Callback) (s : η) :
    h.receives [w] s = h.listen w s := by
  rw [receives_cons]
  cases h.listen w s <;> rfl

theorem receives_one_ok {h : Handler ε η} {w : Callback} {s s' : η} (hon : h.on w s = .ok () s') :
    h.receives [w] s = .ok () s' := by
  rw [receives_one]
  unfold Handler.listen
  rw [hon]

theorem receives_one_error {h : Handler ε η} {w : Callback} {e : ε} {s s' : η}
    (hon : h.on w s = .error e s') : h.receives [w] s = .error (.handler e) s' := by
  rw [receives_one]
  unfold Handler.listen
  rw [hon]

theorem receives_append (h : Handler ε η) (ws vs : List Callback) (s : η) :
    h.receives (ws ++ vs) s = match h.receives ws s with
      | .ok () s' => h.receives vs s'
      | .error e s' => .error e s' := by
  unfold Handler.receives
  rw [Emit.deliver_append, Emit.bind_apply]
  cases Emit.deliver h.listen ws s <;> rfl

/-- When the lexer has no error, `parse` only makes the calls. -/
theorem parse_receives {sg : CharSign} {src : Bytes} {ws : List Callback}
    (hscan : Lexer.scan sg src = ⟨ws, .ok ()⟩) (h : Handler ε η) :
    parse h sg src = h.receives ws := by
  rw [parse_eq_play]
  unfold Handler.play Emit.play
  rw [hscan]
  exact bind_pure (h.receives ws)

/-- When `parse` returns it has made the calls of its scan. -/
theorem receives_of_parse {sg : CharSign} {src : Bytes} {h : Handler ε η} {s s' : η}
    (hrun : parse h sg src s = .ok () s') :
    h.receives (Lexer.scan sg src).events s = .ok () s' := by
  rw [parse_eq_play] at hrun
  exact (Emit.play_ok h.listen Fault.error hrun).2

/-- A handler that never throws is called with all of them. -/
theorem receives_ok {h : Handler ε η} (hok : ∀ w s, ∃ s', h.on w s = .ok () s') :
    ∀ (ws : List Callback) (s : η), ∃ s', h.receives ws s = .ok () s'
  | [], s => ⟨s, rfl⟩
  | w :: ws, s => by
    obtain ⟨s₁, h₁⟩ := hok w s
    obtain ⟨s', h'⟩ := receives_ok hok ws s₁
    refine ⟨s', ?_⟩
    rw [receives_cons]
    unfold Handler.listen
    rw [h₁]
    exact h'

theorem scan_renders {fs : List Form} {src : Bytes} (hsrc : Renders fs src)
    (hdepth : forestDepth fs < 2 ^ 32) (sg : CharSign) : ∃ ws,
      ws.filter Callback.isToken = forestEvents fs ++ [.onEof] ∧
        Lexer.scan sg src = ⟨ws, .ok ()⟩ := by
  have hlevel : (0 : UInt32).toNat + forestDepth fs < 2 ^ 32 := by
    show 0 + _ < _
    omega
  obtain ⟨ws, pos, hws, hscan⟩ := Lexer.scanFrom_renders sg hsrc 0 0 [] hlevel (Or.inl rfl)
  refine ⟨ws ++ [.onEof], ?_, ?_⟩
  · rw [List.filter_append, hws]
    rfl
  · rw [List.append_nil] at hscan
    exact hscan

/-- What it takes to read the text `src` of the forest `fs` back. -/
def ReadsBack (sg : CharSign) (fs : List Form) (src : Bytes) : Prop :=
  ∃ ws, ws.filter Callback.isToken = forestEvents fs ++ [.onEof] ∧
    ∀ (ε η : Type) (h : Handler ε η),
      parse h sg src = h.receives ws ∧
      ((∀ w s, ∃ s', h.on w s = .ok () s') → ∀ s, ∃ s', parse h sg src s = .ok () s')

/-- **`parse` undoes rendering.** A text that renders a forest, nested less deep
than `level` can count, is read as the pre-order events of the forest and
`on_eof`, the comments aside: every handler gets exactly these calls, and `parse`
returns if the handler does not throw. -/
theorem parse_renders {fs : List Form} {src : Bytes} (hsrc : Renders fs src)
    (hdepth : forestDepth fs < 2 ^ 32) (sg : CharSign) : ReadsBack sg fs src := by
  obtain ⟨ws, hws, hscan⟩ := scan_renders hsrc hdepth sg
  refine ⟨ws, hws, fun ε η h => ⟨parse_receives hscan h, fun hok s => ?_⟩⟩
  rw [parse_receives hscan h]
  exact receives_ok hok ws s

/-- `(a "\n" ;c` and a closed list on the next line. -/
theorem parse_renders_demo : ∃ ws,
    ws.filter Callback.isToken =
      [.onListBegin, .onAtom [0x61], .onString [0x0a], .onListEnd, .onEof] ∧
    ∀ (h : Handler Empty Unit), parse h .signed (ascii "(a \"\\n\" ;c\n)") = h.receives ws := by
  have hinner : Renders [.atom [0x61], .string [0x0a]] (ascii "a \"\\n\" ;c\n") := by
    refine @Renders.atom 0x61 [] _ [] [0x61] [] (ascii " \"\\n\" ;c\n") .nil
      (by decide) (.raw ⟨⟨by decide, by decide, by decide, by decide⟩, by decide, by decide⟩) .nil
      ?_ (Or.inr ⟨0x20, _, rfl, Or.inl (by decide)⟩)
    refine Renders.string (g := [0x20]) (s := [0x5c, 0x6e]) (t := ascii " ;c\n")
      (.space (by decide) .nil) (.cons (by decide) (.named (e := 0x6e) (by decide)) .nil) ?_
    have hbody : ∀ b ∈ [(0x63 : UInt8)], b ≠ 0x0a ∧ b ≠ 0xff := by
      intro b hb
      obtain rfl := List.mem_singleton.mp hb
      decide
    exact Renders.nil (g := [0x20, 0x3b, 0x63, 0x0a]) (.space (by decide) (.comment hbody .nil))
  have hsrc : Renders [.list [.atom [0x61], .string [0x0a]]] (ascii "(a \"\\n\" ;c\n)") :=
    Renders.list (g := []) (t := []) .nil hinner (.nil .nil)
  obtain ⟨ws, hws, hall⟩ := parse_renders hsrc (by decide) .signed
  exact ⟨ws, hws, fun h => (hall Empty Unit h).1⟩

/-! ## Deeper than `level` can count -/

/-- `n` lists, each the only item of the one around it. -/
def nest : Nat → List Form
  | 0 => []
  | n + 1 => [.list (nest n)]

def nestText (n : Nat) : Bytes := List.replicate n 0x28 ++ List.replicate n 0x29

theorem renders_nest : ∀ n, Renders (nest n) (nestText n)
  | 0 => .nil .nil
  | n + 1 => by
    have htext : nestText (n + 1) = [] ++ 0x28 :: (nestText n ++ 0x29 :: []) := by
      unfold nestText
      rw [List.replicate_succ, List.replicate_succ' (n := n)]
      simp
    rw [htext]
    exact .list .nil (renders_nest n) (.nil .nil)

theorem scanFrom_opens (sg : CharSign) : ∀ (n : Nat) (level : UInt32) (pos : Int) (k : Bytes),
    ∃ pos', Lexer.scanFrom sg ⟨.top, level, [], pos⟩ (List.replicate n 0x28 ++ k) =
      (Lexer.scanFrom sg ⟨.top, level + UInt32.ofNat n, [], pos'⟩ k).after
        (List.replicate n .onListBegin)
  | 0, level, pos, k => by
    refine ⟨pos, ?_⟩
    rw [show level + UInt32.ofNat 0 = level from UInt32.add_zero level]
    rfl
  | n + 1, level, pos, k => by
    obtain ⟨pos', hrest⟩ := scanFrom_opens sg n (level + 1) (pos + 1) k
    have hopen : Lexer.step sg ⟨.top, level, [], pos⟩ 0x28 =
        (pure ⟨.top, level + 1, [], pos + 1⟩ : Lexer.Scan Lexer).after [.onListBegin] := by
      cases sg <;> rfl
    have hlevel : level + 1 + UInt32.ofNat n = level + UInt32.ofNat (n + 1) := by
      rw [UInt32.ofNat_add, UInt32.add_assoc, UInt32.add_comm 1]
      rfl
    refine ⟨pos', ?_⟩
    rw [List.replicate_succ, List.cons_append, Lexer.scanFrom_cons, hopen, Emit.after_bind,
      Emit.pure_bind, hrest, Emit.after_after, hlevel]
    rfl

/-- When the number of open lists is a multiple of `2^32`, `level` is zero again
and the first closing parenthesis is an error. -/
theorem scan_nest (sg : CharSign) {n : Nat} (hwrap : UInt32.ofNat (n + 1) = 0) :
    ∃ pos, Lexer.scan sg (nestText (n + 1)) =
      ⟨List.replicate (n + 1) .onListBegin, .error ⟨ascii "Unexpected ')'", pos⟩⟩ := by
  obtain ⟨pos, hopens⟩ := scanFrom_opens sg (n + 1) 0 0 (List.replicate (n + 1) 0x29)
  refine ⟨pos + 1, ?_⟩
  have hclose : Lexer.step sg ⟨.top, 0, [], pos⟩ 0x29 =
      Emit.fail ⟨ascii "Unexpected ')'", pos + 1⟩ := by
    cases sg <;> rfl
  show Lexer.scanFrom sg ⟨.top, 0, [], 0⟩ (nestText (n + 1)) = _
  unfold nestText
  rw [hopens, hwrap, List.replicate_succ (n := n) (a := (0x29 : UInt8)), Lexer.scanFrom_cons]
  rw [show (0 : UInt32) + 0 = 0 from rfl, hclose, Emit.fail_bind]
  show (⟨List.replicate (n + 1) .onListBegin ++ [], _⟩ : Lexer.Scan Unit) = _
  rw [List.append_nil]
  rfl

/-- The handler that does nothing. -/
def idle : Handler Empty Unit := ⟨pure (), pure (), fun _ => pure (), fun _ => pure (),
  fun _ => pure (), pure ()⟩

/-- A handler that does not throw does not keep `parse` from throwing. -/
theorem play_throws {h : Handler ε η} (hok : ∀ w s, ∃ s', h.on w s = .ok () s')
    {x : Lexer.Scan Unit} {e : Error} (hx : x.result = .error e) (s : η) :
    ∃ s', h.play x s = .error (.error e) s' := by
  obtain ⟨s₁, h₁⟩ := receives_ok hok x.events s
  refine ⟨s₁, ?_⟩
  unfold Handler.play
  rw [Emit.play_apply, show Emit.deliver h.listen x.events s = .ok () s₁ from h₁]
  simp only [hx]

theorem nest_not_read {sg : CharSign} {n : Nat} (hwrap : UInt32.ofNat (n + 1) = 0) :
    ¬ ReadsBack sg (nest (n + 1)) (nestText (n + 1)) := by
  rintro ⟨ws, -, hread⟩
  have hidle : ∀ w s, ∃ s', idle.on w s = .ok () s' := by
    intro w s
    cases w <;> exact ⟨s, rfl⟩
  obtain ⟨s', hok⟩ := (hread Empty Unit idle).2 hidle ()
  obtain ⟨pos, hscan⟩ := scan_nest sg hwrap
  obtain ⟨s₁, hthrow⟩ := play_throws hidle (x := Lexer.scan sg (nestText (n + 1)))
    (by rw [hscan]) ()
  rw [parse_eq_play, hthrow] at hok
  exact absurd hok (by simp)

/-- A forest nested `2^32` deep is not read back. -/
theorem deep_not_read :
    ¬ ∀ (sg : CharSign) (fs : List Form) (src : Bytes), Renders fs src → ReadsBack sg fs src :=
  fun hall => nest_not_read (n := 4294967295) (by decide) (hall .signed _ _ (renders_nest _))

end Cor.Sexp

import Cor.Sexp.Render

/-!
# Tokens written as they are

A text that is nothing but the bytes of one token, between quotes if it is a string,
is read as that token when the lexer takes each byte for itself (`scan_string`,
`scan_atom`), and only then (`plain_of_string`, `plain_of_atom`): every character of a
text is good for one byte of a token at most, and those of an escape for less, so
nothing makes up for a byte that the lexer takes for something else.
-/

namespace Cor.Sexp

open Lib (Emit)

/-- The lexer takes the byte for itself in a token. -/
def Base.Plain (sg : CharSign) (b : Base) (c : UInt8) : Prop := b.raw c ∧ sg.toInt c ≠ eos

instance (sg : CharSign) (b : Base) (c : UInt8) : Decidable (b.Plain sg c) :=
  match b with
  | .string => inferInstanceAs (Decidable ((c ≠ 0x22 ∧ c ≠ 0x5c) ∧ sg.toInt c ≠ eos))
  | .atom => inferInstanceAs (Decidable
      ((c ≠ 0x28 ∧ c ≠ 0x29 ∧ c ≠ 0x5c ∧ spaceByte c = false) ∧ sg.toInt c ≠ eos))

/-- What stands around a token. -/
def Base.quote : Base → Bytes
  | .string => [0x22]
  | .atom => []

/-- The calls that deliver a token. -/
def Callback.isText : Callback → Bool
  | .onString _ | .onAtom _ => true
  | _ => false

/-- The token as it is. -/
def Base.quoted (b : Base) (d : Bytes) : Bytes := b.quote ++ (d ++ b.quote)

theorem Base.isText_callback (b : Base) (d : Bytes) : (b.callback d).isText = true := by
  cases b <;> rfl

theorem Base.callback_inj {b b' : Base} {d d' : Bytes} (h : b'.callback d' = b.callback d) :
    b' = b ∧ d' = d := by
  cases b <;> cases b' <;> simp_all [Base.callback]

theorem Base.quoted_length (b : Base) (d : Bytes) :
    (b.quoted d).length = d.length + 2 * b.quote.length := by
  unfold quoted
  simp only [List.length_append]
  omega

namespace Lexer

variable {sg : CharSign} {b : Base} {level : UInt32} {data : Bytes} {pos : Int}

/-! ## No token is longer than its text -/

/-- The least number of characters for what the lexer has of a token. -/
def weight (m : Mode) (data : Bytes) : Nat :=
  match m with
  | .top | .comment => 0
  | .text b | .escape b | .hex b none => data.length + b.quote.length
  | .hex b (some _) => data.length + b.quote.length + 1

/-- The tokens that are delivered, and what the lexer has of the next one, take `n`
characters at most. -/
structure Bounded (n : Nat) (ws : List Callback) (t : Option (Mode × Bytes)) : Prop where
  tokens : ∀ b d, Base.callback b d ∈ ws → (b.quoted d).length ≤ n
  rest : ∀ m d, t = some (m, d) → weight m d ≤ n

section Bounded

variable {n k : Nat} {c : Int} {ws : List Callback} {t : Option (Mode × Bytes)} {m : Mode}

theorem Bounded.fails : Bounded n [] none where
  tokens _ _ hw := nomatch hw
  rest _ _ ht := nomatch ht

theorem Bounded.goes (h : weight m data ≤ n) : Bounded n [] (some (m, data)) where
  tokens _ _ hw := nomatch hw
  rest m' d ht := by
    obtain ⟨rfl, rfl⟩ := Prod.mk.inj (Option.some.inj ht)
    exact h

theorem Bounded.mono (h : Bounded n ws t) (hnk : n ≤ k) : Bounded k ws t where
  tokens b d hw := (h.tokens b d hw).trans hnk
  rest m d ht := (h.rest m d ht).trans hnk

/-- A call that delivers a token, before the others. -/
theorem Bounded.deliver (h : Bounded n ws t) (hd : (b.quoted data).length ≤ n) :
    Bounded n (b.callback data :: ws) t where
  tokens b' d hmem := by
    rcases List.mem_cons.mp hmem with heq | hmem
    · obtain ⟨rfl, rfl⟩ := Base.callback_inj heq
      exact hd
    · exact h.tokens b' d hmem
  rest := h.rest

/-- Another call. -/
theorem Bounded.call {w : Callback} (h : Bounded n ws t) (hw : w.isText = false) :
    Bounded n (w :: ws) t where
  tokens b d hmem := by
    rcases List.mem_cons.mp hmem with rfl | hmem
    · rw [Base.isText_callback] at hw
      exact nomatch hw
    · exact h.tokens b d hmem
  rest := h.rest

theorem TakeSpec.weight_le {t : Mode × Bytes} (h : TakeSpec b c data t) :
    weight t.1 t.2 ≤ data.length + 1 + b.quote.length := by
  cases h with
  | escape =>
    show data.length + b.quote.length ≤ _
    omega
  | byte =>
    show (data ++ [toChar c]).length + b.quote.length ≤ _
    rw [List.length_append, List.length_singleton]

theorem TopSpec.bounded (h : TopSpec c data ws t) : Bounded 1 ws t := by
  cases h with
  | unexpected => exact .fails
  | listEnd | listBegin => exact .call (.goes (Nat.zero_le 1)) rfl
  | comment | skip => exact .goes (Nat.zero_le 1)
  | quote => exact .goes (Nat.le_refl 1)
  | take h => exact .goes h.weight_le

theorem TextSpec.bounded (h : TextSpec c data b ws t) :
    Bounded (data.length + 1 + b.quote.length) ws t := by
  cases h with
  | atomEnd hends h =>
    refine Bounded.deliver (b := .atom) (h.bounded.mono (by omega)) ?_
    rw [Base.quoted_length]
    show data.length + 2 * 0 ≤ data.length + 1 + 0
    omega
  | stringEnd =>
    refine Bounded.deliver (b := .string) (.goes (Nat.zero_le _)) ?_
    rw [Base.quoted_length]
    show data.length + 2 * 1 ≤ data.length + 1 + 1
    omega
  | unlimited => exact .fails
  | atomTake hends h => exact .goes h.weight_le
  | stringTake hquote heos h => exact .goes h.weight_le

/-- One character is good for one byte at most. -/
theorem CharSpec.bounded (h : CharSpec c data m ws t) : Bounded (weight m data + 1) ws t := by
  cases h with
  | top h => exact h.bounded
  | commentEnd => exact .call (.goes (Nat.zero_le _)) rfl
  | comment => exact .goes (Nat.zero_le _)
  | @text b ws t h =>
    have hweight : weight (.text b) data = data.length + b.quote.length := rfl
    exact h.bounded.mono (by omega)
  | escapeEos | hexEmpty => exact .fails
  | escapeHex => exact .goes (Nat.le_succ _)
  | @escaped b byte =>
    refine .goes ?_
    show (data ++ [byte]).length + b.quote.length ≤ data.length + b.quote.length + 1
    rw [List.length_append, List.length_singleton]
    omega
  | hexHigh => exact .goes (Nat.le_refl _)
  | @hexEnd b high byte ws t h =>
    have hweight : weight (.hex b (some high)) data = data.length + b.quote.length + 1 := rfl
    refine h.bounded.mono ?_
    rw [List.length_append, List.length_singleton]
    omega

end Bounded

/-- What comes after a character comes from the state it leads to. -/
theorem mem_scanFrom_cons {l : Lexer} {c : UInt8} {s : Bytes} {w : Callback}
    (hw : w ∈ (l.scanFrom sg (c :: s)).events) : w ∈ (l.step sg c).events ∨
      ∃ l', (l.step sg c).result = .ok l' ∧ w ∈ (l'.scanFrom sg s).events := by
  rw [scanFrom_cons] at hw
  cases hr : (l.step sg c).result with
  | error e =>
    rw [Emit.bind_error hr] at hw
    exact .inl hw
  | ok l' =>
    rw [Emit.bind_ok hr] at hw
    rcases List.mem_append.mp hw with hw | hw
    · exact .inl hw
    · exact .inr ⟨l', rfl, hw⟩

/-- What is delivered at the end of the input. -/
theorem mem_scanFrom_nil {l : Lexer} {b : Base} {d : Bytes}
    (hw : b.callback d ∈ (l.scanFrom sg []).events) :
    l.mode = .text .atom ∧ b = .atom ∧ d = l.data := by
  have hother : ∀ w, w.isText = false → b.callback d ≠ w := by
    rintro w hw rfl
    rw [Base.isText_callback] at hw
    exact nomatch hw
  obtain ⟨mode, level, data, pos⟩ := l
  cases mode with
  | top | hex =>
    have hw' : b.callback d ∈ [.onEof] := hw
    exact absurd (List.mem_singleton.mp hw') (hother _ rfl)
  | comment =>
    have hw' : b.callback d ∈ [.onComment data, .onEof] := hw
    rcases List.mem_cons.mp hw' with heq | hw'
    · exact absurd heq (hother _ rfl)
    · exact absurd (List.mem_singleton.mp hw') (hother _ rfl)
  | text b' =>
    cases b' with
    | string => exact nomatch (show b.callback d ∈ [] from hw)
    | atom =>
      have hw' : b.callback d ∈ [Base.atom.callback data, .onEof] := hw
      rcases List.mem_cons.mp hw' with heq | hw'
      · obtain ⟨rfl, rfl⟩ := Base.callback_inj heq
        exact ⟨rfl, rfl, rfl⟩
      · exact absurd (List.mem_singleton.mp hw') (hother _ rfl)
  | escape => exact nomatch (show b.callback d ∈ [] from hw)

/-- **No token is longer than its text.** -/
theorem quoted_length_le (s : Bytes) {l : Lexer} {b : Base} {d : Bytes}
    (hw : b.callback d ∈ (l.scanFrom sg s).events) :
    (b.quoted d).length ≤ weight l.mode l.data + s.length := by
  induction s generalizing l with
  | nil =>
    obtain ⟨hmode, rfl, rfl⟩ := mem_scanFrom_nil hw
    rw [Base.quoted_length, hmode]
    show l.data.length + 2 * 0 ≤ l.data.length + 0 + 0
    omega
  | cons c s ih =>
    have hbound := (step_spec sg l c).bounded
    rw [List.length_cons]
    rcases mem_scanFrom_cons hw with hw | ⟨l', hl', hw⟩
    · have hle := hbound.tokens b d hw
      omega
    · have hle := hbound.rest _ _ (token_ok hl')
      have hrec := ih hw
      omega

/-! ## Only plain bytes give a token as long as its text -/

/-- A character that is not plain adds nothing to the token. -/
theorem TextSpec.not_plain {c : UInt8} {ws : List Callback} {t : Option (Mode × Bytes)}
    (h : TextSpec (sg.toInt c) data b ws t) (hc : ¬ b.Plain sg c)
    (hdata : b = .atom → data ≠ []) : (∀ d, b.callback d ∈ ws → d.length ≤ data.length) ∧
      ∀ m d, t = some (m, d) → weight m d ≤ data.length + b.quote.length := by
  -- the byte is taken for itself only if it is plain
  have htake : ∀ t : Mode × Bytes, (sg.toInt c ≠ ord '\\' → b.Plain sg c) →
      TakeSpec b (sg.toInt c) data t → weight t.1 t.2 ≤ data.length + b.quote.length := by
    intro t hplain h
    cases h with
    | escape => exact Nat.le_refl _
    | byte hesc => exact absurd (hplain hesc) hc
  cases h with
  | @atomEnd ws t hends h =>
    have hpos : 0 < data.length := List.length_pos_iff.mpr (hdata rfl)
    refine ⟨fun d hd => ?_, fun m d ht => ?_⟩
    · rcases List.mem_cons.mp hd with heq | hd
      · rw [Callback.onAtom.inj heq]
      · have hle := h.bounded.tokens .atom d hd
        rw [Base.quoted_length] at hle
        omega
    · have hle := h.bounded.rest m d ht
      omega
  | @atomTake t hends h =>
    refine ⟨fun _ hd => absurd hd List.not_mem_nil, fun m d ht => ?_⟩
    obtain rfl := Option.some.inj ht
    refine htake (m, d) (fun hesc => ?_) h
    simp only [endsAtom, decide_eq_false_iff_not, not_or] at hends
    obtain ⟨hopen, hclose, hspace, heos⟩ := hends
    rw [ne_eq, toInt_eq_ord sg c (by decide)] at hesc
    rw [toInt_eq_ord sg c (by decide)] at hopen hclose
    rw [isspace_toInt] at hspace
    exact ⟨⟨hopen, hclose, hesc, eq_false_of_ne_true hspace⟩, heos⟩
  | stringEnd =>
    refine ⟨fun d hd => ?_, fun m d ht => ?_⟩
    · rw [Callback.onString.inj (List.mem_singleton.mp hd)]
    · obtain ⟨rfl, rfl⟩ := Prod.mk.inj (Option.some.inj ht)
      exact Nat.zero_le _
  | unlimited => exact ⟨fun _ hd => absurd hd List.not_mem_nil, fun _ _ ht => absurd ht (by simp)⟩
  | @stringTake t hquote heos h =>
    refine ⟨fun _ hd => absurd hd List.not_mem_nil, fun m d ht => ?_⟩
    obtain rfl := Option.some.inj ht
    refine htake (m, d) (fun hesc => ?_) h
    rw [ne_eq, toInt_eq_ord sg c (by decide)] at hquote hesc
    exact ⟨⟨hquote, hesc⟩, heos⟩

/-- The token that the lexer is in is delivered with the characters that follow as its bytes
only when they are plain. -/
theorem plain_of_delivered (v : Bytes) (hdata : b = .atom → data ≠ [])
    (hw : b.callback (data ++ v) ∈
      (scanFrom sg ⟨.text b, level, data, pos⟩ (v ++ b.quote)).events) :
    ∀ c ∈ v, b.Plain sg c := by
  induction v generalizing data pos with
  | nil => exact fun c hc => nomatch hc
  | cons c v ih =>
    have hc : b.Plain sg c := by
      by_contra hc
      obtain ⟨hsmall, hweight⟩ :=
        (inText_spec b level data (pos + 1) (sg.toInt c)).not_plain hc hdata
      rw [List.cons_append] at hw
      rcases mem_scanFrom_cons hw with hw | ⟨l', hl', hw⟩
      · have hle := hsmall _ hw
        rw [List.length_append, List.length_cons] at hle
        omega
      · -- what follows does not make up for the byte
        have hle := quoted_length_le _ hw
        have hle' := hweight _ _ (token_ok hl')
        rw [Base.quoted_length, List.length_append, List.length_append, List.length_cons] at hle
        omega
    have hw' : b.callback ((data ++ [c]) ++ v) ∈
        (scanFrom sg ⟨.text b, level, data ++ [c], pos + 1⟩ (v ++ b.quote)).events := by
      rw [List.cons_append, scanFrom_cons, step_raw hc.1 hc.2, Emit.pure_bind] at hw
      rwa [List.append_assoc]
    intro c' hc'
    rcases List.mem_cons.mp hc' with rfl | hc'
    · exact hc
    · exact ih (by simp) hw' c' hc'

/-! ## Whole texts -/

variable (sg level) in
/-- Plain bytes of a token. -/
theorem steps_plain (b : Base) (v data : Bytes) (pos : Int) (hv : ∀ c ∈ v, b.Plain sg c) :
    ∃ pos', steps sg ⟨.text b, level, data, pos⟩ v = pure ⟨.text b, level, data ++ v, pos'⟩ := by
  induction v generalizing data pos with
  | nil => exact ⟨pos, by rw [List.append_nil]; rfl⟩
  | cons c v ih =>
    obtain ⟨hraw, heos⟩ := hv c List.mem_cons_self
    obtain ⟨pos', hrest⟩ := ih (data ++ [c]) (pos + 1) fun c' hc' =>
      hv c' (List.mem_cons_of_mem _ hc')
    refine ⟨pos', ?_⟩
    show (step sg ⟨.text b, level, data, pos⟩ c >>= fun l' => l'.steps sg v) = _
    rw [step_raw hraw heos, Emit.pure_bind, hrest, List.append_assoc]
    rfl

variable (sg) in
theorem step_quote : step sg start 0x22 = pure ⟨.text .string, 0, [], 1⟩ := by
  cases sg <;> rfl

/-- **A string of plain bytes** is read as it is written. -/
theorem scan_string {v : Bytes} (hv : ∀ c ∈ v, Base.string.Plain sg c) :
    scan sg (Base.string.quoted v) = ⟨[.onString v, .onEof], .ok ()⟩ := by
  obtain ⟨pos, hbody⟩ := steps_plain sg 0 .string v [] 1 hv
  have hclose : step sg ⟨.text .string, 0, [] ++ v, pos⟩ 0x22 =
      (pure ⟨.top, 0, [], pos + 1⟩ : Scan Lexer).after [.onString v] := by
    cases sg <;> rfl
  show scanFrom sg start (0x22 :: (v ++ [0x22])) = _
  rw [scanFrom_cons, step_quote, Emit.pure_bind, scanFrom_quiet hbody, scanFrom_cons, hclose,
    Emit.after_bind, Emit.pure_bind]
  rfl

/-- **An atom of plain bytes** after one that begins an atom. -/
theorem scan_atom {c : UInt8} {v : Bytes} (h255 : c ≠ 0xff) (hc : RawLead c)
    (hv : ∀ c ∈ v, Base.atom.Plain sg c) :
    scan sg (c :: v) = ⟨[.onAtom (c :: v), .onEof], .ok ()⟩ := by
  obtain ⟨pos, hlead⟩ := steps_lead sg 0 0 h255 (.raw hc)
  obtain ⟨pos', hbody⟩ := steps_plain sg 0 .atom v [c] pos hv
  have hend := scanFrom_quiet hbody []
  rw [List.append_nil] at hend
  show scanFrom sg start ([c] ++ v) = _
  rw [scanFrom_quiet (show start.steps sg [c] = _ from hlead), hend]
  rfl

/-- A string is only read as it is written when its bytes are plain. -/
theorem plain_of_string {v : Bytes} (hv : .onString v ∈ (scan sg (Base.string.quoted v)).events) :
    ∀ c ∈ v, Base.string.Plain sg c := by
  have hv' : .onString v ∈ (scanFrom sg start (0x22 :: (v ++ [0x22]))).events := hv
  rw [scanFrom_cons, step_quote, Emit.pure_bind] at hv'
  exact plain_of_delivered (b := .string) v (fun h => nomatch h) hv'

/-- And an atom, but for its first byte. -/
theorem plain_of_atom {c : UInt8} {v : Bytes} (h255 : c ≠ 0xff) (hc : RawLead c)
    (hv : .onAtom (c :: v) ∈ (scan sg (c :: v)).events) : ∀ c ∈ v, Base.atom.Plain sg c := by
  obtain ⟨pos, hlead⟩ := steps_lead sg 0 0 h255 (.raw hc)
  have hv' : .onAtom (c :: v) ∈ (scanFrom sg start ([c] ++ v)).events := hv
  rw [scanFrom_quiet (show start.steps sg [c] = _ from hlead)] at hv'
  refine @plain_of_delivered sg .atom 0 [c] pos v (fun _ => List.cons_ne_nil c []) ?_
  show _ ∈ (scanFrom sg _ (v ++ [])).events
  rwa [List.append_nil]

end Lexer

end Cor.Sexp

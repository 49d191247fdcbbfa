import Cor.Sexp.Render
import Cor.Sexp.Visits

/-!
# What is parsed is a forest

Whatever the text is and whatever the handler does, the calls that `parse` makes are
those of one forest, read from left to right and cut off at some point: a list that is
closed was opened, the items of a list come between its two calls, and only the lists
that are still open at the end lack their `on_list_end` (`calls_form_forest`). `parse`
itself does not look at the level at the end of the input, so a text that leaves lists
open is accepted.

`Growing` is a forest with lists that are still open, and `Growing.grow` what a call
adds to it. The lexer only calls `on_list_end` where a list is open: its level is the
number of open lists (`Grown`).
-/

namespace Cor.Sexp

open Lib (Emit)

/-! ## A forest that grows -/

/-- The forms of the innermost open list, or of the text where none is, and those
before it in each of the lists around it, the nearest first. -/
structure Growing where
  items : List Form
  outer : List (List Form)

namespace Growing

def start : Growing := ⟨[], []⟩

/-- What a call adds. There is no list to close where none is open. -/
def grow (g : Growing) : Callback → Option Growing
  | .onListBegin => some ⟨[], g.items :: g.outer⟩
  | .onListEnd =>
    match g.outer with
    | [] => none
    | fs :: outer => some ⟨fs ++ [.list g.items], outer⟩
  | .onString s => some { g with items := g.items ++ [.string s] }
  | .onAtom s => some { g with items := g.items ++ [.atom s] }
  | .onComment _ | .onEof => some g

def growAll (g : Growing) (ws : List Callback) : Option Growing := ws.foldlM grow g

/-- The forest once all lists are closed. -/
def close (g : Growing) : List Form := g.outer.foldl (fun items fs => fs ++ [.list items]) g.items

@[simp] theorem growAll_nil (g : Growing) : g.growAll [] = some g := rfl

theorem growAll_cons (g : Growing) (w : Callback) (ws : List Callback) :
    g.growAll (w :: ws) = (g.grow w).bind fun g' => g'.growAll ws := rfl

theorem growAll_append (g : Growing) (ws vs : List Callback) :
    g.growAll (ws ++ vs) = (g.growAll ws).bind fun g' => g'.growAll vs :=
  List.foldlM_append

theorem growAll_some {g g' : Growing} {ws vs : List Callback} (h : g.growAll ws = some g') :
    g.growAll (ws ++ vs) = g'.growAll vs := by
  rw [growAll_append, h]
  rfl

end Growing

/-! ## Its events -/

/-- The calls that make up forms. -/
def Callback.isForm : Callback → Bool
  | .onComment _ | .onEof => false
  | _ => true

theorem forestEvents_append : ∀ (fs gs : List Form),
    forestEvents (fs ++ gs) = forestEvents fs ++ forestEvents gs
  | [], _ => rfl
  | f :: fs, gs => by
    show f.events ++ forestEvents (fs ++ gs) = f.events ++ forestEvents fs ++ forestEvents gs
    rw [forestEvents_append fs gs, List.append_assoc]

theorem forestEvents_snoc (fs : List Form) (f : Form) :
    forestEvents (fs ++ [f]) = forestEvents fs ++ f.events := by
  rw [forestEvents_append]
  show forestEvents fs ++ (f.events ++ []) = _
  rw [List.append_nil]

/-- The calls up to the opening of the innermost list. -/
def outerEvents : List (List Form) → List Callback
  | [] => []
  | fs :: outer => outerEvents outer ++ (forestEvents fs ++ [.onListBegin])

namespace Growing

def events (g : Growing) : List Callback := outerEvents g.outer ++ forestEvents g.items

/-- What is added is the call. -/
theorem grow_events {g g' : Growing} {w : Callback} (h : g.grow w = some g') :
    g'.events = g.events ++ [w].filter Callback.isForm := by
  obtain ⟨items, outer⟩ := g
  cases w with
  | onListBegin =>
    obtain rfl := Option.some.inj h
    show outerEvents outer ++ (forestEvents items ++ [.onListBegin]) ++ [] = _
    rw [List.append_nil, ← List.append_assoc]
    rfl
  | onListEnd =>
    cases outer with
    | nil => cases h
    | cons fs outer =>
      obtain rfl := Option.some.inj h
      show outerEvents outer ++ forestEvents (fs ++ [.list items]) =
        outerEvents outer ++ (forestEvents fs ++ [.onListBegin]) ++ forestEvents items ++ _
      rw [forestEvents_snoc]
      simp only [Form.events, List.append_assoc, List.cons_append, List.nil_append]
      rfl
  | onString s =>
    obtain rfl := Option.some.inj h
    show outerEvents outer ++ forestEvents (items ++ [.string s]) = _
    rw [forestEvents_snoc, ← List.append_assoc]
    rfl
  | onAtom s =>
    obtain rfl := Option.some.inj h
    show outerEvents outer ++ forestEvents (items ++ [.atom s]) = _
    rw [forestEvents_snoc, ← List.append_assoc]
    rfl
  | onComment s =>
    obtain rfl := Option.some.inj h
    exact (List.append_nil _).symm
  | onEof =>
    obtain rfl := Option.some.inj h
    exact (List.append_nil _).symm

theorem growAll_events : ∀ (ws : List Callback) {g g' : Growing}, g.growAll ws = some g' →
    g'.events = g.events ++ ws.filter Callback.isForm
  | [], g, g', h => by
    obtain rfl := Option.some.inj h
    exact (List.append_nil _).symm
  | w :: ws, g, g', h => by
    rw [growAll_cons] at h
    obtain ⟨g₁, h₁, h₂⟩ := Option.bind_eq_some_iff.mp h
    have hone := grow_events h₁
    have hrest := growAll_events ws h₂
    rw [hrest, hone, List.append_assoc, ← List.filter_append, List.singleton_append]

/-- Closing a list. -/
theorem close_cons (items fs : List Form) (outer : List (List Form)) :
    close ⟨items, fs :: outer⟩ = close ⟨fs ++ [.list items], outer⟩ := rfl

/-- Closing all open lists makes the forest complete. -/
theorem close_events : ∀ (outer : List (List Form)) (items : List Form),
    events ⟨items, outer⟩ ++ List.replicate outer.length .onListEnd =
      forestEvents (close ⟨items, outer⟩)
  | [], items => List.append_nil _
  | fs :: outer, items => by
    have hgrow : grow ⟨items, fs :: outer⟩ .onListEnd = some ⟨fs ++ [.list items], outer⟩ := rfl
    have hevents : events ⟨fs ++ [.list items], outer⟩ =
        events ⟨items, fs :: outer⟩ ++ [.onListEnd] := grow_events hgrow
    rw [close_cons, ← close_events outer, hevents, List.append_assoc]
    rfl

mutual

/-- A form that is read adds itself. -/
theorem growAll_form : ∀ (f : Form) (g : Growing),
    g.growAll f.events = some { g with items := g.items ++ [f] }
  | .list items, g => by
    have hitems := growAll_forest items ⟨[], g.items :: g.outer⟩
    show (growAll ⟨[], g.items :: g.outer⟩ (forestEvents items ++ [.onListEnd])) = _
    rw [growAll_some hitems]
    rfl
  | .string s, g => rfl
  | .atom s, g => rfl

theorem growAll_forest : ∀ (fs : List Form) (g : Growing),
    g.growAll (forestEvents fs) = some { g with items := g.items ++ fs }
  | [], g => by
    show some g = _
    rw [List.append_nil]
  | f :: fs, g => by
    show g.growAll (f.events ++ forestEvents fs) = _
    rw [growAll_some (growAll_form f g), growAll_forest fs, List.append_assoc]
    rfl

end

/-- Only the calls that make up forms count. -/
theorem growAll_filter : ∀ (ws : List Callback) (g : Growing),
    g.growAll (ws.filter Callback.isForm) = g.growAll ws
  | [], g => rfl
  | w :: ws, g => by
    cases hw : w.isForm with
    | true =>
      rw [List.filter_cons_of_pos hw, growAll_cons, growAll_cons]
      congr 1
      funext g'
      exact growAll_filter ws g'
    | false =>
      have hskip : g.grow w = some g := by
        cases w <;> first | rfl | cases hw
      rw [List.filter_cons_of_neg (by rw [hw]; exact Bool.false_ne_true), growAll_filter ws g,
        growAll_cons, hskip]
      rfl

/-- There is one way to close what is open. -/
theorem growAll_closes : ∀ (n : Nat) {g : Growing} {fs : List Form},
    g.growAll (List.replicate n .onListEnd) = some ⟨fs, []⟩ → n = g.outer.length ∧ fs = g.close
  | 0, g, fs, h => by
    obtain rfl := Option.some.inj h
    exact ⟨rfl, rfl⟩
  | n + 1, g, fs, h => by
    obtain ⟨items, outer⟩ := g
    cases outer with
    | nil => cases h
    | cons gs outer =>
      obtain ⟨hn, hfs⟩ := growAll_closes n (g := ⟨gs ++ [.list items], outer⟩) h
      exact ⟨congrArg (· + 1) hn, hfs⟩

/-- **Calls from which a forest grows are those of one forest**, up to the ends of the
lists that are open. -/
theorem existsUnique_forest {ws : List Callback} {g : Growing} (h : start.growAll ws = some g) :
    ∃! p : List Form × Nat,
      ws.filter Callback.isForm ++ List.replicate p.2 .onListEnd = forestEvents p.1 := by
  refine ⟨(g.close, g.outer.length), ?_, ?_⟩
  · have hevents : g.events = start.events ++ ws.filter Callback.isForm := growAll_events ws h
    have hstart : start.events ++ ws.filter Callback.isForm = ws.filter Callback.isForm := rfl
    show ws.filter Callback.isForm ++ List.replicate g.outer.length .onListEnd = _
    rw [← hstart, ← hevents]
    exact close_events g.outer g.items
  · rintro ⟨fs, n⟩ hp
    have hall : start.growAll (forestEvents fs) = some ⟨fs, []⟩ := growAll_forest fs start
    have hws : start.growAll (ws.filter Callback.isForm) = some g := (growAll_filter ws start).trans h
    rw [← hp, growAll_some hws] at hall
    obtain ⟨rfl, rfl⟩ := growAll_closes n hall
    rfl

end Growing

/-! ## The level of the lexer -/

/-- The calls of `x` grow the forest `g` by one level at most, and the level of the lexer
is the number of lists that are open. -/
structure Grown (g : Growing) (x : Lexer.Scan Lexer) (g' : Growing) : Prop where
  grows : g.growAll x.events = some g'
  level : ∀ l, x.result = .ok l → l.level.toNat = g'.outer.length
  bound : g'.outer.length ≤ g.outer.length + 1

namespace Grown

variable {g g' : Growing} {l : Lexer}

theorem pure (hl : l.level.toNat = g.outer.length) : Grown g (Pure.pure l) g where
  grows := rfl
  level := by
    intro l' h
    obtain rfl := Except.ok.inj h
    exact hl
  bound := Nat.le_succ _

theorem fail (e : Error) : Grown g (Emit.fail e) g where
  grows := rfl
  level := fun _ h => by cases h
  bound := Nat.le_succ _

/-- A call that adds a form or nothing, before what comes next. -/
theorem after {w : Callback} {g₁ : Growing} {x : Lexer.Scan Lexer} (hw : g.grow w = some g₁)
    (hg₁ : g₁.outer.length = g.outer.length) (h : Grown g₁ x g') :
    Grown g (x.after [w]) g' where
  grows := by
    show g.growAll (w :: x.events) = _
    rw [Growing.growAll_cons, hw]
    exact h.grows
  level := h.level
  bound := hg₁ ▸ h.bound

end Grown

namespace Lexer

variable {g : Growing} {l : Lexer}

theorem take_level (l : Lexer) (b : Base) (c : Int) : (l.take b c).level = l.level := by
  unfold take
  split <;> rfl

/-- Between tokens, the only place where lists are opened and closed. -/
theorem atTop_grown (hl : l.level.toNat = g.outer.length) (hg : g.outer.length + 1 < 2 ^ 32)
    (c : Int) : ∃ g', Grown g (l.atTop c) g' := by
  unfold atTop
  split
  · split
    · exact ⟨g, .fail _⟩
    next h0 =>
      have hpred := toNat_pred h0
      cases houter : g.outer with
      | nil =>
        rw [houter, List.length_nil] at hl
        omega
      | cons fs outer =>
        rw [houter, List.length_cons] at hl
        refine ⟨⟨fs ++ [.list g.items], outer⟩, ?_, fun l' h => ?_, ?_⟩
        · show g.growAll [.onListEnd] = _
          rw [Growing.growAll_cons, Growing.grow, houter]
          rfl
        · obtain rfl := Except.ok.inj h
          show (l.level - 1).toNat = outer.length
          omega
        · rw [houter, List.length_cons]
          show outer.length ≤ outer.length + 1 + 1
          omega
  split
  · refine ⟨⟨[], g.items :: g.outer⟩, rfl, fun l' h => ?_, Nat.le_refl _⟩
    obtain rfl := Except.ok.inj h
    show (l.level + 1).toNat = (g.items :: g.outer).length
    rw [toNat_succ (by rw [hl]; exact hg), hl, List.length_cons]
  split
  · exact ⟨g, .pure hl⟩
  split
  · exact ⟨g, .pure hl⟩
  split
  · exact ⟨g, .pure hl⟩
  split
  · exact ⟨g, .pure hl⟩
  · exact ⟨g, .pure (by rw [take_level]; exact hl)⟩

theorem inText_grown (hl : l.level.toNat = g.outer.length) (hg : g.outer.length + 1 < 2 ^ 32)
    (b : Base) (c : Int) : ∃ g', Grown g (l.inText b c) g' := by
  cases b with
  | atom =>
    show ∃ g', Grown g (l.inAtom c) g'
    unfold inAtom
    split
    · obtain ⟨g', hg'⟩ := atTop_grown (l := l.toTop)
        (g := { g with items := g.items ++ [.atom l.data] }) hl hg c
      exact ⟨g', .after rfl rfl hg'⟩
    · exact ⟨g, .pure (by rw [take_level]; exact hl)⟩
  | string =>
    show ∃ g', Grown g (l.inString c) g'
    unfold inString
    split
    · exact ⟨_, .after rfl rfl (.pure hl)⟩
    split
    · exact ⟨g, .fail _⟩
    · exact ⟨g, .pure (by rw [take_level]; exact hl)⟩

/-- **One character.** -/
theorem onChar_grown (hl : l.level.toNat = g.outer.length) (hg : g.outer.length + 1 < 2 ^ 32)
    (c : Int) : ∃ g', Grown g (l.onChar c) g' := by
  unfold onChar
  split
  · exact atTop_grown hl hg c
  · split
    · exact ⟨_, .after rfl rfl (.pure hl)⟩
    · exact ⟨g, .pure hl⟩
  · exact inText_grown hl hg _ c
  · split
    · exact ⟨g, .fail _⟩
    split
    · exact ⟨g, .pure hl⟩
    · exact ⟨g, .pure hl⟩
  · split
    · exact ⟨g, .pure hl⟩
    · exact ⟨g, .fail _⟩
  · split
    · exact inText_grown (l := l.push _ _) hl hg _ c
    · exact inText_grown (l := l.push _ _) hl hg _ c

/-- The characters of a text, with room for as many levels. -/
theorem steps_grown (sg : CharSign) : ∀ (src : Bytes) {l : Lexer} {g : Growing},
    l.level.toNat = g.outer.length → g.outer.length + src.length < 2 ^ 32 →
      ∃ g', g.growAll (l.steps sg src).events = some g' ∧
        ∀ l', (l.steps sg src).result = .ok l' → l'.level.toNat = g'.outer.length
  | [], l, g, hl, _ => by
    refine ⟨g, rfl, fun l' h => ?_⟩
    obtain rfl := Except.ok.inj h
    exact hl
  | b :: src, l, g, hl, hg => by
    rw [List.length_cons] at hg
    obtain ⟨g₁, h₁⟩ : ∃ g₁, Grown g (l.step sg b) g₁ :=
      onChar_grown (l := { l with tellg := l.tellg + 1 }) hl (by omega) (sg.toInt b)
    have hsteps : l.steps sg (b :: src) = (l.step sg b >>= fun l' => l'.steps sg src) := rfl
    rw [hsteps]
    cases hres : (l.step sg b).result with
    | ok l₁ =>
      have hbound := h₁.bound
      obtain ⟨g', hg', hl'⟩ := steps_grown sg src (h₁.level l₁ hres) (by omega)
      rw [Emit.bind_ok hres]
      refine ⟨g', ?_, hl'⟩
      show g.growAll ((l.step sg b).events ++ (l₁.steps sg src).events) = _
      rw [Growing.growAll_some h₁.grows]
      exact hg'
    | error e =>
      rw [Emit.bind_error hres]
      exact ⟨g₁, h₁.grows, fun l' h => by cases h⟩

theorem atEos_grows (l : Lexer) (g : Growing) : ∃ g', g.growAll l.atEos.events = some g' := by
  unfold atEos
  split
  · exact ⟨g, rfl⟩
  · exact ⟨_, rfl⟩
  · exact ⟨_, rfl⟩
  · exact ⟨g, rfl⟩
  · exact ⟨g, rfl⟩
  · exact ⟨g, rfl⟩

/-- A forest grows from the calls for a text. -/
theorem scan_grows (sg : CharSign) {src : Bytes} (hlen : src.length < 2 ^ 32) :
    ∃ g, Growing.start.growAll (scan sg src).events = some g := by
  have hroom : Growing.start.outer.length + src.length < 2 ^ 32 := by
    show 0 + src.length < 2 ^ 32
    omega
  obtain ⟨g, hg, -⟩ := steps_grown sg src (l := start) (g := Growing.start) rfl hroom
  unfold scan scanFrom
  cases hres : (start.steps sg src).result with
  | error e =>
    rw [Emit.bind_error hres]
    exact ⟨g, hg⟩
  | ok l =>
    rw [Emit.bind_ok hres]
    obtain ⟨g', hg'⟩ := atEos_grows l g
    cases heos : l.atEos.result with
    | error e =>
      rw [Emit.bind_error heos]
      exact ⟨g', (Growing.growAll_some hg).trans hg'⟩
    | ok u =>
      rw [Emit.bind_ok heos]
      refine ⟨g', ?_⟩
      show Growing.start.growAll ((start.steps sg src).events ++ (l.atEos.events ++ [.onEof])) = _
      rw [Growing.growAll_some hg, Growing.growAll_some hg']
      rfl

end Lexer

/-! ## The calls of a handler -/

/-- From some of the calls a forest grows as well. -/
theorem Growing.growAll_prefix {g g' : Growing} {ws vs : List Callback} (hp : ws <+: vs)
    (h : g.growAll vs = some g') : ∃ g₁, g.growAll ws = some g₁ := by
  obtain ⟨us, rfl⟩ := hp
  rw [growAll_append] at h
  obtain ⟨g₁, h₁, -⟩ := Option.bind_eq_some_iff.mp h
  exact ⟨g₁, h₁⟩

section

variable {ε η β : Type} (h : Handler ε η) (f : η → β)

/-- A handler that may throw gets the first of the calls. -/
theorem deliver_calls : ∀ (ws : List Callback) (s : η) (log : List (Callback × β)), ∃ vs,
    vs <+: ws ∧
      (left (Emit.deliver (h.watch f).listen ws (s, log))).2.map Prod.fst = log.map Prod.fst ++ vs
  | [], s, log => ⟨[], List.prefix_rfl, (List.append_nil _).symm⟩
  | w :: ws, s, log => by
    rw [Emit.deliver_cons, listen_watch]
    cases h.listen w s with
    | ok u s' =>
      obtain ⟨vs, hvs, hlog⟩ := deliver_calls ws s' (log ++ [(w, f s)])
      refine ⟨w :: vs, (List.prefix_cons_inj w).mpr hvs, ?_⟩
      show (left (Emit.deliver (h.watch f).listen ws (s', log ++ [(w, f s)]))).2.map Prod.fst = _
      rw [hlog, List.map_append, List.append_assoc]
      rfl
    | error e s' =>
      refine ⟨[w], ⟨ws, rfl⟩, ?_⟩
      show (log ++ [(w, f s)]).map Prod.fst = _
      rw [List.map_append]
      rfl

theorem callsOf_begins (sg : CharSign) (src : Bytes) (s₀ : η) :
    (callsOf h f sg src s₀).map Prod.fst <+: (Lexer.scan sg src).events := by
  obtain ⟨vs, hvs, hlog⟩ := deliver_calls h f (Lexer.scan sg src).events s₀ []
  have hcalls : callsOf h f sg src s₀ =
      (left (Emit.deliver (h.watch f).listen (Lexer.scan sg src).events (s₀, []))).2 := by
    unfold callsOf
    rw [parse_eq_play]
    unfold Handler.play
    rw [Emit.play_apply]
    cases Emit.deliver (h.watch f).listen (Lexer.scan sg src).events (s₀, []) with
    | ok u st => cases (Lexer.scan sg src).result <;> rfl
    | error e st => rfl
  rw [hcalls, hlog]
  exact hvs

/-- **What is parsed is a forest.** For every text shorter than the level can count, and
every handler, whatever it throws: the calls that `parse` makes are, comments and the end
aside, the events of exactly one forest without the ends of some lists, those that are
still open. -/
theorem calls_form_forest (sg : CharSign) {src : Bytes} (hlen : src.length < 2 ^ 32) (s₀ : η) :
    ∃! p : List Form × Nat,
      ((callsOf h (fun _ => ()) sg src s₀).map Prod.fst).filter Callback.isForm ++
        List.replicate p.2 .onListEnd = forestEvents p.1 := by
  obtain ⟨g, hg⟩ := Lexer.scan_grows sg hlen
  obtain ⟨g₁, h₁⟩ := Growing.growAll_prefix (callsOf_begins h (fun _ => ()) sg src s₀) hg
  exact Growing.existsUnique_forest h₁

end

/-- `((a` leaves two lists open. -/
def openText : Bytes := [0x28, 0x28, 0x61]

theorem calls_form_forest_open :
    ∃! p : List Form × Nat,
      ((callsOf idle (fun _ => ()) .signed openText ()).map Prod.fst).filter Callback.isForm ++
        List.replicate p.2 .onListEnd = forestEvents p.1 :=
  calls_form_forest idle .signed (show openText.length < 2 ^ 32 by decide) ()

end Cor.Sexp

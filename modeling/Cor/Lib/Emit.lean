import Mathlib.Data.List.Basic

/-!
# Programs that only call a listener

A program that hands events to a listener and never gets anything back from it
is determined by the events it would produce, in order, and by how it ends once
they are all delivered: `Emit ω ε α`. The events produced before a failure are
kept.

`play` runs such a program against a listener with a state of its own, which may
throw at any event; the events after that are not delivered. `play_bind` says
that running is a morphism, so a program can be replaced by its events piece by
piece, and `play_error_cases` where an exception can come from.
-/

namespace Cor.Lib

variable {ω ε α β γ : Type}

/-- The events of a program and how it ends. -/
@[ext] structure Emit (ω ε α : Type) where
  events : List ω
  result : Except ε α
deriving DecidableEq

namespace Emit

/-- The program that produces the events `ws` first. -/
def after (ws : List ω) (x : Emit ω ε α) : Emit ω ε α := ⟨ws ++ x.events, x.result⟩

def bind (x : Emit ω ε α) (f : α → Emit ω ε β) : Emit ω ε β :=
  match x.result with
  | .ok a => (f a).after x.events
  | .error e => ⟨x.events, .error e⟩

instance : Monad (Emit ω ε) where
  pure a := ⟨[], .ok a⟩
  bind := bind

/-- Produce one event. -/
def event (w : ω) : Emit ω ε Unit := ⟨[w], .ok ()⟩

/-- End with an error. -/
def fail (e : ε) : Emit ω ε α := ⟨[], .error e⟩

@[simp] theorem after_after (ws vs : List ω) (x : Emit ω ε α) :
    (x.after vs).after ws = x.after (ws ++ vs) := by
  simp [after]

@[simp] theorem pure_bind (a : α) (f : α → Emit ω ε β) :
    ((pure a : Emit ω ε α) >>= f) = f a := rfl

@[simp] theorem fail_bind (e : ε) (f : α → Emit ω ε β) :
    ((fail e : Emit ω ε α) >>= f) = fail e := rfl

@[simp] theorem after_bind (ws : List ω) (x : Emit ω ε α) (f : α → Emit ω ε β) :
    (x.after ws >>= f) = (x >>= f).after ws := by
  show bind (x.after ws) f = (bind x f).after ws
  unfold bind
  cases hx : x.result with
  | ok a => simp [after, hx]
  | error e => simp [after, hx]

theorem bind_ok {x : Emit ω ε α} {a : α} (h : x.result = .ok a) (f : α → Emit ω ε β) :
    (x >>= f) = (f a).after x.events := by
  show bind x f = _
  unfold bind
  rw [h]

theorem bind_error {x : Emit ω ε α} {e : ε} (h : x.result = .error e) (f : α → Emit ω ε β) :
    (x >>= f) = ⟨x.events, .error e⟩ := by
  show bind x f = _
  unfold bind
  rw [h]

/-- A program succeeds when both its parts do. -/
theorem bind_result_ok {x : Emit ω ε α} {f : α → Emit ω ε β} {b : β} :
    (x >>= f).result = .ok b ↔ ∃ a, x.result = .ok a ∧ (f a).result = .ok b := by
  cases hx : x.result with
  | ok a =>
    rw [bind_ok hx]
    constructor
    · exact fun h => ⟨a, rfl, h⟩
    · rintro ⟨a', ha, h⟩
      obtain rfl := Except.ok.inj ha
      exact h
  | error e =>
    rw [bind_error hx]
    simp

theorem bind_assoc (x : Emit ω ε α) (f : α → Emit ω ε β) (g : β → Emit ω ε γ) :
    ((x >>= f) >>= g) = (x >>= fun a => f a >>= g) := by
  cases hx : x.result with
  | ok a => rw [bind_ok hx, bind_ok hx, after_bind]
  | error e =>
    rw [bind_error hx, bind_error hx]
    rfl

/-! ## Running against a listener -/

/-- `EStateM.run_bind` for programs that are applied to their state. -/
theorem bind_apply {δ σ : Type} (x : EStateM δ σ α) (f : α → EStateM δ σ β) (s : σ) :
    (x >>= f) s = match x s with
      | .ok a s' => f a s'
      | .error e s' => .error e s' := by
  show EStateM.bind x f s = _
  unfold EStateM.bind
  cases x s <;> rfl

section Play

variable {δ σ : Type} (listen : ω → EStateM δ σ Unit) (raise : ε → δ)

/-- Deliver events in order, up to the first exception. -/
def deliver : List ω → EStateM δ σ Unit
  | [] => pure ()
  | w :: ws => do
    listen w
    deliver ws

/-- Run a program against a listener; its own failures are raised as
exceptions. -/
def play (x : Emit ω ε α) : EStateM δ σ α := do
  deliver listen x.events
  match x.result with
  | .ok a => pure a
  | .error e => throw (raise e)

theorem deliver_cons (w : ω) (ws : List ω) (s : σ) :
    deliver listen (w :: ws) s = match listen w s with
      | .ok () s' => deliver listen ws s'
      | .error d s' => .error d s' := by
  show (listen w >>= fun _ => deliver listen ws) s = _
  rw [bind_apply]
  cases listen w s <;> rfl

theorem deliver_append (ws vs : List ω) :
    deliver listen (ws ++ vs) = (do deliver listen ws; deliver listen vs) := by
  induction ws with
  | nil => rfl
  | cons w ws ih =>
    show (listen w >>= fun _ => deliver listen (ws ++ vs)) =
      ((listen w >>= fun _ => deliver listen ws) >>= fun _ => deliver listen vs)
    rw [ih, LawfulMonad.bind_assoc]

/-- A run delivers the events, and then ends as the program does. -/
theorem play_apply (x : Emit ω ε α) (s : σ) :
    play listen raise x s = match deliver listen x.events s with
      | .ok () s' =>
        match x.result with
        | .ok a => .ok a s'
        | .error e => .error (raise e) s'
      | .error d s' => .error d s' := by
  unfold play
  rw [bind_apply]
  cases deliver listen x.events s with
  | ok u s' => cases x.result <;> rfl
  | error d s' => rfl

/-- A run that returns has delivered all the events of a program that succeeds. -/
theorem play_ok {x : Emit ω ε α} {a : α} {s s' : σ} (h : play listen raise x s = .ok a s') :
    x.result = .ok a ∧ deliver listen x.events s = .ok () s' := by
  rw [play_apply] at h
  cases hx : deliver listen x.events s with
  | error d s₁ =>
    rw [hx] at h
    exact nomatch h
  | ok u s₁ =>
    rw [hx] at h
    cases hr : x.result with
    | error e =>
      rw [hr] at h
      exact nomatch h
    | ok b =>
      rw [hr] at h
      injection h with hb hs
      exact ⟨by rw [hb], by rw [hs]⟩

theorem play_after (ws : List ω) (x : Emit ω ε α) :
    play listen raise (x.after ws) = (do deliver listen ws; play listen raise x) := by
  unfold play
  show (deliver listen (ws ++ x.events) >>= fun _ => _) = _
  rw [deliver_append, LawfulMonad.bind_assoc]
  rfl

theorem play_event (w : ω) : play listen raise (event w) = listen w := by
  show (deliver listen [w] >>= fun _ => pure ()) = listen w
  show ((listen w >>= fun _ => pure ()) >>= fun _ => pure ()) = listen w
  simp

/-- **Running is a morphism.** -/
theorem play_bind (x : Emit ω ε α) (f : α → Emit ω ε β) :
    play listen raise (x >>= f) = (play listen raise x >>= fun a => play listen raise (f a)) := by
  cases hx : x.result with
  | ok a =>
    rw [bind_ok hx, play_after]
    unfold play
    rw [hx, LawfulMonad.bind_assoc]
    rfl
  | error e =>
    rw [bind_error hx]
    unfold play
    rw [hx, LawfulMonad.bind_assoc]
    rfl

/-- The state of a run that returns meets `I`, the exception of one that does not `E`. -/
def Meets (I : σ → Prop) (E : δ → Prop) : EStateM.Result δ σ α → Prop
  | .ok _ s => I s
  | .error d _ => E d

/-- What a listener keeps at each event it keeps at all of them, and what holds of
its exceptions holds of the one that stops it. -/
theorem deliver_meets {I : σ → Prop} {E : δ → Prop}
    (hlisten : ∀ w s, I s → Meets I E (listen w s)) :
    ∀ (ws : List ω) (s : σ), I s → Meets I E (deliver listen ws s)
  | [], _, hs => hs
  | w :: ws, s, hs => by
    have hone := hlisten w s hs
    rw [deliver_cons]
    cases hl : listen w s with
    | ok u s₁ =>
      rw [hl] at hone
      exact deliver_meets hlisten ws s₁ hone
    | error d s₁ =>
      rw [hl] at hone
      exact hone

/-- A run raises what the listener does, or what the program fails with. -/
theorem play_meets {I : σ → Prop} {E : δ → Prop}
    (hlisten : ∀ w s, I s → Meets I E (listen w s)) (hraise : ∀ e, E (raise e))
    (x : Emit ω ε α) (s : σ) (hs : I s) : Meets I E (play listen raise x s) := by
  have hall := deliver_meets listen hlisten x.events s hs
  rw [play_apply]
  cases hd : deliver listen x.events s with
  | ok u s₁ =>
    rw [hd] at hall
    cases x.result with
    | ok a => exact hall
    | error e => exact hraise e
  | error d s₁ =>
    rw [hd] at hall
    exact hall

/-- An event that was not delivered is one the listener threw at. -/
theorem deliver_error {d : δ} : ∀ (ws : List ω) {s s' : σ},
    deliver listen ws s = .error d s' → ∃ w s₁, listen w s₁ = .error d s'
  | [], _, _, h => nomatch h
  | w :: ws, s, s', h => by
    rw [deliver_cons] at h
    cases hl : listen w s with
    | ok u s₁ =>
      rw [hl] at h
      exact deliver_error ws h
    | error e s₁ =>
      rw [hl] at h
      injection h with he hs
      exact ⟨w, s, by rw [hl, he, hs]⟩

/-- A run that does not return was stopped by the listener or failed itself. -/
theorem play_error_cases {x : Emit ω ε α} {d : δ} {s s' : σ}
    (h : play listen raise x s = .error d s') :
    (∃ w s₁, listen w s₁ = .error d s') ∨ ∃ e, d = raise e := by
  rw [play_apply] at h
  cases hx : deliver listen x.events s with
  | ok u s₁ =>
    rw [hx] at h
    cases hr : x.result with
    | ok a =>
      rw [hr] at h
      exact nomatch h
    | error e =>
      rw [hr] at h
      injection h with hd hs
      exact .inr ⟨e, hd.symm⟩
  | error e s₁ =>
    rw [hx] at h
    injection h with hd hs
    exact .inl (deliver_error listen x.events (by rw [hx, hd, hs]))

end Play

/-! ## Two runs side by side -/

section Both

variable {δ σ τ : Type}

/-- The same outcome, in states that are related. -/
inductive Both (R : σ → τ → Prop) : EStateM.Result δ σ α → EStateM.Result δ τ α → Prop
  | ok {a : α} {s : σ} {t : τ} (h : R s t) : Both R (.ok a s) (.ok a t)
  | error {d : δ} {s : σ} {t : τ} (h : R s t) : Both R (.error d s) (.error d t)

theorem Both.bind {R : σ → τ → Prop} {x : EStateM δ σ α} {y : EStateM δ τ α}
    {f : α → EStateM δ σ β} {g : α → EStateM δ τ β} {s : σ} {t : τ} (hx : Both R (x s) (y t))
    (hf : ∀ a s' t', x s = .ok a s' → R s' t' → Both R (f a s') (g a t')) :
    Both R ((x >>= f) s) ((y >>= g) t) := by
  rw [bind_apply, bind_apply]
  generalize hs : x s = r at hx
  generalize y t = q at hx
  cases hx with
  | ok h => exact hf _ _ _ hs h
  | error h => exact .error h

variable (listen : ω → EStateM δ σ Unit) (hear : ω → EStateM δ τ Unit)

/-- `P` holds at each event that is delivered, of the state it is delivered in. -/
def Delivered (P : ω → σ → Prop) : List ω → σ → Prop
  | [], _ => True
  | w :: ws, s => P w s ∧ match listen w s with
    | .ok () s' => Delivered P ws s'
    | .error _ _ => True

variable {listen hear}

/-- Two listeners that do the same in related states, wherever `P` holds in the first. -/
theorem deliver_both {R : σ → τ → Prop} {P : ω → σ → Prop}
    (hone : ∀ w s t, R s t → P w s → Both R (listen w s) (hear w t)) :
    ∀ (ws : List ω) {s : σ} {t : τ}, R s t → Delivered listen P ws s →
      Both R (deliver listen ws s) (deliver hear ws t)
  | [], _, _, hR, _ => .ok hR
  | w :: ws, s, t, hR, hP => by
    obtain ⟨hw, hws⟩ := hP
    have hfirst := hone w s t hR hw
    rw [deliver_cons, deliver_cons]
    generalize listen w s = r at hfirst hws
    generalize hear w t = q at hfirst
    cases hfirst with
    | ok h => exact deliver_both hone ws h hws
    | error h => exact .error h

theorem play_both {R : σ → τ → Prop} {P : ω → σ → Prop} (raise : ε → δ)
    (hone : ∀ w s t, R s t → P w s → Both R (listen w s) (hear w t)) (x : Emit ω ε α) {s : σ}
    {t : τ} (hR : R s t) (hP : Delivered listen P x.events s) :
    Both R (play listen raise x s) (play hear raise x t) := by
  have hall := deliver_both hone x.events hR hP
  rw [play_apply, play_apply]
  generalize deliver listen x.events s = r at hall
  generalize deliver hear x.events t = q at hall
  cases hall with
  | error h => exact .error h
  | ok h =>
    cases x.result with
    | ok a => exact .ok h
    | error e => exact .error h

end Both

end Emit

end Cor.Lib

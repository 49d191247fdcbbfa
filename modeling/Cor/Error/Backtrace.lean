import Mathlib.Data.List.Basic
import Mathlib.Data.List.Infix
import Mathlib.Tactic.ByContra
import Cor.Base.Error
import Cor.Lib.Pool
import Cor.Lib.Run

/-!
# `Backtrace<Frames>`

The symbols of a back trace are resolved when they are first asked for. The copy
constructor means to copy resolved symbols, but it takes the two arrays the wrong way
around: it copies the zeroed array of the new object over the array of its source. So
after a copy of a trace that was read, both have null pointers for symbols.

`copy_faithful_iff` says which copies go well, and `never_null_iff` which runs.

Running out of memory is not modelled. What the C library answers is a parameter.
-/

namespace Cor.Symbols

open Cor.Lib

/-- What the code asks of the libraries. -/
structure Library where
  /-- `backtrace_symbols(frames, count)`, or null. -/
  backtraceSymbols : List Nat → Option (List Bytes)
  /-- It answers one string for each frame. -/
  one_each : ∀ frames strings, backtraceSymbols frames = some strings →
    strings.length = frames.length
  /-- What `dladdr` and `__cxa_demangle` make of the address `&frames[i]` in the object at a
  place, if they know it. -/
  demangled : Nat → Nat → Option Bytes

/-- One object: the frames it was given, `count_` and, once they are resolved, the symbols,
each a C string or null. -/
structure Backtrace where
  frames : List Nat
  count : Nat
  symbols : Option (List (Option Bytes))
  unread : symbols = none → count = frames.length
  sized : ∀ syms, symbols = some syms → syms.length = count

/-- `Backtrace()`, with what `::backtrace` found. -/
def construct (frames : List Nat) : Backtrace where
  frames := frames
  count := frames.length
  symbols := none
  unread _ := rfl
  sized _ h := nomatch h

section Operations

variable (lib : Library)

/-- `Backtrace_::get_symbols(frames, count)`. -/
def getSymbols (frames : List Nat) (count : Nat) : List (Option Bytes) × Nat :=
  match lib.backtraceSymbols (frames.take count) with
  | some strings => (strings.map some, count)
  | none => ([some (ascii "?")], 1)

/-- As many symbols as are counted. -/
theorem getSymbols_sized (frames : List Nat) :
    (getSymbols lib frames frames.length).1.length = (getSymbols lib frames frames.length).2 := by
  unfold getSymbols
  split
  next strings h =>
    rw [List.length_map, lib.one_each _ _ h, List.take_length]
  next => rfl

/-- `update_symbols()`. -/
def update (b : Backtrace) : Backtrace :=
  match h : b.symbols with
  | some _ => b
  | none =>
    { frames := b.frames
      count := (getSymbols lib b.frames b.count).2
      symbols := some (getSymbols lib b.frames b.count).1
      unread := fun h => nomatch h
      sized := by
        intro syms hsyms
        obtain rfl := Option.some.inj hsyms
        rw [b.unread h]
        exact getSymbols_sized lib b.frames }

/-- `at(index)`, and the object after it. -/
def symbolAt (b : Backtrace) (index : Nat) : Option Bytes × Backtrace :=
  let b := update lib b
  (match b.symbols with
    | some syms => if index < b.count then (syms[index]?).join else some (ascii "???")
    | none => some (ascii "???"),
    b)

/-- `Backtrace_::name(index, existing_name, frame)`. The null pointer makes `std::string`
throw. -/
def nameText (demangled existing : Option Bytes) : Except Exn Bytes :=
  match demangled, existing with
  | some p, _ => .ok p
  | none, some s => .ok s
  | none, none => .error ⟨.other (ascii "std::logic_error"),
      ascii "basic_string: construction from null is not valid"⟩

/-- `name(index)` of the object at `place`, and the object after it. -/
def name (place : Nat) (b : Backtrace) (index : Nat) : Except Exn Bytes × Backtrace :=
  if index < b.count then
    let (existing, b') := symbolAt lib b index
    (nameText (lib.demangled place index) existing, b')
  else (.ok (ascii "?"), b)

/-- `std::copy(from, from + n, to)`. -/
def copyOver {α : Type} (src dst : List α) (n : Nat) : List α := src.take n ++ dst.drop n

/-- `Backtrace(src)`: the source after it, and the new object. -/
def copy (src : Backtrace) : Backtrace × Backtrace :=
  match h : src.symbols with
  | none =>
    (src,
      { frames := src.frames.take src.count
        count := src.count
        symbols := none
        unread := fun _ => by rw [src.unread h, List.take_length]
        sized := fun _ hsyms => nomatch hsyms })
  | some syms =>
    -- `to` is the array of the source and `from` the one just allocated
    let fresh := List.replicate src.count none
    ({ src with
        symbols := some (copyOver fresh syms src.count)
        unread := fun h => nomatch h
        sized := by
          intro syms' hsyms
          obtain rfl := Option.some.inj hsyms
          simp [fresh, copyOver, src.sized syms h] },
      { frames := src.frames.take src.count
        count := src.count
        symbols := some fresh
        unread := fun h => nomatch h
        sized := by
          intro syms' hsyms
          obtain rfl := Option.some.inj hsyms
          exact List.length_replicate })

end Operations

/-! ## Small facts about the operations -/

section Facts

variable {lib : Library} {b : Backtrace} {syms : List (Option Bytes)}

theorem update_of_read (h : b.symbols = some syms) : update lib b = b := by
  unfold update
  split
  next => rfl
  next hnone =>
    rw [h] at hnone
    exact nomatch hnone

theorem update_of_unread (h : b.symbols = none) :
    (update lib b).symbols = some (getSymbols lib b.frames b.count).1 ∧
      (update lib b).count = (getSymbols lib b.frames b.count).2 := by
  unfold update
  split
  next hsome =>
    rw [h] at hsome
    exact nomatch hsome
  next => exact ⟨rfl, rfl⟩

/-- What `at` answers once the symbols are resolved. -/
theorem symbolAt_of_read (h : b.symbols = some syms) (index : Nat) :
    symbolAt lib b index =
      (if index < b.count then (syms[index]?).join else some (ascii "???"), b) := by
  unfold symbolAt
  rw [update_of_read h]
  simp only [h]

theorem symbolAt_of_unread (h : b.symbols = none) (index : Nat) :
    (symbolAt lib b index).1 =
      if index < (getSymbols lib b.frames b.count).2 then
        ((getSymbols lib b.frames b.count).1[index]?).join
      else some (ascii "???") := by
  obtain ⟨hsyms, hcount⟩ := @update_of_unread lib b h
  unfold symbolAt
  simp only [hsyms, hcount]

theorem copy_of_unread (h : b.symbols = none) :
    (copy b).1 = b ∧ (copy b).2.symbols = none ∧ (copy b).2.count = b.count ∧
      (copy b).2.frames = b.frames := by
  unfold copy
  split
  next =>
    refine ⟨rfl, rfl, rfl, ?_⟩
    show b.frames.take b.count = b.frames
    rw [b.unread h, List.take_length]
  next hsome =>
    rw [h] at hsome
    exact nomatch hsome

/-- After a copy of resolved symbols both objects have null pointers. -/
theorem copy_of_read (h : b.symbols = some syms) :
    (copy b).1.symbols = some (List.replicate b.count none) ∧ (copy b).1.count = b.count ∧
      (copy b).2.symbols = some (List.replicate b.count none) ∧ (copy b).2.count = b.count := by
  unfold copy
  split
  next hnone =>
    rw [h] at hnone
    exact nomatch hnone
  next syms' hsyms =>
    have hlen := b.sized syms' hsyms
    refine ⟨?_, rfl, rfl, rfl⟩
    show some (copyOver (List.replicate b.count none) syms' b.count) = _
    rw [copyOver, List.take_of_length_le (by simp), List.drop_of_length_le (by omega),
      List.append_nil]

end Facts

/-! ## One copy -/

section Copy

variable (lib : Library) (b : Backtrace) (place place' : Nat)

/-- The copy to `place'` of the object at `place` is faithful: the source and the copy answer
as the source did. -/
structure FaithfulCopy : Prop where
  source_at : ∀ i, (symbolAt lib (copy b).1 i).1 = (symbolAt lib b i).1
  source_name : ∀ i, (name lib place (copy b).1 i).1 = (name lib place b i).1
  source_size : (copy b).1.count = b.count
  copy_at : ∀ i, (symbolAt lib (copy b).2 i).1 = (symbolAt lib b i).1
  copy_name : ∀ i, (name lib place' (copy b).2 i).1 = (name lib place b i).1
  copy_size : (copy b).2.count = b.count

/-- There is no symbol to lose: none were resolved, or all of them are null. -/
def NoSymbols : Prop := ∀ syms, b.symbols = some syms → ∀ s ∈ syms, s = none

/-- The libraries make the same of both objects' addresses. -/
def SameNames : Prop :=
  ∀ i < b.count, nameText (lib.demangled place' i) (symbolAt lib b i).1 =
    nameText (lib.demangled place i) (symbolAt lib b i).1

variable {lib b place place'}

theorem name_fst (b : Backtrace) (i : Nat) : (name lib place b i).1 =
    if i < b.count then nameText (lib.demangled place i) (symbolAt lib b i).1
    else .ok (ascii "?") := by
  unfold name
  split <;> rfl

/-- Without symbols to lose every `at` answers as before. -/
theorem copy_at_of_noSymbols (h : NoSymbols b) (i : Nat) :
    (symbolAt lib (copy b).1 i).1 = (symbolAt lib b i).1 ∧
      (symbolAt lib (copy b).2 i).1 = (symbolAt lib b i).1 := by
  cases hsyms : b.symbols with
  | none =>
    obtain ⟨hsrc, hnew, hcount, hframes⟩ := copy_of_unread hsyms
    rw [hsrc, symbolAt_of_unread hnew, symbolAt_of_unread hsyms, hcount, hframes]
    exact ⟨rfl, rfl⟩
  | some syms =>
    have hnull : syms = List.replicate b.count none := by
      rw [← b.sized syms hsyms]
      exact List.eq_replicate_of_mem (h syms hsyms)
    obtain ⟨hsrc, hcount, hnew, hcount'⟩ := copy_of_read hsyms
    rw [symbolAt_of_read hsrc, symbolAt_of_read hnew, symbolAt_of_read hsyms, hcount, hcount',
      hnull]
    exact ⟨rfl, rfl⟩

theorem copy_count : (copy b).1.count = b.count ∧ (copy b).2.count = b.count := by
  cases hsyms : b.symbols with
  | none =>
    obtain ⟨hsrc, -, hcount, -⟩ := copy_of_unread hsyms
    exact ⟨by rw [hsrc], hcount⟩
  | some syms =>
    obtain ⟨-, hcount, -, hcount'⟩ := copy_of_read hsyms
    exact ⟨hcount, hcount'⟩

/-- **Which copies are faithful**: those of a trace without resolved symbols, if the libraries
make the same of the addresses of both objects. -/
theorem copy_faithful_iff (lib : Library) (b : Backtrace) (place place' : Nat) :
    FaithfulCopy lib b place place' ↔ NoSymbols b ∧ SameNames lib b place place' := by
  constructor
  · intro h
    refine ⟨?_, ?_⟩
    · intro syms hsyms s hs
      obtain ⟨i, hi, rfl⟩ := List.mem_iff_getElem.mp hs
      have hcount : i < b.count := by
        rw [← b.sized syms hsyms]
        exact hi
      -- the source itself answers null afterwards
      have hat := h.source_at i
      obtain ⟨hsrc, hcount', -, -⟩ := copy_of_read hsyms
      rw [symbolAt_of_read hsrc, symbolAt_of_read hsyms, hcount'] at hat
      simp only [if_pos hcount, List.getElem?_eq_getElem hi,
        List.getElem?_replicate_of_lt hcount] at hat
      exact hat.symm
    · intro i hi
      have hname := h.copy_name i
      rw [name_fst, name_fst, h.copy_size, if_pos hi, if_pos hi, h.copy_at] at hname
      exact hname
  · rintro ⟨hno, hnames⟩
    refine ⟨fun i => (copy_at_of_noSymbols hno i).1, ?_, copy_count.1,
      fun i => (copy_at_of_noSymbols hno i).2, ?_, copy_count.2⟩
    · intro i
      rw [name_fst, name_fst, copy_count.1, (copy_at_of_noSymbols hno i).1]
    · intro i
      rw [name_fst, name_fst, copy_count.2, (copy_at_of_noSymbols hno i).2]
      by_cases hi : i < b.count
      · rw [if_pos hi, if_pos hi]
        exact hnames i hi
      · rw [if_neg hi, if_neg hi]

end Copy

/-! ## Copies and accesses in any order -/

inductive Op
  | construct (o : Nat) (frames : List Nat)
  /-- A copy, also one that an exception makes of its trace. -/
  | copy (src dst : Nat)
  | symbolAt (o index : Nat)
  | name (o index : Nat)
  /-- `begin()` and `end()` -/
  | iterate (o : Nat)
  | destroy (o : Nat)
deriving DecidableEq

/-- One operation on the live objects; `none` if it is not possible. -/
def step (lib : Library) (s : Pool Backtrace) : Op → Option (Pool Backtrace)
  | .construct o frames =>
    match s.lookup o with
    | some _ => none
    | none => some (s.insert o (Symbols.construct frames))
  | .copy src dst =>
    match s.lookup src, s.lookup dst with
    | some b, none => some ((s.insert src (Symbols.copy b).1).insert dst (Symbols.copy b).2)
    | _, _ => none
  | .symbolAt o index =>
    match s.lookup o with
    | some b => some (s.insert o (Symbols.symbolAt lib b index).2)
    | none => none
  | .name o index =>
    match s.lookup o with
    | some b => some (s.insert o (Symbols.name lib o b index).2)
    | none => none
  | .iterate o =>
    match s.lookup o with
    | some b => some (s.insert o (update lib b))
    | none => none
  | .destroy o =>
    match s.lookup o with
    | some _ => some (s.erase o)
    | none => none

/-- No resolved symbol is null. -/
def Sound (b : Backtrace) : Prop := ∀ syms, b.symbols = some syms → none ∉ syms

section Sound

variable {lib : Library} {b : Backtrace}

theorem update_sound (h : Sound b) : Sound (update lib b) := by
  cases hsyms : b.symbols with
  | some syms =>
    rw [update_of_read hsyms]
    exact h
  | none =>
    intro syms hupdate
    rw [(update_of_unread hsyms).1] at hupdate
    obtain rfl := Option.some.inj hupdate
    unfold getSymbols
    split
    · simp
    · simp

theorem name_snd_sound (h : Sound b) (place index : Nat) : Sound (name lib place b index).2 := by
  unfold name
  split
  · exact update_sound h
  · exact h

/-- A sound trace never answers null. -/
theorem symbolAt_sound (h : Sound b) (index : Nat) : (symbolAt lib b index).1 ≠ none := by
  have hupdate := @update_sound lib b h
  unfold symbolAt
  simp only
  split
  next syms hsyms =>
    split
    next hlt =>
      have hlen := (update lib b).sized syms hsyms
      rw [List.getElem?_eq_getElem (by omega)]
      intro hnone
      exact hupdate syms hsyms (hnone ▸ List.getElem_mem _)
    next => simp
  next => simp

/-- Copying a trace that was not read, or that is empty, makes no null pointers. -/
theorem copy_sound (h : Sound b) (hb : b.symbols = none ∨ b.count = 0) :
    Sound (copy b).1 ∧ Sound (copy b).2 := by
  cases hsyms : b.symbols with
  | none =>
    obtain ⟨hsrc, hnew, -, -⟩ := copy_of_unread hsyms
    rw [hsrc]
    exact ⟨h, fun syms hs => nomatch hnew.symm.trans hs⟩
  | some syms =>
    have hcount : b.count = 0 := by
      rcases hb with hb | hb
      · exact nomatch hsyms.symm.trans hb
      · exact hb
    obtain ⟨hsrc, -, hnew, -⟩ := copy_of_read hsyms
    rw [hcount] at hsrc hnew
    refine ⟨?_, ?_⟩
    · intro syms' hs
      obtain rfl := Option.some.inj (hsrc.symm.trans hs)
      simp
    · intro syms' hs
      obtain rfl := Option.some.inj (hnew.symm.trans hs)
      simp

/-- Copying any other trace does. -/
theorem copy_null (hb : ¬ (b.symbols = none ∨ b.count = 0)) :
    (symbolAt lib (copy b).1 0).1 = none := by
  push Not at hb
  obtain ⟨syms, hsyms⟩ := Option.ne_none_iff_exists'.mp hb.1
  obtain ⟨hsrc, hcount, -, -⟩ := copy_of_read hsyms
  have hpos : 0 < b.count := by omega
  rw [symbolAt_of_read hsrc, hcount, if_pos hpos, List.getElem?_replicate_of_lt hpos]
  rfl

end Sound

/-! ## Whole runs -/

/-- Every live object answers every `at` with a string. -/
def NeverNull (lib : Library) (s : Pool Backtrace) : Prop :=
  ∀ o b, s.lookup o = some b → ∀ i, (symbolAt lib b i).1 ≠ none

/-- A copy is made of a trace whose symbols were not resolved, or that has none. -/
def CopiesUnread (s : Pool Backtrace) : Op → Prop
  | .copy src _ => ∀ b ∈ s.lookup src, b.symbols = none ∨ b.count = 0
  | .construct _ _ => True
  | .symbolAt _ _ => True
  | .name _ _ => True
  | .iterate _ => True
  | .destroy _ => True

instance (s : Pool Backtrace) : (op : Op) → Decidable (CopiesUnread s op)
  | .copy src _ => inferInstanceAs
      (Decidable (∀ b ∈ s.lookup src, b.symbols = none ∨ b.count = 0))
  | .construct _ _ => inferInstanceAs (Decidable True)
  | .symbolAt _ _ => inferInstanceAs (Decidable True)
  | .name _ _ => inferInstanceAs (Decidable True)
  | .iterate _ => inferInstanceAs (Decidable True)
  | .destroy _ => inferInstanceAs (Decidable True)

def AllSound (s : Pool Backtrace) : Prop := ∀ o b, s.lookup o = some b → Sound b

theorem step_allSound {lib : Library} (s : Pool Backtrace) (op : Op) (s' : Pool Backtrace)
    (hS : AllSound s) (hC : CopiesUnread s op) (h : step lib s op = some s') : AllSound s' := by
  cases op with
  | construct o frames =>
    simp only [step] at h
    split at h
    next => exact absurd h (by simp)
    next =>
      obtain rfl := Option.some.inj h
      exact Pool.forall_insert hS (fun _ hsyms => nomatch hsyms)
  | copy src dst =>
    simp only [step] at h
    split at h
    next b hsrc hdst =>
      obtain rfl := Option.some.inj h
      obtain ⟨hb, hb'⟩ := copy_sound (hS src b hsrc) (hC b hsrc)
      exact Pool.forall_insert (Pool.forall_insert hS hb) hb'
    next => exact absurd h (by simp)
  | symbolAt o index =>
    simp only [step] at h
    split at h
    next b ho =>
      obtain rfl := Option.some.inj h
      exact Pool.forall_insert hS (update_sound (hS o b ho))
    next => exact absurd h (by simp)
  | name o index =>
    simp only [step] at h
    split at h
    next b ho =>
      obtain rfl := Option.some.inj h
      exact Pool.forall_insert hS (name_snd_sound (hS o b ho) o index)
    next => exact absurd h (by simp)
  | iterate o =>
    simp only [step] at h
    split at h
    next b ho =>
      obtain rfl := Option.some.inj h
      exact Pool.forall_insert hS (update_sound (hS o b ho))
    next => exact absurd h (by simp)
  | destroy o =>
    simp only [step] at h
    split at h
    next b ho =>
      obtain rfl := Option.some.inj h
      exact Pool.forall_erase hS
    next => exact absurd h (by simp)

/-- A copy of a trace that was read leaves an object that answers null. -/
theorem step_null {lib : Library} {s s' : Pool Backtrace} {op : Op} (hC : ¬ CopiesUnread s op)
    (h : step lib s op = some s') : ¬ NeverNull lib s' := by
  cases op with
  | copy src dst =>
    simp only [CopiesUnread, not_forall] at hC
    obtain ⟨b, hsrc, hb⟩ := hC
    rw [Option.mem_def] at hsrc
    simp only [step, hsrc] at h
    split at h
    next b' hb' hdst =>
      obtain rfl := Option.some.inj hb'
      obtain rfl := Option.some.inj h
      intro hnull
      have hne : src ≠ dst := by
        rintro rfl
        exact nomatch hsrc.symm.trans hdst
      refine hnull src (copy b).1 ?_ 0 (copy_null hb)
      rw [Finmap.lookup_insert_of_ne _ hne, Finmap.lookup_insert]
    next => exact absurd h (by simp)
  | construct | symbolAt | name | iterate | destroy => exact absurd trivial hC

/-- **Which runs never meet a null symbol**: those whose copies are all made of traces that
were not read, or are empty. -/
theorem never_null_iff {lib : Library} {ops : List Op} {s : Pool Backtrace}
    (h : run (step lib) ∅ ops = some s) :
    (∀ pre m, pre <+: ops → run (step lib) ∅ pre = some m → NeverNull lib m) ↔
      Along (step lib) CopiesUnread ∅ ops := by
  constructor
  · intro hall
    by_contra hC
    obtain ⟨pre, op, post, m, m', rfl, hpre, hstep, hbad, -⟩ := not_along ops h hC
    -- the state right after the first copy that loses symbols is one of those passed through
    refine step_null hbad hstep (hall (pre ++ [op]) m' ⟨post, by simp⟩ ?_)
    rw [run_append_some]
    exact ⟨m, hpre, run_cons_some.mpr ⟨m', hstep, rfl⟩⟩
  · intro hC pre m hprefix hpre
    obtain ⟨post, rfl⟩ := hprefix
    have hsound : AllSound m :=
      run_inv_along step_allSound pre hpre ((along_append pre hpre).mp hC).1
        (fun o b ho => by rw [Finmap.lookup_empty] at ho; exact nomatch ho)
    intro o b ho i
    exact symbolAt_sound (hsound o b ho) i

/-- **What copies of a back trace are worth.** One copy is faithful when there were no symbols
to lose and the libraries make the same of both objects' addresses. A run never meets a null
symbol when its copies are made of traces that were not read, or are empty. -/
theorem backtrace_copies (lib : Library) :
    (∀ b place place', FaithfulCopy lib b place place' ↔
      NoSymbols b ∧ SameNames lib b place place') ∧
    ∀ ops s, run (step lib) ∅ ops = some s →
      ((∀ pre m, pre <+: ops → run (step lib) ∅ pre = some m → NeverNull lib m) ↔
        Along (step lib) CopiesUnread ∅ ops) :=
  ⟨copy_faithful_iff lib, fun _ _ h => never_null_iff h⟩

/-- A library that knows one function, and nothing about the addresses of objects. -/
def mainLibrary : Library where
  backtraceSymbols frames := some (frames.map fun _ => ascii "main")
  one_each frames strings h := by
    obtain rfl := Option.some.inj h
    exact List.length_map _
  demangled _ _ := none

/-- A copy, and then accesses. -/
def copiedFirst : List Op := [.construct 0 [7], .copy 0 1, .symbolAt 0 0, .symbolAt 1 0]

theorem backtrace_copies_demo :
    FaithfulCopy mainLibrary (construct [7]) 0 1 ∧
    ∃ s, run (step mainLibrary) ∅ copiedFirst = some s ∧ NeverNull mainLibrary s :=
  ⟨((backtrace_copies mainLibrary).1 (construct [7]) 0 1).mpr
      ⟨fun _ h => (nomatch h), fun _ _ => rfl⟩,
    _, rfl, ((backtrace_copies mainLibrary).2 copiedFirst _ rfl).mpr (by decide) copiedFirst _
      (List.prefix_refl _) rfl⟩

/-- The trace is read before it is copied: afterwards it answers null, and so does the copy. -/
theorem copy_loses_symbols :
    ¬ FaithfulCopy mainLibrary (update mainLibrary (construct [7])) 0 1 ∧
    ∃ s, run (step mainLibrary) ∅ [.construct 0 [7], .symbolAt 0 0, .copy 0 1] = some s ∧
      ∃ b c, s.lookup 0 = some b ∧ s.lookup 1 = some c ∧
        (symbolAt mainLibrary b 0).1 = none ∧ (symbolAt mainLibrary c 0).1 = none := by
  refine ⟨?_, _, rfl, _, _, rfl, rfl, rfl, rfl⟩
  intro h
  exact absurd (h.source_at 0) (by decide)

end Cor.Symbols

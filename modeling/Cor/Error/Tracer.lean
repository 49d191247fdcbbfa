import Cor.Error.Backtrace

/-!
# `error_trace_msg`, `error_trace_msg_nothrow` and `error_tracer`

Both handlers of `error_trace_msg` end with `throw e`, which throws a copy of what `e`
is declared to be and not what was caught. So a class derived from `cor::Error`
leaves as `cor::Error`, and any other class derived from `std::exception` as
`std::exception`, without its message. Before that the first handler prints the
trace, which can throw itself, and `throw e` copies a trace that was just read.
`error_trace_msg_nothrow` has the same handlers without `throw e`, and so it reports the
same, but what printing the trace throws leaves it all the same.

An exception is what a handler can tell of it: which of the two bases it has, if any,
what `what()` answers, and the `cor::Error` in it. The `print_trace` of a derived
class may be any function.
-/

namespace Cor.Tracer

open Cor.Symbols

/-- A `cor::Error`: the text of its `std::runtime_error` and the trace, at the place of the
object. -/
structure Error where
  text : Bytes
  place : Nat
  trace : Backtrace

/-- An exception. The classes that are not named by the code go by their name. -/
inductive Thrown
  /-- `cor::Error` itself. -/
  | error (e : Error)
  /-- A class derived from it. -/
  | derivedError (cls what : Bytes) (e : Error)
  /-- `std::exception` itself. -/
  | exception
  /-- A class derived from it, and not from `cor::Error`. -/
  | derivedException (cls what : Bytes)
  /-- Anything else. -/
  | other (cls value : Bytes)

/-- The dynamic class. -/
inductive Class
  | error
  | derivedError (cls : Bytes)
  | exception
  | derivedException (cls : Bytes)
  | other (cls : Bytes)
deriving DecidableEq

namespace Thrown

def cls : Thrown → Class
  | error _ => .error
  | derivedError cls _ _ => .derivedError cls
  | exception => .exception
  | derivedException cls _ => .derivedException cls
  | other cls _ => .other cls

/-- `what()`, or the value of an exception without it. -/
def what : Thrown → Bytes
  | error e => e.text
  | derivedError _ what _ => what
  | exception => ascii "std::exception"
  | derivedException _ what => what
  | other _ value => value

end Thrown

/-! ## `print_trace` -/

section Print

variable (lib : Library)

/-- Looking at a name resolves the symbols. -/
theorem name_snd {place : Nat} {b : Backtrace} {i : Nat} (h : i < b.count) :
    (name lib place b i).2 = update lib b := by
  unfold name
  rw [if_pos h]
  rfl

/-- The fallback is a single symbol, so there are never more of them than before. -/
theorem update_count_le {b : Backtrace} (h : 0 < b.count) : (update lib b).count ≤ b.count := by
  cases hsyms : b.symbols with
  | some syms => rw [update_of_read hsyms]
  | none =>
    rw [(update_of_unread hsyms).2]
    unfold getSymbols
    split
    next => exact Nat.le_refl _
    next => exact h

/-- `dst << trace`, from the frame `i` on. The name is evaluated before the line is begun;
the order of the operands is left open before C++17, so where a name throws the number of
its frame may have been written. -/
def printFrom (place : Nat) (b : Backtrace) (i : Nat) (out : Bytes) :
    Except Exn Unit × Backtrace × Bytes :=
  if _h : i < b.count then
    let named := name lib place b i
    match named.1 with
    | .ok text =>
      printFrom place named.2 (i + 1) (out ++ (ascii (toString i) ++ ascii ": " ++ text ++ [10]))
    | .error e => (.error e, named.2, out)
  else (.ok (), b, out)
termination_by b.count - i
decreasing_by
  have hle := update_count_le lib (Nat.lt_of_le_of_lt (Nat.zero_le i) _h)
  show (name lib place b i).2.count - (i + 1) < b.count - i
  rw [name_snd lib _h]
  omega

/-- What a `print_trace` does to the exception it is called on and to `std::cerr`. -/
abbrev PrintTrace := EStateM Thrown (Error × Bytes) Unit

/-- `Error::print_trace()`. -/
def printTrace : PrintTrace := fun (e, out) =>
  match printFrom lib e.place e.trace 0 out with
  | (.ok (), trace, out) => .ok () ({ e with trace }, out)
  | (.error x, trace, out) =>
    .error (.derivedException (ascii "std::logic_error") x.what) ({ e with trace }, out)

/-- `CError::print_trace()`. -/
def cErrorPrintTrace (rc : Int64) : PrintTrace := fun (e, out) =>
  printTrace lib (e, out ++ (ascii "rc: " ++
    ascii (String.ofList (Nat.toDigits 16 rc.toUInt64.toNat)) ++ [10]))

end Print

/-! ## `error_trace_msg` -/

section Trace

variable (lib : Library) (overrides : Bytes → Bytes → PrintTrace) (place : Nat)

/-- `throw e;` for an `Error const &e`: the new exception is put at `place`. -/
def Error.thrown (e : Error) : Thrown := .error ⟨e.text, place, (copy e.trace).2⟩

/-- `std::cerr << msg << "cor::Error: " << e.what() << std::endl;` -/
def errorLine (msg what : Bytes) : Bytes := msg ++ ascii "cor::Error: " ++ what ++ [10]

/-- `std::cerr << msg << "std::exception: " << e.what() << std::endl;` -/
def exceptionLine (msg what : Bytes) : Bytes := msg ++ ascii "std::exception: " ++ what ++ [10]

/-- The handler of `Error const &`. -/
def handleError (print : PrintTrace) (msg what : Bytes) (e : Error) (out : Bytes) :
    EStateM.Result Thrown Bytes Unit :=
  match print (e, out ++ errorLine msg what) with
  | .ok () (e, out) => .error (e.thrown place) out
  | .error x (_, out) => .error x out

/-- `error_trace_msg(msg, fn, args...)`. By class and message, `overrides` has the
`print_trace` of the derived classes. -/
def errorTraceMsg (msg : Bytes) (fn : EStateM Thrown Bytes Unit) : EStateM Thrown Bytes Unit :=
  fun out =>
    match fn out with
    | .ok () out => .ok () out
    | .error x out =>
      match x with
      | .error e => handleError place (printTrace lib) msg e.text e out
      | .derivedError cls what e => handleError place (overrides cls what) msg what e out
      | .exception => .error .exception (out ++ exceptionLine msg (ascii "std::exception"))
      | .derivedException _ what => .error .exception (out ++ exceptionLine msg what)
      | .other cls value => .error (.other cls value) out

/-- `error_tracer(fn, args...)`. -/
def errorTracer (fn : EStateM Thrown Bytes Unit) : EStateM Thrown Bytes Unit :=
  errorTraceMsg lib overrides place [] fn

/-- The handler of `Error const &` in `error_trace_msg_nothrow`, without the `throw e;`. -/
def reportError (print : PrintTrace) (msg what : Bytes) (e : Error) (out : Bytes) :
    EStateM.Result Thrown Bytes Unit :=
  match print (e, out ++ errorLine msg what) with
  | .ok () (_, out) => .ok () out
  | .error x (_, out) => .error x out

/-- `error_trace_msg_nothrow(msg, fn, args...)`. -/
def errorTraceMsgNothrow (msg : Bytes) (fn : EStateM Thrown Bytes Unit) :
    EStateM Thrown Bytes Unit :=
  fun out =>
    match fn out with
    | .ok () out => .ok () out
    | .error x out =>
      match x with
      | .error e => reportError (printTrace lib) msg e.text e out
      | .derivedError cls what e => reportError (overrides cls what) msg what e out
      | .exception => .ok () (out ++ exceptionLine msg (ascii "std::exception"))
      | .derivedException _ what => .ok () (out ++ exceptionLine msg what)
      | .other cls value => .error (.other cls value) out

/-- `error_trace_nothrow(fn, args...)`. -/
def errorTraceNothrow (fn : EStateM Thrown Bytes Unit) : EStateM Thrown Bytes Unit :=
  errorTraceMsgNothrow lib overrides [] fn

end Trace

/-! ## When the trace can be printed -/

/-- Every frame has a name. -/
def Printable (lib : Library) (e : Error) : Prop :=
  ∀ i < e.trace.count, ∃ text, (name lib e.place e.trace i).1 = .ok text

section Printable

variable {lib : Library} {place : Nat} {b : Backtrace}

theorem update_update : update lib (update lib b) = update lib b := by
  cases hsyms : b.symbols with
  | some syms => rw [update_of_read hsyms, update_of_read hsyms]
  | none => exact update_of_read (update_of_unread hsyms).1

theorem symbolAt_update (i : Nat) : (symbolAt lib (update lib b) i).1 = (symbolAt lib b i).1 := by
  unfold symbolAt
  rw [update_update]

/-- Resolving the symbols keeps every name, or makes it one of those that are always there. -/
theorem name_update {i : Nat} (h : i < b.count) :
    (i < (update lib b).count ∧
      (name lib place (update lib b) i).1 = (name lib place b i).1) ∨
    ((update lib b).count ≤ i ∧ ∃ text, (name lib place b i).1 = .ok text) := by
  by_cases hlt : i < (update lib b).count
  · refine .inl ⟨hlt, ?_⟩
    rw [name_fst, name_fst, if_pos hlt, if_pos h, symbolAt_update]
  · refine .inr ⟨Nat.le_of_not_lt hlt, ?_⟩
    have hat : (symbolAt lib b i).1 = some (ascii "???") := by
      unfold symbolAt
      simp only [if_neg hlt]
      split <;> rfl
    rw [name_fst, if_pos h, hat]
    cases lib.demangled place i with
    | none => exact ⟨_, rfl⟩
    | some text => exact ⟨_, rfl⟩

/-- Printing from a frame on throws at the first one without a name. -/
theorem printFrom_ok_iff (b : Backtrace) (i : Nat) (out : Bytes) :
    (printFrom lib place b i out).1 = .ok () ↔
      ∀ j, i ≤ j → j < b.count → ∃ text, (name lib place b j).1 = .ok text := by
  induction hn : b.count - i using Nat.strongRecOn generalizing b i out with
  | ind n ih =>
  rw [printFrom]
  by_cases h : i < b.count
  · rw [dif_pos h]
    have hle := update_count_le lib (Nat.lt_of_le_of_lt (Nat.zero_le i) h)
    cases hname : (name lib place b i).1 with
    | error e =>
      simp only [hname]
      constructor
      · intro herror
        exact nomatch herror
      · intro hall
        obtain ⟨text, htext⟩ := hall i (Nat.le_refl i) h
        rw [hname] at htext
        exact nomatch htext
    | ok text =>
      simp only [hname, name_snd lib h]
      -- the rest is printed from the trace as it is after the first look
      rw [ih _ (by omega) (update lib b) (i + 1) _ rfl]
      constructor
      · intro hall j hij hj
        rcases Nat.eq_or_lt_of_le hij with rfl | hij
        · exact ⟨text, hname⟩
        · rcases @name_update lib place b j hj with ⟨hlt, heq⟩ | ⟨-, htext⟩
          · rw [← heq]
            exact hall j hij hlt
          · exact htext
      · intro hall j hij hj
        rcases @name_update lib place b j (Nat.lt_of_lt_of_le hj hle) with
          ⟨-, heq⟩ | ⟨hge, -⟩
        · rw [heq]
          exact hall j (Nat.le_of_succ_le hij) (Nat.lt_of_lt_of_le hj hle)
        · omega
  · rw [dif_neg h]
    constructor
    · intro _ j hij hj
      omega
    · intro _
      rfl

/-- `print_trace` keeps the text, and throws nothing but `std::logic_error`. -/
theorem printTrace_cases (lib : Library) (e : Error) (out : Bytes) :
    (Printable lib e ∧ ∃ trace out',
      printTrace lib (e, out) = .ok () (⟨e.text, e.place, trace⟩, out')) ∨
    (¬ Printable lib e ∧ ∃ what s, printTrace lib (e, out) =
      .error (.derivedException (ascii "std::logic_error") what) s) := by
  have hiff := @printFrom_ok_iff lib e.place e.trace 0 out
  have hprintable : Printable lib e ↔ (printFrom lib e.place e.trace 0 out).1 = .ok () := by
    rw [hiff]
    exact ⟨fun h j _ hj => h j hj, fun h j hj => h j (Nat.zero_le j) hj⟩
  unfold printTrace
  cases hprint : printFrom lib e.place e.trace 0 out with
  | mk r rest =>
    rw [hprint] at hprintable
    simp only [hprint]
    cases r with
    | ok u => exact .inl ⟨hprintable.mpr rfl, _, _, rfl⟩
    | error x => exact .inr ⟨fun h => (nomatch hprintable.mp h), _, _, rfl⟩

end Printable

/-! ## What passes -/

/-- `traced` ends as `fn` does: it returns, or throws an exception of the same class with the
same message. -/
def Transparent (fn traced : EStateM Thrown Bytes Unit) (out : Bytes) : Prop :=
  match fn out with
  | .ok () _ => ∃ out', traced out = .ok () out'
  | .error x _ => ∃ y out', traced out = .error y out' ∧ y.cls = x.cls ∧ y.what = x.what

/-- The exceptions that `error_trace_msg` does not change, by their class: the two that a
handler declares, if the trace of the first can be printed, and those that no handler
catches. A class derived from `cor::Error` is kept only by a `print_trace` that throws an
exception like it. -/
def Kept (lib : Library) (overrides : Bytes → Bytes → PrintTrace) (msg : Bytes) (x : Thrown)
    (out : Bytes) : Prop :=
  match x with
  | .error e => Printable lib e
  | .derivedError cls what e =>
    ∃ y s, overrides cls what (e, out ++ errorLine msg what) = .error y s ∧
      y.cls = .derivedError cls ∧ y.what = what
  | .exception => True
  | .derivedException _ _ => False
  | .other _ _ => True

/-- `fn` returned, or threw what is kept. -/
def Passes (lib : Library) (overrides : Bytes → Bytes → PrintTrace) (msg : Bytes) :
    EStateM.Result Thrown Bytes Unit → Prop
  | .ok _ _ => True
  | .error x out => Kept lib overrides msg x out

section Transparent

variable (lib : Library) (overrides : Bytes → Bytes → PrintTrace) (place : Nat)

/-- What leaves the handler of a derived class is like what was caught only if the
`print_trace` of the class threw it. -/
theorem handleError_derived (msg cls what : Bytes) (e : Error) (out : Bytes) :
    (∃ y out', handleError place (overrides cls what) msg what e out = .error y out' ∧
      y.cls = .derivedError cls ∧ y.what = what) ↔
    ∃ y s, overrides cls what (e, out ++ errorLine msg what) = .error y s ∧
      y.cls = .derivedError cls ∧ y.what = what := by
  unfold handleError
  cases hprint : overrides cls what (e, out ++ errorLine msg what) with
  | ok u s =>
    -- `throw e` makes a `cor::Error` of it
    constructor
    · rintro ⟨y, out', hy, hcls, -⟩
      obtain ⟨rfl, -⟩ := EStateM.Result.error.inj hy
      exact nomatch hcls
    · rintro ⟨y, t, hy, -⟩
      exact nomatch hy
  | error x s =>
    constructor
    · rintro ⟨y, out', hy, hsame⟩
      obtain ⟨rfl, -⟩ := EStateM.Result.error.inj hy
      exact ⟨_, _, rfl, hsame⟩
    · rintro ⟨y, t, hy, hsame⟩
      obtain ⟨rfl, -⟩ := EStateM.Result.error.inj hy
      exact ⟨_, _, rfl, hsame⟩

/-- What leaves the handler of `cor::Error` itself is a `cor::Error` if the trace was
printed. -/
theorem handleError_error (msg : Bytes) (e : Error) (out : Bytes) :
    (∃ y out', handleError place (printTrace lib) msg e.text e out = .error y out' ∧
      y.cls = .error ∧ y.what = e.text) ↔ Printable lib e := by
  unfold handleError
  rcases printTrace_cases lib e (out ++ errorLine msg e.text) with
    ⟨hprintable, trace, out', hprint⟩ | ⟨hnot, what, s, hprint⟩
  · simp only [hprint]
    exact ⟨fun _ => hprintable, fun _ => ⟨_, _, rfl, rfl, rfl⟩⟩
  · simp only [hprint]
    constructor
    · rintro ⟨y, out', hy, hcls, -⟩
      obtain ⟨rfl, -⟩ := EStateM.Result.error.inj hy
      exact nomatch hcls
    · intro hprintable
      exact absurd hprintable hnot

/-- **When `error_trace_msg` is transparent**: `fn` returns, or it throws an exception of one of
the kinds that are kept. -/
theorem errorTraceMsg_transparent_iff (fn : EStateM Thrown Bytes Unit) (out : Bytes) :
    (∀ msg, Transparent fn (errorTraceMsg lib overrides place msg fn) out ↔
      Passes lib overrides msg (fn out)) ∧
    (Transparent fn (errorTracer lib overrides place fn) out ↔
      Passes lib overrides [] (fn out)) := by
  have hmsg : ∀ msg, Transparent fn (errorTraceMsg lib overrides place msg fn) out ↔
      Passes lib overrides msg (fn out) := by
    intro msg
    unfold Transparent errorTraceMsg
    cases fn out with
    | ok u out' => exact ⟨fun _ => trivial, fun _ => ⟨_, rfl⟩⟩
    | error x out' =>
      cases x with
      | error e => exact handleError_error lib place msg e out'
      | derivedError cls what e => exact handleError_derived overrides place msg cls what e out'
      | exception => exact ⟨fun _ => trivial, fun _ => ⟨_, _, rfl, rfl, rfl⟩⟩
      | derivedException cls what =>
        -- what leaves is a `std::exception`, and never of the class
        constructor
        · rintro ⟨y, s, hy, hcls, -⟩
          obtain ⟨rfl, -⟩ := EStateM.Result.error.inj hy
          exact nomatch hcls
        · intro hfalse
          exact hfalse.elim
      | other cls value => exact ⟨fun _ => trivial, fun _ => ⟨_, _, rfl, rfl, rfl⟩⟩
  exact ⟨hmsg, hmsg []⟩

end Transparent

section Sliced

variable {lib : Library} {place : Nat} {e : Error} {out : Bytes}

/-- A `cor::CError` leaves the handler as a `cor::Error` with the same text. -/
theorem cError_sliced (rc : Int64) (msg what : Bytes) (h : Printable lib e) :
    ∃ e' out', handleError place (cErrorPrintTrace lib rc) msg what e out =
      .error (.error e') out' ∧ e'.text = e.text := by
  unfold handleError cErrorPrintTrace
  rcases printTrace_cases lib e (out ++ errorLine msg what ++ (ascii "rc: " ++
      ascii (String.ofList (Nat.toDigits 16 rc.toUInt64.toNat)) ++ [10])) with
    ⟨-, trace, out', hprint⟩ | ⟨hnot, -⟩
  · simp only [hprint]
    exact ⟨_, _, rfl, rfl⟩
  · exact absurd h hnot

/-- Printing resolves the symbols. -/
theorem printFrom_trace (b : Backtrace) (i : Nat) (out : Bytes) :
    (printFrom lib place b i out).2.1 = if i < b.count then update lib b else b := by
  induction hn : b.count - i using Nat.strongRecOn generalizing b i out with
  | ind n ih =>
  rw [printFrom]
  by_cases h : i < b.count
  · have hle := update_count_le lib (Nat.lt_of_le_of_lt (Nat.zero_le i) h)
    rw [dif_pos h, if_pos h]
    cases hname : (name lib place b i).1 with
    | error x => simp only [hname, name_snd lib h]
    | ok text =>
      simp only [hname, name_snd lib h]
      rw [ih _ (by omega) (update lib b) (i + 1) _ rfl, update_update]
      split <;> rfl
  · rw [dif_neg h, if_neg h]

theorem printTrace_trace {e' : Error} {out' : Bytes} (hcount : 0 < e.trace.count)
    (hprint : printTrace lib (e, out) = .ok () (e', out')) : e'.trace = update lib e.trace := by
  have hfrom := @printFrom_trace lib e.place e.trace 0 out
  rw [if_pos hcount] at hfrom
  unfold printTrace at hprint
  cases hr : printFrom lib e.place e.trace 0 out with
  | mk r rest =>
    rw [hr] at hfrom
    simp only [hr] at hprint
    cases r with
    | ok u =>
      obtain ⟨-, hstate⟩ := EStateM.Result.ok.inj hprint
      rw [← (Prod.mk.inj hstate).1]
      exact hfrom
    | error x => exact nomatch hprint

/-- A trace that was looked at has its symbols, one at least if there was a frame. -/
theorem update_read (lib : Library) {b : Backtrace} (h : 0 < b.count) :
    ∃ syms, (update lib b).symbols = some syms ∧ 0 < (update lib b).count := by
  cases hsyms : b.symbols with
  | some syms =>
    rw [update_of_read hsyms]
    exact ⟨syms, hsyms, h⟩
  | none =>
    obtain ⟨hread, hcount⟩ := @update_of_unread lib b hsyms
    refine ⟨_, hread, ?_⟩
    rw [hcount]
    unfold getSymbols
    split
    next => exact h
    next => exact Nat.one_pos

/-- The trace of the new exception was copied from one that had just been printed, so its
symbols are null. -/
theorem rethrown_not_printable {e' : Error} {out' : Bytes} (hcount : 0 < e.trace.count)
    (hprint : printTrace lib (e, out) = .ok () (e', out')) (hplace : lib.demangled place 0 = none) :
    ¬ Printable lib ⟨e'.text, place, (copy e'.trace).2⟩ := by
  obtain ⟨syms, hsyms, hpos⟩ := update_read lib hcount
  rw [printTrace_trace hcount hprint]
  obtain ⟨-, -, hnew, hnewcount⟩ := copy_of_read hsyms
  intro hprintable
  obtain ⟨text, htext⟩ := hprintable 0 (by rw [hnewcount]; exact hpos)
  rw [name_fst, hnewcount, if_pos hpos, symbolAt_of_read hnew, hnewcount, if_pos hpos,
    List.getElem?_replicate_of_lt hpos, hplace] at htext
  exact nomatch htext

/-- A `cor::Error` whose trace is printed leaves with one that cannot be. -/
theorem errorTracer_error {overrides : Bytes → Bytes → PrintTrace}
    {fn : EStateM Thrown Bytes Unit} {out₁ : Bytes} (hfn : fn out = .error (.error e) out₁)
    (hprintable : Printable lib e) (hcount : 0 < e.trace.count)
    (hplace : lib.demangled place 0 = none) :
    ∃ e' out', errorTracer lib overrides place fn out = .error (.error e') out' ∧
      ¬ Printable lib e' := by
  rcases printTrace_cases lib e (out₁ ++ errorLine [] e.text) with
    ⟨-, trace, out₂, hprint⟩ | ⟨hnot, -⟩
  · refine ⟨_, out₂, ?_, rethrown_not_printable hcount hprint hplace⟩
    unfold errorTracer errorTraceMsg
    simp only [hfn]
    unfold handleError
    rw [hprint]
    rfl
  · exact absurd hprintable hnot

/-- Two tracers around each other turn a `cor::Error` into a `std::logic_error`. -/
theorem errorTracer_twice {overrides : Bytes → Bytes → PrintTrace} {place' : Nat}
    {fn : EStateM Thrown Bytes Unit} {out₁ : Bytes} (hfn : fn out = .error (.error e) out₁)
    (hprintable : Printable lib e) (hcount : 0 < e.trace.count)
    (hplace : lib.demangled place 0 = none) :
    ∃ what out', errorTracer lib overrides place' (errorTracer lib overrides place fn) out =
      .error (.derivedException (ascii "std::logic_error") what) out' := by
  obtain ⟨e', out₂, hinner, hbad⟩ :=
    @errorTracer_error lib place e out overrides fn out₁ hfn hprintable hcount hplace
  rcases printTrace_cases lib e' (out₂ ++ errorLine [] e'.text) with
    ⟨hgood, -⟩ | ⟨-, what, s, hprint'⟩
  · exact absurd hgood hbad
  · refine ⟨what, s.2, ?_⟩
    show errorTraceMsg lib overrides place' [] (errorTracer lib overrides place fn) out = _
    unfold errorTraceMsg
    simp only [hinner]
    unfold handleError
    rw [hprint']

end Sliced

/-! ## What `error_trace_msg_nothrow` lets out -/

/-- The exceptions that pass both handlers or come out of the first. -/
def Escapes (lib : Library) (overrides : Bytes → Bytes → PrintTrace) (msg : Bytes) (x : Thrown)
    (out : Bytes) : Prop :=
  match x with
  | .error e => ¬ Printable lib e
  | .derivedError cls what e => ∃ y s, overrides cls what (e, out ++ errorLine msg what) = .error y s
  | .exception => False
  | .derivedException _ _ => False
  | .other _ _ => True

section Nothrow

variable (lib : Library) (overrides : Bytes → Bytes → PrintTrace) (place : Nat)

/-- What is written to `std::cerr` by the time the call is left. -/
def written : EStateM.Result Thrown Bytes Unit → Bytes
  | .ok _ out => out
  | .error _ out => out

theorem written_reportError (print : PrintTrace) (msg what : Bytes) (e : Error) (out : Bytes) :
    written (reportError print msg what e out) =
      written (handleError place print msg what e out) := by
  unfold reportError handleError
  cases print (e, out ++ errorLine msg what) with
  | ok u s => rfl
  | error x s => rfl

/-- Both report the same. -/
theorem written_nothrow (msg : Bytes) (fn : EStateM Thrown Bytes Unit) (out : Bytes) :
    written (errorTraceMsgNothrow lib overrides msg fn out) =
      written (errorTraceMsg lib overrides place msg fn out) := by
  unfold errorTraceMsgNothrow errorTraceMsg
  cases fn out with
  | ok u out' => rfl
  | error x out' =>
    cases x with
    | error e => exact written_reportError place _ msg e.text e out'
    | derivedError cls what e => exact written_reportError place _ msg what e out'
    | exception => rfl
    | derivedException cls what => rfl
    | other cls value => rfl

theorem reportError_throws_iff (print : PrintTrace) (msg what : Bytes) (e : Error) (out : Bytes) :
    (∃ y out', reportError print msg what e out = .error y out') ↔
      ∃ y s, print (e, out ++ errorLine msg what) = .error y s := by
  unfold reportError
  cases print (e, out ++ errorLine msg what) with
  | ok u s =>
    constructor
    · rintro ⟨y, out', hy⟩
      exact nomatch hy
    · rintro ⟨y, t, hy⟩
      exact nomatch hy
  | error x s => exact ⟨fun _ => ⟨_, _, rfl⟩, fun _ => ⟨_, _, rfl⟩⟩

theorem printTrace_throws_iff (e : Error) (out : Bytes) :
    (∃ y s, printTrace lib (e, out) = .error y s) ↔ ¬ Printable lib e := by
  rcases printTrace_cases lib e out with ⟨hprintable, trace, out', hprint⟩ | ⟨hnot, what, s, hprint⟩
  · rw [hprint]
    constructor
    · rintro ⟨y, s, hy⟩
      exact nomatch hy
    · intro hnot
      exact absurd hprintable hnot
  · exact ⟨fun _ => hnot, fun _ => ⟨_, _, hprint⟩⟩

/-- `error_trace_msg_nothrow` throws what no handler catches, and what `print_trace` throws. -/
theorem nothrow_throws_iff (msg : Bytes) (fn : EStateM Thrown Bytes Unit) (out : Bytes) :
    (∃ y out', errorTraceMsgNothrow lib overrides msg fn out = .error y out') ↔
      ∃ x out₁, fn out = .error x out₁ ∧ Escapes lib overrides msg x out₁ := by
  unfold errorTraceMsgNothrow
  cases fn out with
  | ok u out' =>
    constructor
    · rintro ⟨y, s, hy⟩
      exact nomatch hy
    · rintro ⟨x, s, hx, -⟩
      exact nomatch hx
  | error x out' =>
    have hbase : (∃ x₁ out₁, (EStateM.Result.error x out' : EStateM.Result Thrown Bytes Unit) =
        .error x₁ out₁ ∧ Escapes lib overrides msg x₁ out₁) ↔ Escapes lib overrides msg x out' := by
      constructor
      · rintro ⟨x₁, out₁, heq, hescapes⟩
        obtain ⟨rfl, rfl⟩ := EStateM.Result.error.inj heq
        exact hescapes
      · intro hescapes
        exact ⟨x, out', rfl, hescapes⟩
    rw [hbase]
    cases x with
    | error e => exact (reportError_throws_iff _ msg e.text e out').trans (printTrace_throws_iff lib e _)
    | derivedError cls what e => exact reportError_throws_iff _ msg what e out'
    | exception =>
      constructor
      · rintro ⟨y, s, hy⟩
        exact nomatch hy
      · intro hfalse
        exact hfalse.elim
    | derivedException cls what =>
      constructor
      · rintro ⟨y, s, hy⟩
        exact nomatch hy
      · intro hfalse
        exact hfalse.elim
    | other cls value => exact ⟨fun _ => trivial, fun _ => ⟨_, _, rfl⟩⟩

/-- Around an `error_tracer` it throws for a plain `cor::Error`, whose copy has lost its
symbols. -/
theorem nothrow_tracer {e : Error} {msg : Bytes} {fn : EStateM Thrown Bytes Unit} {out out₁ : Bytes}
    (hfn : fn out = .error (.error e) out₁) (hprintable : Printable lib e)
    (hcount : 0 < e.trace.count) (hplace : lib.demangled place 0 = none) :
    ∃ y out', errorTraceMsgNothrow lib overrides msg
      (errorTracer lib overrides place fn) out = .error y out' := by
  obtain ⟨e', out₂, hinner, hbad⟩ := errorTracer_error hfn hprintable hcount hplace
  rw [nothrow_throws_iff]
  exact ⟨.error e', out₂, hinner, hbad⟩

end Nothrow

section Sliced

/-- A `std::runtime_error` leaves as a `std::exception`, without its message. -/
theorem tracer_slices_runtime_error :
    errorTracer mainLibrary (fun _ _ => pure ()) 0
      (fun out => .error (.derivedException (ascii "std::runtime_error") (ascii "boom")) out) [] =
        .error .exception (ascii "std::exception: boom" ++ [10]) ∧
    ¬ Transparent
      (fun out => .error (.derivedException (ascii "std::runtime_error") (ascii "boom")) out)
      (errorTracer mainLibrary (fun _ _ => pure ()) 0
        (fun out => .error (.derivedException (ascii "std::runtime_error") (ascii "boom")) out))
      [] := by
  refine ⟨rfl, ?_⟩
  rintro ⟨y, s, hy, hcls, -⟩
  obtain ⟨rfl, -⟩ := EStateM.Result.error.inj hy
  exact nomatch hcls

end Sliced

end Cor.Tracer

import Mathlib.Data.List.Induction
import Mathlib.Tactic.ByContra
import Cor.Base.Stoi

/-!
# The log level of `cor::debug`

`init` reads `COR_DEBUG` once, and every function that looks at the level or sets
it calls `init` first. `std::call_once` counts a call of its function only when
that returns: `std::stoi` throws on a value that names no `int`, the flag is left
as it was, and the next call runs into the same exception. So one value that is no
number takes down every call, `level` with an explicit level included
(`obeys_iff`); with any other value the explicit level is what counts.

The state is the flag and `current_level`; the environment is a constant of the
run. A message is the arguments that `print_line_to` gets: a value is the text it
is printed as, `Trace::Eol` and `Trace::NoEol` switch the end of the line. A call
that may print answers the text it writes to its stream.
-/

namespace Cor.Debug

inductive Level where
  | debug
  | info
  | warning
  | error
  | critical
deriving DecidableEq, Repr

/-- `static_cast<int>(l)`. -/
def Level.toInt : Level → Int32
  | .debug => 1
  | .info => 2
  | .warning => 3
  | .error => 4
  | .critical => 5

/-- `level_tag(l)`, the entry of `level_tags` at `enum_index(l)`. -/
def levelTag : Level → Bytes
  | .debug => ascii "1:"
  | .info => ascii "2:"
  | .warning => ascii "3:"
  | .error => ascii "4:"
  | .critical => ascii "5:"

/-! ## Printing -/

inductive Arg where
  | text (s : Bytes)
  | level (l : Level)
  | eol
  | noEol
deriving DecidableEq

/-- What a `TraceContext` has written to its stream, and whether its destructor ends
the line. -/
structure TraceContext where
  written : Bytes
  eol : Bool

/-- `dst << v`. -/
def TraceContext.put (dst : TraceContext) : Arg → TraceContext
  | .text s => { dst with written := dst.written ++ s }
  | .level l => { dst with written := dst.written ++ levelTag l }
  | .eol => { dst with eol := true }
  | .noEol => { dst with eol := false }

def print (d : TraceContext) : List Arg → TraceContext
  | [] => d
  | v1 :: args => print (d.put v1) args

/-- What the stream has got when the context is gone. -/
def TraceContext.finish (d : TraceContext) : Bytes :=
  if d.eol then d.written ++ ascii "\n" else d.written

def printLineTo (args : List Arg) : Bytes := (print ⟨[], true⟩ args).finish

/-! ## The level -/

structure State where
  /-- `set_level_once_` has seen its function return. -/
  initialised : Bool
  currentLevel : Int32
deriving DecidableEq, Repr

def State.start : State := ⟨false, Level.error.toInt⟩

abbrev TraceM := EStateM Exn State

def setCurrent (n : Int32) : TraceM Unit := modify fun st => { st with currentLevel := n }

/-- The function that `init` calls once. -/
def setLevel (env : Option CStr) : TraceM Unit :=
  match env with
  | none => pure ()
  | some c =>
    let name := c.bytes
    if name.length ≠ 0 then
      match stoi name with
      | .ok n => setCurrent n
      | .error e => throw e
    else setCurrent Level.error.toInt

/-- `init()`, with `env` what `getenv("COR_DEBUG")` returns. -/
def init (env : Option CStr) : TraceM Unit := do
  if !(← get).initialised then
    setLevel env
    modify fun st => { st with initialised := true }

def level (env : Option CStr) (l : Level) : TraceM Unit := do
  init env
  setCurrent l.toInt

def isTracingLevel (env : Option CStr) (l : Level) : TraceM Bool := do
  init env
  let current := (← get).currentLevel
  return if current ≠ 0 then decide (l.toInt ≥ current) else false

/-- `print_line_ge(dst, print_level, args...)`. -/
def printLineGe (env : Option CStr) (print_level : Level) (args : List Arg) : TraceM Bytes := do
  if ← isTracingLevel env print_level then
    return printLineTo (.level print_level :: args)
  else
    return []

/-! ## The calls of a program -/

inductive Call where
  | level (l : Level)
  | isTracingLevel (l : Level)
  | printLineGe (l : Level) (args : List Arg)
deriving DecidableEq

/-- What a call returns, or writes. -/
inductive Answer where
  | done
  | tracing (b : Bool)
  | wrote (text : Bytes)
deriving DecidableEq

/-- `Log`, without its stream. -/
structure Log where
  prefix_ : Bytes

def Log.mkLog (name : Bytes) : Log := ⟨name ++ ascii ": "⟩

def Log.call (log : Log) (l : Level) (args : List Arg) : Call :=
  .printLineGe l (.text log.prefix_ :: args)

def Log.debug (log : Log) (args : List Arg) : Call := log.call .debug args
def Log.info (log : Log) (args : List Arg) : Call := log.call .info args
def Log.warning (log : Log) (args : List Arg) : Call := log.call .warning args
def Log.error (log : Log) (args : List Arg) : Call := log.call .error args
def Log.critical (log : Log) (args : List Arg) : Call := log.call .critical args

def Call.run (env : Option CStr) : Call → TraceM Answer
  | .level l => do
    Debug.level env l
    return .done
  | .isTracingLevel l => return .tracing (← Debug.isTracingLevel env l)
  | .printLineGe l args => return .wrote (← Debug.printLineGe env l args)

/-- The state that a call leaves, however it ends. -/
def Call.after (env : Option CStr) (st : State) (c : Call) : State :=
  match c.run env st with
  | .ok _ st' => st'
  | .error _ st' => st'

/-- The state after some calls, a program that catches what they throw. -/
def stateAfter (env : Option CStr) (calls : List Call) : State :=
  calls.foldl (Call.after env) .start

/-- The level that was set last. -/
def lastLevel (calls : List Call) : Option Level :=
  calls.foldl (fun last c => match c with
    | .level l => some l
    | _ => last) none

/-- A call that goes by the level `L`: a message is printed if and only if its level is
at least `L`. -/
def Call.GoesBy (L : Level) : Call → Answer → Prop
  | .level _, a => a = .done
  | .isTracingLevel l, a => a = .tracing (decide (L.toInt ≤ l.toInt))
  | .printLineGe l args, a =>
    ∃ text, a = .wrote text ∧ (text ≠ [] ↔ L.toInt ≤ l.toInt) ∧
      (L.toInt ≤ l.toInt → text = printLineTo (.level l :: args))

/-- No call throws, and each goes by the level set last. -/
def Obeys (env : Option CStr) (calls : List Call) : Prop :=
  ∀ before c after, calls = before ++ c :: after →
    ∃ a st', c.run env (stateAfter env before) = .ok a st' ∧
      ∀ L, lastLevel before = some L → c.GoesBy L a

/-- What `COR_DEBUG` may hold: nothing, or a string that begins with an `int`. -/
def Readable (env : Option CStr) : Prop :=
  ∀ c, env = some c → c.bytes = [] ∨ StartsWithInt c.bytes

section Run

variable {env : Option CStr} {st : State}

/-! ## `init` -/

theorem init_again (h : st.initialised = true) : init env st = .ok () st := by
  obtain ⟨initialised, currentLevel⟩ := st
  obtain rfl := h
  rfl

theorem init_first (h : st.initialised = false) :
    init env st = (setLevel env >>= fun _ =>
      modify fun st => { st with initialised := true } : TraceM Unit) st := by
  obtain ⟨initialised, currentLevel⟩ := st
  obtain rfl := h
  rfl

theorem init_ok (henv : Readable env) (st : State) :
    ∃ n, init env st = .ok () ⟨true, n⟩ := by
  cases hinit : st.initialised with
  | true =>
    obtain ⟨initialised, currentLevel⟩ := st
    obtain rfl := hinit
    exact ⟨currentLevel, rfl⟩
  | false =>
    rw [init_first hinit]
    cases henvc : env with
    | none => exact ⟨st.currentLevel, rfl⟩
    | some c =>
      by_cases hc : c.bytes = []
      · refine ⟨Level.error.toInt, ?_⟩
        have hset : setLevel (some c) = setCurrent Level.error.toInt := if_neg (by simp [hc])
        rw [hset]
        rfl
      · obtain ⟨n, hn⟩ := (stoi_ok_iff c).mpr ((henv c henvc).resolve_left hc)
        refine ⟨n, ?_⟩
        have hset : setLevel (some c) = setCurrent n := by
          unfold setLevel
          dsimp only
          rw [if_pos (by simpa using hc), hn]
        rw [hset]
        rfl

/-- A value that names no `int` makes `init` throw, and leaves everything as it was. -/
theorem init_throws (henv : ¬ Readable env) (h : st.initialised = false) :
    ∃ e, init env st = .error e st := by
  unfold Readable at henv
  push Not at henv
  obtain ⟨c, rfl, hc, hint⟩ := henv
  rw [init_first h]
  cases hstoi : stoi c.bytes with
  | ok n => exact absurd ((stoi_ok_iff c).mp ⟨n, hstoi⟩) hint
  | error e =>
    refine ⟨e, ?_⟩
    have hset : setLevel (some c) = throw e := by
      unfold setLevel
      dsimp only
      rw [if_pos (by simpa using hc), hstoi]
    rw [hset]
    rfl

/-! ## One call -/

/-- What `is_tracing_level` answers at a current level. -/
def tracing (current : Int32) (l : Level) : Bool :=
  if current ≠ 0 then decide (l.toInt ≥ current) else false

/-- What a call answers at a current level. -/
def Call.answer (current : Int32) : Call → Answer
  | .level _ => .done
  | .isTracingLevel l => .tracing (tracing current l)
  | .printLineGe l args =>
    .wrote (if tracing current l then printLineTo (.level l :: args) else [])

/-- The current level that a call leaves. -/
def Call.current (current : Int32) : Call → Int32
  | .level l => l.toInt
  | _ => current

theorem level_ok {n : Int32} (h : init env st = .ok () ⟨true, n⟩) (l : Level) :
    level env l st = .ok () ⟨true, l.toInt⟩ := by
  show EStateM.bind (init env) _ st = _
  rw [EStateM.bind, h]
  rfl

theorem isTracingLevel_ok {n : Int32} (h : init env st = .ok () ⟨true, n⟩) (l : Level) :
    isTracingLevel env l st = .ok (tracing n l) ⟨true, n⟩ := by
  show EStateM.bind (init env) _ st = _
  rw [EStateM.bind, h]
  rfl

theorem printLineGe_ok {n : Int32} (h : init env st = .ok () ⟨true, n⟩) (l : Level)
    (args : List Arg) :
    printLineGe env l args st =
      .ok (if tracing n l then printLineTo (.level l :: args) else []) ⟨true, n⟩ := by
  show EStateM.bind (isTracingLevel env l) _ st = _
  rw [EStateM.bind, isTracingLevel_ok h]
  cases tracing n l with
  | false => rfl
  | true => rfl

/-- A call whose `init` returns goes by the current level, and only `level` changes it. -/
theorem run_ok {n : Int32} (h : init env st = .ok () ⟨true, n⟩) (c : Call) :
    c.run env st = .ok (c.answer n) ⟨true, c.current n⟩ := by
  cases c with
  | level l =>
    show EStateM.bind (level env l) _ st = _
    rw [EStateM.bind, level_ok h]
    rfl
  | isTracingLevel l =>
    show EStateM.bind (isTracingLevel env l) _ st = _
    rw [EStateM.bind, isTracingLevel_ok h]
    rfl
  | printLineGe l args =>
    show EStateM.bind (printLineGe env l args) _ st = _
    rw [EStateM.bind, printLineGe_ok h]
    rfl

/-- A call whose `init` throws does nothing else. -/
theorem run_error {e : Exn} (h : init env st = .error e st) (c : Call) :
    c.run env st = .error e st := by
  have hbind : ∀ {α : Type} (f : Unit → TraceM α), EStateM.bind (init env) f st = .error e st := by
    intro α f
    rw [EStateM.bind, h]
  cases c with
  | level l =>
    show EStateM.bind (level env l) _ st = _
    rw [EStateM.bind, show level env l st = _ from hbind _]
  | isTracingLevel l =>
    show EStateM.bind (isTracingLevel env l) _ st = _
    rw [EStateM.bind, show isTracingLevel env l st = _ from hbind _]
  | printLineGe l args =>
    show EStateM.bind (EStateM.bind (isTracingLevel env l) _) _ st = _
    rw [EStateM.bind, EStateM.bind, show isTracingLevel env l st = _ from hbind _]

/-! ## What is printed -/

theorem print_written (d : TraceContext) (args : List Arg) :
    ∃ text, (print d args).written = d.written ++ text := by
  induction args generalizing d with
  | nil => exact ⟨[], (List.append_nil _).symm⟩
  | cons v1 args ih =>
    obtain ⟨text, htext⟩ := ih (d.put v1)
    have hput : ∃ added, (d.put v1).written = d.written ++ added := by
      cases v1 with
      | text s => exact ⟨s, rfl⟩
      | level l => exact ⟨levelTag l, rfl⟩
      | eol => exact ⟨[], (List.append_nil _).symm⟩
      | noEol => exact ⟨[], (List.append_nil _).symm⟩
    obtain ⟨added, hadded⟩ := hput
    refine ⟨added ++ text, ?_⟩
    show (print (d.put v1) args).written = _
    rw [htext, hadded, List.append_assoc]

/-- A printed message begins with the tag of its level. -/
theorem printLineTo_ne_nil (l : Level) (args : List Arg) : printLineTo (.level l :: args) ≠ [] := by
  obtain ⟨text, htext⟩ := print_written ⟨levelTag l, true⟩ args
  have hwritten : (print ⟨[], true⟩ (.level l :: args)).written = levelTag l ++ text := htext
  unfold printLineTo TraceContext.finish
  rw [hwritten]
  have htag : levelTag l ≠ [] := by
    cases l <;> simp [levelTag, ascii]
  split
  next => simp [htag]
  next => simp [htag]

theorem tracing_level (L l : Level) : tracing L.toInt l = decide (L.toInt ≤ l.toInt) := by
  unfold tracing
  rw [if_pos (by cases L <;> decide)]

theorem answer_goesBy (L : Level) (c : Call) : c.GoesBy L (c.answer L.toInt) := by
  cases c with
  | level l => rfl
  | isTracingLevel l => exact congrArg Answer.tracing (tracing_level L l)
  | printLineGe l args =>
    refine ⟨_, rfl, ?_⟩
    rw [tracing_level]
    by_cases hle : L.toInt ≤ l.toInt
    · simp [hle, printLineTo_ne_nil]
    · simp [hle]

/-! ## Runs -/

theorem stateAfter_append (calls : List Call) (c : Call) :
    stateAfter env (calls ++ [c]) = c.after env (stateAfter env calls) := by
  unfold stateAfter
  rw [List.foldl_append]
  rfl

theorem lastLevel_append (calls : List Call) (c : Call) :
    lastLevel (calls ++ [c]) = match c with
      | .level l => some l
      | _ => lastLevel calls := by
  unfold lastLevel
  rw [List.foldl_append]
  rfl

/-- A call that does not set the level leaves an initialised state as it is. -/
theorem after_keeps {n : Int32} {c : Call} (hc : c.current n = n) :
    c.after env ⟨true, n⟩ = ⟨true, n⟩ := by
  have hinit : init env ⟨true, n⟩ = .ok () ⟨true, n⟩ := init_again rfl
  rw [Call.after, run_ok hinit c, hc]

/-- The current level after some calls is the level set last. -/
theorem stateAfter_level (henv : Readable env) (calls : List Call) (L : Level)
    (hlast : lastLevel calls = some L) : stateAfter env calls = ⟨true, L.toInt⟩ := by
  induction calls using List.reverseRecOn generalizing L with
  | nil => exact absurd hlast (by simp [lastLevel])
  | append_singleton calls c ih =>
    rw [stateAfter_append]
    rw [lastLevel_append] at hlast
    cases c with
    | level l =>
      obtain rfl := Option.some.inj hlast
      obtain ⟨n, hinit⟩ := init_ok henv (stateAfter env calls)
      rw [Call.after, run_ok hinit]
      rfl
    | isTracingLevel l =>
      rw [ih L hlast]
      exact after_keeps rfl
    | printLineGe l args =>
      rw [ih L hlast]
      exact after_keeps rfl

/-- **No call throws, and each goes by the level set last**, in a program that calls at
all, exactly when `COR_DEBUG` is unset, empty or begins with an `int`. -/
theorem obeys_iff (env : Option CStr) (calls : List Call) :
    Obeys env calls ↔ calls = [] ∨ Readable env := by
  constructor
  · intro hobeys
    cases calls with
    | nil => exact Or.inl rfl
    | cons c calls =>
      refine Or.inr ?_
      by_contra henv
      obtain ⟨e, hinit⟩ := init_throws henv (show State.start.initialised = false from rfl)
      obtain ⟨a, st', hrun, -⟩ := hobeys [] c calls rfl
      have hthrow : c.run env .start = .error e .start := run_error hinit c
      have hcontra := hthrow.symm.trans hrun
      exact absurd hcontra (by simp)
  · intro h before c after hsplit
    rcases h with rfl | henv
    · exact absurd hsplit (by simp)
    · obtain ⟨n, hinit⟩ := init_ok henv (stateAfter env before)
      refine ⟨_, _, run_ok hinit c, ?_⟩
      intro L hlast
      have hst := stateAfter_level henv before L hlast
      rw [hst, init_again rfl] at hinit
      obtain rfl : L.toInt = n := by
        simpa using hinit
      exact answer_goesBy L c

/-- The test sets the level to `Debug` and logs; with `COR_DEBUG=debug` both calls throw
and nothing is printed. -/
theorem debug_env_throws :
    ¬ Obeys (some (cStr (ascii "debug")))
      [.level .debug, (Log.mkLog (ascii "TestingLevel")).critical [.text (ascii "1")]] ∧
    ∃ e, Call.run (some (cStr (ascii "debug"))) (.level .debug) .start = .error e .start ∧
      ((Log.mkLog (ascii "TestingLevel")).critical [.text (ascii "1")]).run
        (some (cStr (ascii "debug"))) .start = .error e .start := by
  have hlevel : Call.run (some (cStr (ascii "debug"))) (.level .debug) .start =
      .error ⟨.other (ascii "std::invalid_argument"), ascii "stoi"⟩ .start := by rfl
  refine ⟨?_, _, hlevel, by rfl⟩
  intro hobeys
  obtain ⟨a, st', hrun, -⟩ := hobeys [] _ _ rfl
  have hcontra := hlevel.symm.trans hrun
  exact absurd hcontra (by simp)

end Run

end Cor.Debug

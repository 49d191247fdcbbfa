import Mathlib.Data.Int.Bitwise
import Cor.Base.Error

/-!
# `sexp::parse`: the seven rules and the main loop

`parse` is a machine that reads one character at a time. Its `std::function`
variable `rule` holds one of seven closures, a stack `ctx` the rules to return
to, and a rule answers `Skip` (take the next character) or `Stay` (apply the
rule now current to the same character again).

The locals of `parse` are `Machine`; the handler is anything with the six
callbacks, on a state of its own, each of which may throw. A rule runs in
`RuleM`, on both.

Modelling notes:

* a character is a `char`, converted to `int` when it is passed to a rule. The
  two possible signs of `char` are `CharSign`; with a signed `char` the byte
  `0xFF` becomes `-1`, which is also `eos`;
* `level` is the 32-bit `unsigned` of the source and wraps;
* `hex_byte` is indeterminate at first, and `process_hex` writes it before it is
  read;
* `while (rule(c) == Stay) {}` is given four applications (`dispatch`), and
  `Fault.stuck` says they were not enough;
* `src` is a stream over `src` bytes in memory, so `src.tellg()` is the number
  of characters read, and `-1` once `get` has met the end.
-/

namespace Cor.Sexp

/-- Whether plain `char` is signed. -/
inductive CharSign where
  | signed
  | unsigned
deriving DecidableEq, Repr

/-- The `int` a `char` is converted to. -/
def CharSign.toInt : CharSign → UInt8 → Int
  | .signed, b => if b.toNat < 128 then b.toNat else b.toNat - 256
  | .unsigned, b => b.toNat

/-- The `char` an `int` is converted to. -/
def toChar (c : Int) : UInt8 := UInt8.ofInt c

/-- The `int` value of an ASCII character. -/
def ord (c : Char) : Int := c.toNat

def eos : Int := -1

/-- `isspace` in the C locale. -/
def isspace (c : Int) : Bool := c = 32 ∨ 9 ≤ c ∧ c ≤ 13

/-- `char2hex`. -/
def char2hex (c : Int) : Int :=
  if c ≥ ord '0' ∧ c ≤ ord '9' then c - ord '0'
  else if c ≥ ord 'A' ∧ c ≤ ord 'F' then c - ord 'A' + 10
  else if c ≥ ord 'a' ∧ c ≤ ord 'f' then c - ord 'a' + 10
  else -1

/-- The map `assoc` of `append_escaped`. -/
def assoc (c : UInt8) : Option UInt8 :=
  if c = 110 then some 10  -- n
  else if c = 116 then some 9  -- t
  else if c = 114 then some 13  -- r
  else if c = 97 then some 7  -- a
  else if c = 98 then some 8  -- b
  else if c = 118 then some 11  -- v
  else none

/-! ## The handler -/

structure Handler (ε η : Type) where
  onListBegin : EStateM ε η Unit
  onListEnd : EStateM ε η Unit
  onComment : Bytes → EStateM ε η Unit
  onString : Bytes → EStateM ε η Unit
  onAtom : Bytes → EStateM ε η Unit
  onEof : EStateM ε η Unit

/-- `Error(src, info)`, thrown at the position `src.tellg()`. -/
structure Error where
  info : Bytes
  pos : Int
deriving DecidableEq, Repr

/-- How a call of `parse` ends when it does not return. -/
inductive Fault (ε : Type) where
  /-- an exception of the parser -/
  | error (e : Error)
  /-- an exception of the handler -/
  | handler (e : ε)
  /-- `ctx.top()` of an empty stack -/
  | undefined
  /-- the inner loop has not ended -/
  | stuck
deriving DecidableEq, Repr

/-! ## The machine -/

inductive Rule where
  | top
  | inString
  | inAtom
  | inComment
  | inHex
  | appendEscaped
  | appendEscapedHex
deriving DecidableEq, Repr

inductive Action where
  | stay
  | skip
deriving DecidableEq, Repr

/-- The locals of `parse`, and what `src.tellg()` answers. -/
structure Machine where
  rule : Rule
  ctx : List Rule
  level : UInt32
  data : Bytes
  hexByte : Int
  tellg : Int
deriving DecidableEq, Repr

section Rules

variable {ε η : Type}

abbrev RuleM (ε η : Type) := EStateM (Fault ε) (Machine × η)

/-- The locals of `parse` read from the state. -/
def getLocals : RuleM ε η Machine := do
  return (← get).1

def modifyLocals (f : Machine → Machine) : RuleM ε η Unit :=
  modify fun st => (f st.1, st.2)

/-- A call of the handler. -/
def call (x : EStateM ε η Unit) : RuleM ε η Unit := fun (m, s) =>
  match x s with
  | .ok () s' => .ok () (m, s')
  | .error e s' => .error (.handler e) (m, s')

/-- `throw Error(src, info)`. -/
def raise {α : Type} (info : String) : RuleM ε η α := do
  throw (.error ⟨ascii info, (← getLocals).tellg⟩)

def ruleUse (p : Rule) : RuleM ε η Unit :=
  modifyLocals fun m => { m with data := [], rule := p }

def rulePop : RuleM ε η Unit := do
  match (← getLocals).ctx with
  | [] => throw .undefined
  | p :: ctx => modifyLocals fun m => { m with ctx := ctx, rule := p }

def rulePush (after current : Rule) : RuleM ε η Unit :=
  modifyLocals fun m => { m with ctx := after :: m.ctx, rule := current }

/-- `data += c`. -/
def append (c : UInt8) : RuleM ε η Unit :=
  modifyLocals fun m => { m with data := m.data ++ [c] }

variable (h : Handler ε η)

def top (c : Int) : RuleM ε η Action := do
  if c = ord ')' then
    if (← getLocals).level = 0 then
      raise "Unexpected ')'"
    modifyLocals fun m => { m with level := m.level - 1 }
    call h.onListEnd
  else if c = ord '(' then
    modifyLocals fun m => { m with level := m.level + 1 }
    call h.onListBegin
  else if c = ord ';' then
    ruleUse .inComment
  else if isspace c then
    pure ()
  else if c = ord '"' then
    ruleUse .inString
  else if c ≠ eos then
    ruleUse .inAtom
    return .stay
  return .skip

def inComment (c : Int) : RuleM ε η Action := do
  if c ≠ ord '\n' ∧ c ≠ eos then
    append (toChar c)
  else
    call (h.onComment (← getLocals).data)
    ruleUse .top
  return .skip

def inHex (c : Int) : RuleM ε η Action := do
  if c ≠ eos then
    let n := char2hex c
    if n ≥ 0 then
      if (← getLocals).hexByte < 0 then
        modifyLocals fun m => { m with hexByte := n <<< (4 : Nat) }
        return .skip
      modifyLocals fun m => { m with hexByte := Int.lor m.hexByte n }
  rulePop
  return .stay

def appendEscapedHex : RuleM ε η Action := do
  if (← getLocals).hexByte < 0 then
    raise "Escaped hex is empty"
  append (toChar (← getLocals).hexByte)
  rulePop
  return .stay

def processHex (after : Rule) : RuleM ε η Action := do
  modifyLocals fun m => { m with hexByte := -1 }
  rulePush after .inHex
  return .skip

def appendEscaped (c : Int) : RuleM ε η Action := do
  if c = eos then
    raise "Expected escaped symbol, got EOS"
  if c = ord 'x' then
    processHex .appendEscapedHex
  else
    match assoc (toChar c) with
    | some p => append p
    | none => append (toChar c)
    rulePop
    return .skip

def processEscaped : RuleM ε η Action := do
  rulePush (← getLocals).rule .appendEscaped
  return .skip

/-- `bound.find(c) != npos`: the argument of `find` is a `char`. -/
def isBound (c : Int) : Bool := toChar c ∈ ascii "()"

def inAtom (c : Int) : RuleM ε η Action := do
  if isBound c ∨ isspace c ∨ c = eos then
    call (h.onAtom (← getLocals).data)
    ruleUse .top
    return .stay
  else if c = ord '\\' then
    processEscaped
  else
    append (toChar c)
    return .skip

def inString (c : Int) : RuleM ε η Action := do
  if c = ord '"' then
    call (h.onString (← getLocals).data)
    ruleUse .top
    return .skip
  else if c = ord '\\' then
    processEscaped
  else if c = eos then
    raise "string is not limited, got EOS"
  else
    append (toChar c)
    return .skip

/-- `rule(c)`. -/
def applyRule (c : Int) : RuleM ε η Action := do
  match (← getLocals).rule with
  | .top => top h c
  | .inString => inString h c
  | .inAtom => inAtom h c
  | .inComment => inComment h c
  | .inHex => inHex c
  | .appendEscaped => appendEscaped c
  | .appendEscapedHex => appendEscapedHex

/-- `while (rule(c) == Stay) {}`, with at most `n` applications. -/
def dispatch (c : Int) : Nat → RuleM ε η Unit
  | 0 => throw .stuck
  | n + 1 => do
    match ← applyRule h c with
    | .stay => dispatch c n
    | .skip => pure ()

/-- The body of the main loop for a character. -/
def feed (sg : CharSign) (b : UInt8) : RuleM ε η Unit := do
  modifyLocals fun m => { m with tellg := m.tellg + 1 }
  dispatch h (sg.toInt b) 4

/-- The main loop from the characters still to read, and the call after it. -/
def loop (sg : CharSign) : Bytes → RuleM ε η Unit
  | b :: src => do
    feed h sg b
    loop sg src
  | [] => do
    modifyLocals fun m => { m with tellg := -1 }
    let _ ← applyRule h eos
    call h.onEof

/-- The locals when the loop starts. -/
def Machine.start : Machine where
  rule := .top
  ctx := []
  level := 0
  data := []
  hexByte := 0
  tellg := 0

/-- The main loop from the locals `m`, which do not outlive it. -/
def resume (sg : CharSign) (m : Machine) (src : Bytes) : EStateM (Fault ε) η Unit := fun s =>
  match loop h sg src (m, s) with
  | .ok () (_, s') => .ok () s'
  | .error e (_, s') => .error e s'

/-- `parse(src, handler)`. -/
def parse (sg : CharSign) (src : Bytes) : EStateM (Fault ε) η Unit :=
  resume h sg .start src

end Rules

end Cor.Sexp

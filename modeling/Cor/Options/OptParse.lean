import Cor.Base.Error

/-!
# `OptParse<std::string>`: the command line scanner

`parse` walks the arguments once. What persists between two arguments is the
stage (expecting an option, or expecting the parameter of the option seen last),
the unified name of that option and whether the option is to be left among the
parameters.

The outputs `opts` and `params` are passed by reference, so they keep what was
written before an exception; the scanner runs in `EStateM`. A pushed
`char const *` is the string it points to.
-/

namespace Cor.Options

open Std (ExtTreeMap ExtTreeSet)

/-- `map_type`, a `std::map` from names to values. -/
abbrev Map := ExtTreeMap Bytes Bytes

structure OptParse where
  shortOpts : ExtTreeMap UInt8 Bytes
  longOpts : Map
  optWithParams : ExtTreeSet Bytes
  leaveInParams : ExtTreeSet Bytes

/-- The constructor. A `std::map` made from a list keeps the first of two items
with one key. -/
def OptParse.mkOptParse (short_opts : List (UInt8 × Bytes)) (long_opts : List (Bytes × Bytes))
    (opt_with_params leave_in_params : List Bytes) : OptParse where
  shortOpts := short_opts.foldl (fun m p => m.insertIfNew p.1 p.2) ∅
  longOpts := long_opts.foldl (fun m p => m.insertIfNew p.1 p.2) ∅
  optWithParams := opt_with_params.foldl (fun t n => t.insert n) ∅
  leaveInParams := leave_in_params.foldl (fun t n => t.insert n) ∅

inductive Stage where
  | option
  | optParam
deriving DecidableEq, Repr

/-- The outputs and the locals of `parse`. -/
structure State where
  opts : Map
  params : List CStr
  stage : Stage
  name : Bytes
  isLeaveParam : Bool

abbrev ParseM := EStateM Exn State

/-- `params.push_back(s)`. -/
def pushBack (s : CStr) : ParseM Unit :=
  modify fun st => { st with params := st.params ++ [s] }

/-- `opts[name] = ""`. -/
def setFlag (name : Bytes) : ParseM Unit :=
  modify fun st => { st with opts := st.opts.insert name [] }

/-- The map after `update_opt(name, value)`. -/
def updated (opts : Map) (name value : Bytes) : Map :=
  match opts[name]? with
  | none => opts.insert name value
  | some opt => opts.insert name (opt ++ ascii "," ++ value)

def updateOpt (name value : Bytes) : ParseM Unit :=
  modify fun st => { st with opts := updated st.opts name value }

def setStage (stage : Stage) : ParseM Unit :=
  modify fun st => { st with stage := stage }

/-- `name = …` and `is_leave_param = (leave_in_params_.count(name) != 0)`. -/
def setName (name : Bytes) (leave : Bool) : ParseM Unit :=
  modify fun st => { st with name := name, isLeaveParam := leave }

section Scan

variable (p : OptParse)

def parseShort (s : CStr) (len : Nat) : ParseM Unit :=
  match p.shortOpts[s.get 1]? with
  | none => pushBack s
  | some name => do
    let leave := p.leaveInParams.contains name
    setName name leave
    if leave then pushBack s
    if !p.optWithParams.contains name then
      setFlag name
    else if len > 2 then
      updateOpt name (s.drop 2).bytes
      if leave then pushBack (s.drop 2)
    else
      setStage .optParam

/-- The text of the error for `--name=…` when the option takes no parameter. -/
def unexpectedParam (name : Bytes) (peq : CStr) : Exn :=
  -- `name.c_str()` ends at the first NUL
  corErrorFmt (ascii "option %s, unexpected param %s")
    (ascii "option " ++ name.takeWhile (· != 0) ++ ascii ", unexpected param " ++ peq.bytes)

def parseLong (s : CStr) : ParseM Unit := do
  let pname := s.drop 2
  let peq := pname.strchr 0x3d
  let key := match peq with
    | some q => pname.bytes.take (pname.len - q.len)
    | none => pname.bytes
  modify fun st => { st with name := key }
  match p.longOpts[key]? with
  | none => pushBack s
  | some name =>
    let leave := p.leaveInParams.contains name
    setName name leave
    if leave then pushBack s
    if !p.optWithParams.contains name then
      match peq with
      | some q => throw (unexpectedParam name q)
      | none => setFlag name
    else
      match peq with
      | some q => updateOpt name (q.drop 1).bytes
      | none => setStage .optParam

def parseOptParam (s : CStr) (len : Nat) : ParseM Unit := do
  if 1 ≤ len ∧ s.get 0 = 0x2d then
    throw ⟨.other (ascii "std::logic_error"), s.bytes⟩
  updateOpt (← get).name s.bytes
  if (← get).isLeaveParam then pushBack s
  setStage .option

def parseOption (s : CStr) (len : Nat) : ParseM Unit :=
  if s.get 0 = 0x2d then
    if len > 2 ∧ s.get 1 = 0x2d then parseLong p s else parseShort p s len
  else pushBack s

def process (v : CStr) : ParseM Unit := do
  let len := v.len
  if len = 0 then
    return
  match (← get).stage with
  | .option => parseOption p v len
  | .optParam => parseOptParam v len

/-- `std::for_each(argv, argv + argc, process)`. -/
def forEach : List CStr → ParseM Unit
  | [] => pure ()
  | v :: argv => do
    process p v
    forEach argv

/-- `parse(argc, argv, opts, params)`: its exception or its return value, with
the outputs it leaves. -/
def OptParse.parse (argv : List CStr) (opts : Map) (params : List CStr) :
    Except Exn Int32 × Map × List CStr :=
  match (forEach p argv).run ⟨opts, params, .option, [], false⟩ with
  | .ok () st => (.ok 0, st.opts, st.params)
  | .error e st => (.error e, st.opts, st.params)

end Scan

end Cor.Options

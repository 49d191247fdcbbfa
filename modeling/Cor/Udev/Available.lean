import Cor.Lib.Emit
import Cor.Udev.Keyboard

/-!
# `is_keyboard_available`

`Root`, `Enumerate` and `Device` each hold a reference that libudev counts, in a
`unique_ptr` whose deleter drops it, unless libudev answered null. `is_keyboard_available`
goes through the input devices with `find` until one is a keyboard; `is_keyboard` may throw,
and then the scopes are left by the exception.

`Spent` says that what is taken is given back, in reverse order. A scope keeps it whatever
its body does (`guarded_spent`), so the whole search does (`available_spent`), and
`available_spec` is the answer together with the devices that were opened for it.
-/

namespace Cor.Udev

open Cor.Lib
open Cor.Split (StdString)

/-- What libudev answers. -/
structure Libudev where
  /-- Whether `udev_new` and `udev_enumerate_new` succeed. -/
  root : Bool
  enumerate : Bool
  /-- The paths in the list after a scan for a subsystem. -/
  list : Bytes → List Bytes
  /-- A device by its path, null if there is none, and its attribute `capabilities/key`. -/
  device : Bytes → Option (Option StdString)

/-- A reference. -/
inductive Ref where
  | udev
  | enumerate
  | device (path : Bytes)
deriving DecidableEq

/-- The calls of libudev: what takes a reference, what drops it, and the two on the
enumeration. -/
inductive Call where
  | new (r : Ref)
  | unref (r : Ref)
  | addMatchSubsystem (name : Bytes)
  | scanDevices
deriving DecidableEq

/-- Code that calls libudev, and throws or returns. -/
abbrev Code := Emit Call Fault

section

variable {α : Type}

/-- The scope of an object that holds `r`, or null. Its destructor runs however the scope is
left. -/
def guarded (held : Bool) (r : Ref) (body : Code α) : Code α :=
  if held then ⟨.new r :: (body.events ++ [.unref r]), body.result⟩ else body

/-- Code that does not call libudev. -/
def plain (x : Except Fault α) : Code α := ⟨[], x⟩

end

section

variable (lib : Libudev)

/-- `is_keyboard(d)`, where `d` is the device at `path`. A null device has no attributes. -/
def isKeyboardAt (path : Bytes) : Except Fault Bool := isKeyboard ((lib.device path).bind id)

/-- `devs.find(find_kbd)` and what it leaves in `is_kbd_found`. -/
def findKbd : List Bytes → Bool → Code Bool
  | [], is_kbd_found => pure is_kbd_found
  | path :: entries, _ => do
    let is_kbd_found ←
      guarded (lib.device path).isSome (.device path) (plain (isKeyboardAt lib path))
    if is_kbd_found then pure is_kbd_found else findKbd entries is_kbd_found

def isKeyboardAvailable : Code Bool :=
  guarded lib.root .udev
    (if !lib.root then pure false
    else guarded lib.enumerate .enumerate
      (if !lib.enumerate then pure false
      else do
        Emit.event (.addMatchSubsystem (ascii "input"))
        Emit.event .scanDevices
        findKbd lib (lib.list (ascii "input")) false))

end

/-! ## References -/

/-- The references held after some calls; `none` if one was dropped that is not the last
one taken. -/
def hold : List Ref → List Call → Option (List Ref)
  | held, [] => some held
  | held, .new r :: calls => hold (r :: held) calls
  | [], .unref _ :: _ => none
  | r' :: held, .unref r :: calls => if r = r' then hold held calls else none
  | held, .addMatchSubsystem _ :: calls => hold held calls
  | held, .scanDevices :: calls => hold held calls

/-- What the calls take they give back. -/
def Spent (calls : List Call) : Prop := ∀ held, hold held calls = some held

theorem hold_append : ∀ (calls more : List Call) (held : List Ref),
    hold held (calls ++ more) = (hold held calls).bind fun held' => hold held' more
  | [], _, _ => rfl
  | .new r :: calls, more, held => hold_append calls more (r :: held)
  | .unref r :: calls, more, [] => rfl
  | .unref r :: calls, more, r' :: held => by
    show (if r = r' then hold held (calls ++ more) else none) =
      (if r = r' then hold held calls else none).bind _
    split
    · exact hold_append calls more held
    · rfl
  | .addMatchSubsystem _ :: calls, more, held => by
    have ih := hold_append calls more held
    cases held <;> exact ih
  | .scanDevices :: calls, more, held => by
    have ih := hold_append calls more held
    cases held <;> exact ih

theorem Spent.nil : Spent [] := fun held => by
  cases held <;> rfl

theorem Spent.append {calls more : List Call} (h : Spent calls) (h' : Spent more) :
    Spent (calls ++ more) := by
  intro held
  rw [hold_append, h held]
  exact h' held

theorem Spent.one {c : Call} (h : ∀ r, c ≠ .new r ∧ c ≠ .unref r) : Spent [c] := by
  intro held
  cases c with
  | new r => exact absurd rfl (h r).1
  | unref r => exact absurd rfl (h r).2
  | addMatchSubsystem name => cases held <;> rfl
  | scanDevices => cases held <;> rfl

section

variable {α β : Type}

theorem guarded_spent (held : Bool) (r : Ref) {body : Code α} (h : Spent body.events) :
    Spent (guarded held r body).events := by
  unfold guarded
  cases held with
  | false => exact h
  | true =>
    intro held
    have hbody := h (r :: held)
    have hnew : hold held (.new r :: (body.events ++ [.unref r])) =
        hold (r :: held) (body.events ++ [.unref r]) := by
      cases held <;> rfl
    show hold held (.new r :: (body.events ++ [.unref r])) = some held
    rw [hnew, hold_append, hbody]
    show (if r = r then hold held [] else none) = some held
    rw [if_pos rfl]
    exact Spent.nil held

theorem bind_spent {x : Code α} {f : α → Code β} (hx : Spent x.events)
    (hf : ∀ a, Spent (f a).events) : Spent (x >>= f).events := by
  cases hres : x.result with
  | ok a =>
    rw [Emit.bind_ok hres]
    exact hx.append (hf a)
  | error e =>
    rw [Emit.bind_error hres]
    exact hx

end

section

variable (lib : Libudev)

theorem findKbd_spent : ∀ (entries : List Bytes) (found : Bool),
    Spent (findKbd lib entries found).events
  | [], _ => .nil
  | path :: entries, found => by
    refine bind_spent (guarded_spent _ _ .nil) fun a => ?_
    cases a with
    | true => exact .nil
    | false => exact findKbd_spent entries false

theorem available_spent : Spent (isKeyboardAvailable lib).events := by
  refine guarded_spent _ _ ?_
  split
  · exact .nil
  refine guarded_spent _ _ ?_
  split
  · exact .nil
  refine bind_spent (.one fun r => ⟨(nomatch ·), (nomatch ·)⟩) fun _ => ?_
  refine bind_spent (.one fun r => ⟨(nomatch ·), (nomatch ·)⟩) fun _ => ?_
  exact findKbd_spent lib _ _

end

/-! ## The answer -/

/-- The device that a call opens. -/
def Call.opensDevice : Call → Option Bytes
  | .new (.device path) => some path
  | _ => none

/-- The answer for the first of these devices. -/
def answerAt (lib : Libudev) : List Bytes → Except Fault Bool
  | [] => .ok false
  | path :: _ => isKeyboardAt lib path

/-- The search through `entries`: the devices of `pre` are no keyboards, and `rest` is empty
or begins with one that is, or that `is_keyboard` throws at. -/
structure Searched (lib : Libudev) (entries pre rest : List Bytes) (x : Code Bool) : Prop where
  split : entries = pre ++ rest
  before : ∀ path ∈ pre, isKeyboardAt lib path = .ok false
  decides : rest ≠ [] → answerAt lib rest ≠ .ok false
  result : x.result = answerAt lib rest
  opened : x.events.filterMap Call.opensDevice =
    (pre ++ rest.take 1).filter fun path => (lib.device path).isSome

section

variable {lib : Libudev}

theorem guarded_result {α : Type} (held : Bool) (r : Ref) (body : Code α) :
    (guarded held r body).result = body.result := by
  unfold guarded
  cases held <;> rfl

theorem guarded_opened {α : Type} (path : Bytes) (x : Except Fault α) :
    (guarded (lib.device path).isSome (.device path) (plain x)).events.filterMap Call.opensDevice =
      [path].filter fun path => (lib.device path).isSome := by
  unfold guarded
  cases hd : lib.device path with
  | none => simp [hd, plain]
  | some a => simp [hd, plain, Call.opensDevice]

theorem findKbd_searched : ∀ entries : List Bytes, ∃ pre rest,
    Searched lib entries pre rest (findKbd lib entries false)
  | [] => ⟨[], [], rfl, fun _ h => absurd h List.not_mem_nil, fun h => absurd rfl h, rfl, rfl⟩
  | path :: entries => by
    have hres := guarded_result (lib.device path).isSome (.device path)
      (plain (isKeyboardAt lib path))
    have hopened := @guarded_opened lib _ path (isKeyboardAt lib path)
    change (guarded _ _ _).result = isKeyboardAt lib path at hres
    -- the search ends here
    have hends : isKeyboardAt lib path ≠ .ok false → ∀ x : Code Bool,
        x.result = isKeyboardAt lib path →
        x.events = (guarded (lib.device path).isSome (.device path)
          (plain (isKeyboardAt lib path))).events →
        ∃ pre rest, Searched lib (path :: entries) pre rest x := by
      intro hne x hx hevents
      refine ⟨[], path :: entries, rfl, fun _ h => absurd h List.not_mem_nil, fun _ => hne, hx, ?_⟩
      rw [hevents]
      exact hopened
    unfold findKbd
    cases hkbd : isKeyboardAt lib path with
    | error e =>
      rw [hkbd] at hres hends
      rw [Emit.bind_error hres]
      exact hends (fun h => nomatch h) _ rfl rfl
    | ok a =>
      rw [hkbd] at hres hopened hends
      rw [Emit.bind_ok hres]
      cases a with
      | true => exact hends (fun h => nomatch h) _ rfl (List.append_nil _)
      | false =>
        obtain ⟨pre, rest, hsplit, hbefore, hdecides, hresult, hrest⟩ := findKbd_searched entries
        refine ⟨path :: pre, rest, by rw [hsplit]; rfl, ?_, hdecides, hresult, ?_⟩
        · intro p hp
          rcases List.mem_cons.mp hp with rfl | hp
          · exact hkbd
          · exact hbefore p hp
        · show List.filterMap _ (_ ++ (findKbd lib entries false).events) = _
          rw [List.filterMap_append, hopened, hrest, ← List.filter_append]
          rfl

/-- **Whether a keyboard is available.** Whatever libudev answers: every reference that is
taken is dropped, the last one first, also when `is_keyboard` throws. Without a context or
an enumeration the answer is `false` and no device is opened. With them the input devices
are looked at in order up to the first one that is a keyboard or at which `is_keyboard`
throws; its answer or its exception is the result, `false` if there is none, and of the
devices those before it and it itself are opened, as far as they exist, and no others. -/
theorem available_spec (lib : Libudev) :
    Spent (isKeyboardAvailable lib).events ∧
    ((lib.root && lib.enumerate) = false → (isKeyboardAvailable lib).result = .ok false ∧
      (isKeyboardAvailable lib).events.filterMap Call.opensDevice = []) ∧
    ((lib.root && lib.enumerate) = true → ∃ pre rest,
      Searched lib (lib.list (ascii "input")) pre rest (isKeyboardAvailable lib)) := by
  refine ⟨available_spent lib, ?_, ?_⟩
  · intro hnone
    unfold isKeyboardAvailable guarded
    cases hr : lib.root with
    | false => exact ⟨rfl, rfl⟩
    | true =>
      rw [hr, Bool.true_and] at hnone
      rw [hnone]
      exact ⟨rfl, rfl⟩
  · intro hboth
    obtain ⟨hr, he⟩ := Bool.and_eq_true_iff.mp hboth
    obtain ⟨pre, rest, hsplit, hbefore, hdecides, hresult, hopened⟩ :=
      @findKbd_searched lib (lib.list (ascii "input"))
    have hcode : isKeyboardAvailable lib = guarded true .udev (guarded true .enumerate
        ((findKbd lib (lib.list (ascii "input")) false).after
          [.addMatchSubsystem (ascii "input"), .scanDevices])) := by
      unfold isKeyboardAvailable
      rw [hr, he]
      rfl
    rw [hcode]
    refine ⟨pre, rest, hsplit, hbefore, hdecides, hresult, ?_⟩
    rw [← hopened]
    show List.filterMap Call.opensDevice
      ((([.addMatchSubsystem (ascii "input"), .scanDevices] ++
        (findKbd lib (lib.list (ascii "input")) false).events) ++ [.unref .enumerate]) ++
          [.unref .udev]) = _
    rw [List.filterMap_append, List.filterMap_append, List.filterMap_append]
    show [] ++ _ ++ [] ++ [] = _
    rw [List.append_nil, List.append_nil, List.nil_append]

end

/-- Two paths in the list, of which only the second one is a device, and a keyboard. -/
def oneKeyboard : Libudev where
  root := true
  enumerate := true
  list := fun _ => [ascii "/sys/a", ascii "/sys/b"]
  device := fun path =>
    if path = ascii "/sys/b" then some (some ⟨ascii "0 0 3ff0000", by decide⟩) else none

theorem available_spec_demo : Spent (isKeyboardAvailable oneKeyboard).events ∧
    (isKeyboardAvailable oneKeyboard).result = .ok true ∧ ∃ pre rest,
      Searched oneKeyboard [ascii "/sys/a", ascii "/sys/b"] pre rest
        (isKeyboardAvailable oneKeyboard) :=
  ⟨(available_spec oneKeyboard).1, by decide +kernel, (available_spec oneKeyboard).2.2 rfl⟩

end Cor.Udev

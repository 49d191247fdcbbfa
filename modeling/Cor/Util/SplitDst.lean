import Mathlib.Data.List.Basic
import Cor.Util.Split

/-!
# `split` through any output iterator

`split` assigns each part to `*dst` and never increments `dst`. What comes of that
depends on the iterator: an inserter moves with the assignment and its `++` does
nothing, a plain iterator into a container stays where it is until it is
incremented. So through an inserter all parts are written (`inserter_writes`), and
through a plain iterator each part is written over the one before it
(`plain_writes_last`).

The view of an iterator is the sequence of elements that were written through it,
in the order of the container. The standard requirement, with room for one more
element, is that `*dst++ = v` adds `v` to that sequence.
-/

namespace Cor.Split

/-- An output iterator with its increment, and what is read back from the place it
writes to: `room out n` says that `n` more elements may be written. -/
structure Destination (σ : Type) extends OutputIterator σ where
  /-- `++dst` -/
  next : σ → σ
  elements : σ → List Bytes
  room : σ → Nat → Prop

namespace Destination

variable {σ : Type}

/-- The standard requirements: `*dst++ = v` adds `v` to what was written. -/
def Standard (dst : Destination σ) : Prop :=
  ∀ out v n, dst.room out (n + 1) →
    dst.elements (dst.next (dst.assign v out)) = dst.elements out ++ [v] ∧
      dst.room (dst.next (dst.assign v out)) n

/-- An inserter: the assignment moves it, `++dst` returns `dst` as it is. -/
def Inserter (dst : Destination σ) : Prop := ∀ out, dst.next out = out

/-- A plain iterator: until `++dst` an assignment replaces the one before it, and `++dst`
itself writes nothing. -/
def PlainIterator (dst : Destination σ) : Prop :=
  (∀ out v w, dst.assign w (dst.assign v out) = dst.assign w out) ∧
    ∀ out, dst.elements (dst.next out) = dst.elements out

/-- `*dst++ = part` for each part, the way `std::copy` writes. -/
def copyParts (dst : Destination σ) (parts : List Bytes) (out : σ) : σ :=
  parts.foldl (fun out part => dst.next (dst.assign part out)) out

theorem copyParts_elements {dst : Destination σ} (h : dst.Standard) (parts : List Bytes) :
    ∀ out, dst.room out parts.length →
      dst.elements (dst.copyParts parts out) = dst.elements out ++ parts := by
  induction parts with
  | nil =>
    intro out _
    exact (List.append_nil _).symm
  | cons part parts ih =>
    intro out hroom
    obtain ⟨hpart, hrest⟩ := h out part parts.length hroom
    show dst.elements (dst.copyParts parts (dst.next (dst.assign part out))) = _
    rw [ih _ hrest, hpart, List.append_assoc]
    rfl

/-- An inserter does not miss the increment. -/
theorem foldl_assign_of_inserter {dst : Destination σ} (h : dst.Inserter) (parts : List Bytes)
    (out : σ) :
    parts.foldl (fun out part => dst.assign part out) out = dst.copyParts parts out := by
  unfold copyParts
  congr 1
  funext out part
  exact (h _).symm

/-- Without the increment only the last assignment is left. -/
theorem foldl_assign_of_plain {dst : Destination σ} (h : dst.PlainIterator) (parts : List Bytes)
    (last : Bytes) (out : σ) :
    (parts ++ [last]).foldl (fun out part => dst.assign part out) out = dst.assign last out := by
  induction parts generalizing out with
  | nil => rfl
  | cons part parts ih =>
    rw [List.cons_append, List.foldl_cons, ih, h.1]

end Destination

section Writes

variable {σ : Type} {dst : Destination σ} {src : StdString} {symbols : Bytes} {out : σ}

/-- What `split` writes through a `back_inserter`. -/
def backInserted (src : StdString) (symbols : Bytes) : Except Exn (List Bytes) :=
  split src symbols backInserter []

theorem backInserted_eq : backInserted src symbols = .ok (src.bytes.splitOnP symbols.contains) := by
  unfold backInserted
  rw [split_eq, backInserter_foldl, List.nil_append]

/-- The container has room for every part. -/
def HasRoom (dst : Destination σ) (src : StdString) (symbols : Bytes) (out : σ) : Prop :=
  ∀ parts, backInserted src symbols = .ok parts → dst.room out parts.length

/-- The elements written through `dst` are the parts written through a `back_inserter`, in
the same order. -/
def WritesParts (dst : Destination σ) (src : StdString) (symbols : Bytes) (out : σ) : Prop :=
  ∃ parts out', backInserted src symbols = .ok parts ∧
    split src symbols dst.toOutputIterator out = .ok out' ∧
    dst.elements out' = dst.elements out ++ parts

/-- Through an inserter all parts are written. -/
theorem inserter_writes (hstd : dst.Standard) (hins : dst.Inserter)
    (hroom : HasRoom dst src symbols out) : WritesParts dst src symbols out := by
  refine ⟨_, _, backInserted_eq, split_eq out, ?_⟩
  rw [Destination.foldl_assign_of_inserter hins]
  exact Destination.copyParts_elements hstd _ out (hroom _ backInserted_eq)

/-- Through a plain iterator `split` writes the last part and nothing else. -/
theorem plain_writes_last (hstd : dst.Standard) (hplain : dst.PlainIterator)
    (hroom : HasRoom dst src symbols out) :
    ∃ parts last out', src.bytes.splitOnP symbols.contains = parts ++ [last] ∧
      split src symbols dst.toOutputIterator out = .ok out' ∧
      dst.elements out' = dst.elements out ++ [last] := by
  obtain ⟨parts, last, hparts⟩ := List.eq_nil_or_concat'
    (src.bytes.splitOnP symbols.contains) |>.resolve_left (List.splitOnP_ne_nil _ _)
  -- every part is written to the same place, so there is room for the last one
  have hmore := hroom _ backInserted_eq
  rw [hparts, List.length_append, List.length_singleton] at hmore
  refine ⟨parts, last, dst.assign last out, hparts, ?_, ?_⟩
  · rw [split_eq, hparts, Destination.foldl_assign_of_plain hplain]
  · rw [← hplain.2]
    exact (hstd out last parts.length hmore).1

/-- One part is written exactly when no separator occurs. -/
theorem splitOnP_length_eq_one :
    (src.bytes.splitOnP symbols.contains).length = 1 ↔ ∀ b ∈ src.bytes, b ∉ symbols := by
  rw [splitOnP_length, Nat.add_eq_right, List.countP_eq_zero]
  simp only [List.contains_iff_mem]

/-- **What `split` writes through an output iterator.** With room for the parts, they are all
written exactly when the iterator is an inserter or the string has no separator in it. -/
theorem split_writesParts_iff (src : StdString) (symbols : Bytes) (dst : Destination σ) (out : σ)
    (hstd : dst.Standard) (hkind : dst.Inserter ∨ dst.PlainIterator)
    (hroom : HasRoom dst src symbols out) :
    WritesParts dst src symbols out ↔ dst.Inserter ∨ ∀ b ∈ src.bytes, b ∉ symbols := by
  constructor
  · intro hwrites
    rcases hkind with hins | hplain
    · exact .inl hins
    · obtain ⟨parts, out', hback, hsplit, helements⟩ := hwrites
      obtain ⟨init, last, out'', hparts, hsplit', helements'⟩ :=
        plain_writes_last hstd hplain hroom
      rw [backInserted_eq, Except.ok.injEq] at hback
      rw [hsplit, Except.ok.injEq] at hsplit'
      subst hsplit'
      -- all the parts would have to be the last one
      rw [helements, List.append_right_inj, ← hback] at helements'
      right
      rw [← splitOnP_length_eq_one, helements']
      rfl
  · intro hcond
    rcases hkind with hins | hplain
    · exact inserter_writes hstd hins hroom
    · rcases hcond with hins | hno
      · exact inserter_writes hstd hins hroom
      · obtain ⟨init, last, out', hparts, hsplit, helements⟩ :=
          plain_writes_last hstd hplain hroom
        have hone := splitOnP_length_eq_one.mpr hno
        rw [hparts, List.length_append, List.length_singleton, Nat.add_eq_right,
          List.length_eq_zero_iff] at hone
        refine ⟨_, out', backInserted_eq, hsplit, ?_⟩
        rw [helements, hparts, hone]
        rfl

end Writes

/-! ## The iterators of the standard library -/

/-- `std::back_insert_iterator`, whose `++` does nothing. -/
def backInsertIterator : Destination (List Bytes) where
  toOutputIterator := backInserter
  next out := out
  elements out := out
  room _ _ := True

theorem backInsertIterator_standard : backInsertIterator.Standard := by
  intro out v n _
  exact ⟨rfl, trivial⟩

/-- The iterator the tests and the callers use. -/
theorem backInsertIterator_writes (src : StdString) (symbols : Bytes) (out : List Bytes) :
    WritesParts backInsertIterator src symbols out :=
  inserter_writes backInsertIterator_standard (fun _ => rfl) (fun _ _ => trivial)

/-- `vector.begin() + pos` in a vector of fixed size. A cell is `none` as long as nothing was
written to it, whatever it holds. -/
structure VectorIterator where
  cells : List (Option Bytes)
  pos : Nat
deriving DecidableEq

/-- `std::vector<std::string>::iterator`. -/
def vectorIterator : Destination VectorIterator where
  assign v out := { out with cells := out.cells.set out.pos (some v) }
  next out := { out with pos := out.pos + 1 }
  elements out := out.cells.filterMap id
  room out n := ∃ before m, out.cells = before ++ List.replicate (n + m) none ∧
    before.length = out.pos

theorem vectorIterator_standard : vectorIterator.Standard := by
  rintro ⟨cells, pos⟩ v n ⟨before, m, hcells, hpos⟩
  obtain rfl : cells = before ++ List.replicate (n + 1 + m) none := hcells
  obtain rfl : before.length = pos := hpos
  have hset : (before ++ List.replicate (n + 1 + m) none).set before.length (some v) =
      (before ++ [some v]) ++ List.replicate (n + m) none := by
    rw [List.set_append_right _ _ (Nat.le_refl _), Nat.sub_self, Nat.add_right_comm,
      List.replicate_succ, List.set_cons_zero, List.append_assoc]
    rfl
  constructor
  · show ((before ++ List.replicate (n + 1 + m) none).set before.length (some v)).filterMap id =
      (before ++ List.replicate (n + 1 + m) none).filterMap id ++ [v]
    rw [hset]
    simp
  · exact ⟨before ++ [some v], m, hset, by simp [vectorIterator]⟩

theorem vectorIterator_plain : vectorIterator.PlainIterator := by
  constructor
  · intro out v w
    show VectorIterator.mk ((out.cells.set out.pos (some v)).set out.pos (some w)) out.pos = _
    rw [List.set_set]
    rfl
  · intro out
    rfl

/-- A fresh vector of `n` strings has room for `n` parts. -/
theorem vectorIterator_hasRoom {src : StdString} {symbols : Bytes} (n : Nat)
    (h : (src.bytes.splitOnP symbols.contains).length ≤ n) :
    HasRoom vectorIterator src symbols ⟨List.replicate n none, 0⟩ := by
  intro parts hparts
  obtain rfl := Except.ok.inj (backInserted_eq.symm.trans hparts)
  refine ⟨[], n - (src.bytes.splitOnP symbols.contains).length, ?_, rfl⟩
  rw [Nat.add_sub_cancel' h]
  rfl

theorem split_writesParts_demo :
    WritesParts vectorIterator ⟨ascii "ab", by decide⟩ (ascii ".") ⟨[none, none], 0⟩ ↔
      vectorIterator.Inserter ∨ ∀ b ∈ ascii "ab", b ∉ ascii "." :=
  split_writesParts_iff ⟨ascii "ab", by decide⟩ (ascii ".") vectorIterator ⟨[none, none], 0⟩
    vectorIterator_standard (.inr vectorIterator_plain)
    (vectorIterator_hasRoom 2
      (show ((ascii "ab").splitOnP (ascii ".").contains).length ≤ 2 by decide))

/-- Through `begin()` of a vector of two strings the parts of `a.b` come out as `b` alone. -/
theorem split_vector_loses_parts :
    vectorIterator.Standard ∧
    HasRoom vectorIterator ⟨ascii "a.b", by decide⟩ (ascii ".") ⟨[none, none], 0⟩ ∧
    backInserted ⟨ascii "a.b", by decide⟩ (ascii ".") = .ok [ascii "a", ascii "b"] ∧
    split ⟨ascii "a.b", by decide⟩ (ascii ".") vectorIterator.toOutputIterator
      ⟨[none, none], 0⟩ = .ok ⟨[some (ascii "b"), none], 0⟩ ∧
    ¬ WritesParts vectorIterator ⟨ascii "a.b", by decide⟩ (ascii ".") ⟨[none, none], 0⟩ := by
  have hback : backInserted ⟨ascii "a.b", by decide⟩ (ascii ".") = .ok [ascii "a", ascii "b"] := by
    rw [backInserted_eq]
    rfl
  have hsplit : split ⟨ascii "a.b", by decide⟩ (ascii ".") vectorIterator.toOutputIterator
      ⟨[none, none], 0⟩ = .ok ⟨[some (ascii "b"), none], 0⟩ := by
    rw [split_eq]
    rfl
  have hparts : ((ascii "a.b").splitOnP (ascii ".").contains).length ≤ 2 := by decide
  refine ⟨vectorIterator_standard, vectorIterator_hasRoom 2 hparts, hback, hsplit, ?_⟩
  rintro ⟨parts, out, hparts, hout, helements⟩
  obtain rfl := Except.ok.inj (hback.symm.trans hparts)
  obtain rfl := Except.ok.inj (hsplit.symm.trans hout)
  exact absurd (congrArg List.length helements) (by decide)

end Cor.Split

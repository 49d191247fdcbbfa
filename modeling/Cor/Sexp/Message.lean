import Cor.Notlisp.Print
import Cor.Sexp.Positions

/-!
# The text of a parser error

`mk_sexp_err_msg` writes what `src.tellg()` answers and the reason behind each other.
An integer in decimal has no colon in it, so the text can be taken apart again: two
errors with the same text were thrown at the same position for the same reason
(`what_injective`).
-/

namespace Cor.Sexp

open Notlisp (Denotes denotes_decimal)

/-- `concat(s, args...)`: what the stream holds when all of them are written. -/
def concatTo (s : Bytes) : List Bytes → Bytes
  | [] => s
  | head :: tail => concatTo (s ++ head) tail

/-- `concat(head, tail...)`. -/
def concat (head : Bytes) (tail : List Bytes) : Bytes := concatTo head tail

theorem concatTo_eq (s : Bytes) (args : List Bytes) : concatTo s args = s ++ args.flatten := by
  induction args generalizing s with
  | nil => exact (List.append_nil s).symm
  | cons head tail ih =>
    rw [concatTo, ih, List.flatten_cons, List.append_assoc]

/-- `mk_sexp_err_msg(src, info)`. Without arguments `mk_error_message(info)` is `info`. -/
def mkSexpErrMsg (tellg : Int) (info : Bytes) : Bytes :=
  concat (ascii "error parsing S-exp, pos ") [ascii (toString tellg), ascii ": ", info]

/-- `what()`. -/
def Error.what (e : Error) : Bytes := mkSexpErrMsg e.pos e.info

theorem mkSexpErrMsg_eq (tellg : Int) (info : Bytes) : mkSexpErrMsg tellg info =
    ascii "error parsing S-exp, pos " ++ (ascii (toString tellg) ++ 0x3a :: 0x20 :: info) := by
  rw [mkSexpErrMsg, concat, concatTo_eq]
  simp [ascii]

theorem colon_notMem (z : Int) : (0x3a : UInt8) ∉ ascii (toString z) := by
  intro hmem
  have hcolon := (denotes_decimal z).bytes 0x3a hmem
  revert hcolon
  decide

/-- A text is cut at its first `c` in one way. -/
theorem append_colon_inj {xs xs' ys ys' : Bytes} {c : UInt8} (hxs : c ∉ xs) (hxs' : c ∉ xs')
    (h : xs ++ c :: ys = xs' ++ c :: ys') : xs = xs' ∧ ys = ys' := by
  induction xs generalizing xs' with
  | nil =>
    cases xs' with
    | nil => exact ⟨rfl, (List.cons.inj h).2⟩
    | cons b xs' => exact absurd ((List.cons.inj h).1 ▸ List.mem_cons_self) hxs'
  | cons a xs ih =>
    cases xs' with
    | nil => exact absurd ((List.cons.inj h).1 ▸ List.mem_cons_self) hxs
    | cons b xs' =>
      obtain ⟨rfl, htail⟩ := List.cons.inj h
      obtain ⟨rfl, hys⟩ := ih (fun hc => hxs (List.mem_cons_of_mem _ hc))
        (fun hc => hxs' (List.mem_cons_of_mem _ hc)) htail
      exact ⟨rfl, hys⟩

/-- **The text of an error says where and why it was thrown.** -/
theorem what_injective {e e' : Error} (h : e.what = e'.what) : e = e' := by
  unfold Error.what at h
  rw [mkSexpErrMsg_eq, mkSexpErrMsg_eq] at h
  obtain ⟨hpos, hinfo⟩ := append_colon_inj (colon_notMem e.pos) (colon_notMem e'.pos)
    (List.append_cancel_left h)
  have hden := denotes_decimal e.pos
  rw [hpos] at hden
  cases e with
  | mk info pos =>
    cases e' with
    | mk info' pos' =>
      have hsame : pos = pos' := hden.unique (denotes_decimal pos')
      have htext : info = info' := (List.cons.inj hinfo).2
      rw [hsame, htext]

end Cor.Sexp

import Mathlib.Data.List.Infix
import Cor.Base.Error

/-!
# `mk_error_message`

The buffer starts at twice the length of the format and doubles as long as it is
shorter than 64 KiB and the text does not fit. The size that is tried last is
therefore anywhere from 32 KiB on, and a format of 32 KiB or more leaves none to try.
When the last attempt fails the loop doubles the buffer once more and ends, so what
is returned is not the text nor the part of it that was written but the whole buffer:
the part, the terminator and the zeros it was enlarged by.
-/

namespace Cor.ErrorMessage

/-- The size tried last in a loop that begins with `size`; 0 when there is none. -/
def lastSize (size : Nat) : Nat :=
  if _h : 0 < size ∧ size < 1024 * 64 then
    if size * 2 < 1024 * 64 then lastSize (size * 2) else size
  else 0
termination_by 1024 * 64 - size

/-- The size of the buffer after a loop that no attempt ended. -/
def endSize (size : Nat) : Nat := if lastSize size = 0 then size else lastSize size * 2

theorem lastSize_of_large {size : Nat} (h : 1024 * 64 ≤ size) : lastSize size = 0 := by
  rw [lastSize, dif_neg]
  omega

/-- The last size is one of those tried, and its double is too large. -/
theorem lastSize_spec (size : Nat) (hpos : 0 < size) (hlt : size < 1024 * 64) :
    size ≤ lastSize size ∧ lastSize size < 1024 * 64 ∧ 1024 * 64 ≤ lastSize size * 2 := by
  induction hn : 1024 * 64 - size using Nat.strongRecOn generalizing size with
  | ind n ih =>
  rw [lastSize, dif_pos ⟨hpos, hlt⟩]
  by_cases h : size * 2 < 1024 * 64
  · rw [if_pos h]
    have hagain := ih _ (by omega) (size * 2) (by omega) h rfl
    omega
  · rw [if_neg h]
    omega

/-- What the loop returns: the text if it fits the last size, and else a buffer that holds
the beginning of the text and zeros. -/
theorem growMessage_eq (text res : Bytes) (size : Nat) (hpos : 0 < size)
    (hlt : size < 1024 * 64) :
    growMessage text res size =
      if text.length < lastSize size then text
      else text.take (lastSize size - 1) ++
        List.replicate (lastSize size * 2 - (lastSize size - 1)) 0 := by
  induction hn : 1024 * 64 - size using Nat.strongRecOn generalizing size res with
  | ind n ih =>
  rw [growMessage, dif_pos ⟨hpos, hlt⟩]
  by_cases hfits : text.length < size
  · -- a text that fits a size fits the last one
    have hlast := (lastSize_spec size hpos hlt).1
    rw [if_pos hfits, if_pos (by omega)]
  · rw [if_neg hfits]
    by_cases h : size * 2 < 1024 * 64
    · have hsame : lastSize size = lastSize (size * 2) := by
        rw [lastSize, dif_pos ⟨hpos, hlt⟩, if_pos h]
      rw [hsame]
      exact ih _ (by omega) _ (size * 2) (by omega) h rfl
    · -- the doubled buffer of this attempt is returned as it is
      have hsize : lastSize size = size := by
        rw [lastSize, dif_pos ⟨hpos, hlt⟩, if_neg h]
      rw [hsize, if_neg hfits, growMessage, dif_neg (by omega)]

/-- What `mk_error_message` returns for a format that is not empty. -/
theorem mkErrorMessage_eq (info text : Bytes) (hinfo : info ≠ []) :
    mkErrorMessage info text =
      if text.length < lastSize (info.length * 2) then text
      else text.take (lastSize (info.length * 2) - 1) ++
        List.replicate (endSize (info.length * 2) - (lastSize (info.length * 2) - 1)) 0 := by
  have hpos := List.length_pos_iff.mpr hinfo
  unfold mkErrorMessage
  rw [if_neg (by omega)]
  by_cases hlt : info.length * 2 < 1024 * 64
  · have hlast := (lastSize_spec _ (by omega) hlt).1
    have hend : endSize (info.length * 2) = lastSize (info.length * 2) * 2 := by
      unfold endSize
      rw [if_neg (by omega)]
    rw [growMessage_eq _ _ _ (by omega) hlt, hend]
  · -- the loop is not entered
    have hlast := lastSize_of_large (Nat.le_of_not_lt hlt)
    have hend : endSize (info.length * 2) = info.length * 2 := by
      unfold endSize
      rw [if_pos hlast]
    rw [growMessage, dif_neg (by omega), hend, hlast, if_neg (Nat.not_lt_zero _)]
    rfl

/-- A buffer that no attempt fitted is of 64 KiB at least. -/
theorem endSize_ge (size : Nat) (hpos : 0 < size) :
    1024 * 64 ≤ endSize size ∧ lastSize size - 1 < endSize size := by
  unfold endSize
  by_cases hlt : size < 1024 * 64
  · have hlast := lastSize_spec size hpos hlt
    rw [if_neg (by omega)]
    omega
  · have hlast := lastSize_of_large (Nat.le_of_not_lt hlt)
    rw [if_pos hlast]
    omega

/-- `res` is what it should be for the formatted message `text`: the text itself below 64 KiB,
and from there on a beginning of it that is not empty. In neither case does it contain a NUL
that is not part of the text. -/
def Formatted (text res : Bytes) : Prop :=
  (text.length < 1024 * 64 → res = text) ∧
    (1024 * 64 ≤ text.length → res ≠ [] ∧ res <+: text)

/-- A beginning of the text and padding is a prefix of the text when the text goes on with
what it is padded with. -/
theorem take_append_prefix_iff (text pad : Bytes) (n : Nat) (h : n ≤ text.length) :
    text.take n ++ pad <+: text ↔ pad <+: text.drop n := by
  have hlen : (text.take n).length = n := List.length_take_of_le h
  constructor
  · intro hpre
    have hdrop := hpre.drop n
    rwa [List.drop_left' hlen] at hdrop
  · intro hpad
    have happ := (List.prefix_append_right_inj (text.take n)).mpr hpad
    rwa [List.take_append_drop] at happ

/-- **When the message is what it should be**: the text fits the size tried last, or it has
NUL characters itself wherever the buffer is padded. -/
theorem mkErrorMessage_formatted_iff (info text : Bytes) (hinfo : info ≠ []) :
    Formatted text (mkErrorMessage info text) ↔
      text.length < lastSize (info.length * 2) ∨
        List.replicate (endSize (info.length * 2) - (lastSize (info.length * 2) - 1)) 0 <+:
          text.drop (lastSize (info.length * 2) - 1) := by
  have hpos := List.length_pos_iff.mpr hinfo
  obtain ⟨hend, hpadded⟩ := endSize_ge (info.length * 2) (by omega)
  rw [mkErrorMessage_eq info text hinfo]
  generalize lastSize (info.length * 2) = last at *
  generalize endSize (info.length * 2) = size at *
  by_cases hfits : text.length < last
  · rw [if_pos hfits]
    constructor
    · intro _
      exact Or.inl hfits
    · intro _
      refine ⟨fun _ => rfl, ?_⟩
      intro hlarge
      refine ⟨?_, List.prefix_refl text⟩
      exact List.ne_nil_of_length_pos (by omega)
  · rw [if_neg hfits]
    have hlen : (text.take (last - 1) ++ List.replicate (size - (last - 1)) 0).length = size := by
      rw [List.length_append, List.length_take, List.length_replicate]
      omega
    have hpre := take_append_prefix_iff text (List.replicate (size - (last - 1)) 0) (last - 1)
      (by omega)
    constructor
    · intro hform
      refine Or.inr (hpre.mp ?_)
      by_cases hshort : text.length < 1024 * 64
      · -- a text this short would have to be the buffer, which is longer
        have heq := congrArg List.length (hform.1 hshort)
        omega
      · exact (hform.2 (by omega)).2
    · intro hor
      have hmsg := hpre.mpr (hor.resolve_left hfits)
      have hle := hmsg.length_le
      refine ⟨?_, ?_⟩
      · intro hshort
        omega
      · intro _
        refine ⟨?_, hmsg⟩
        exact List.ne_nil_of_length_pos (by omega)

/-- A short message: the format `%s` and a word. -/
theorem mkErrorMessage_formatted_demo :
    ascii "%s" ≠ [] ∧ Formatted (ascii "hello") (mkErrorMessage (ascii "%s") (ascii "hello")) := by
  have hinfo : ascii "%s" ≠ [] := by decide
  have hlast := lastSize_spec ((ascii "%s").length * 2) (by decide) (by decide)
  have hlen : (ascii "hello").length = 5 := rfl
  refine ⟨hinfo, (mkErrorMessage_formatted_iff (ascii "%s") (ascii "hello") hinfo).mpr (Or.inl ?_)⟩
  omega

/-- `%s` and a string of 65535 characters, one fewer than 64 KiB: the last buffer tried is
smaller, and what is returned is one byte longer than the text and ends with zeros. -/
theorem mkErrorMessage_pads :
    ascii "%s" ≠ [] ∧ (List.replicate 65535 (97 : UInt8)).length < 1024 * 64 ∧
      ¬ Formatted (List.replicate 65535 97)
        (mkErrorMessage (ascii "%s") (List.replicate 65535 97)) := by
  have hinfo : ascii "%s" ≠ [] := by decide
  have htext : (List.replicate 65535 (97 : UInt8)).length = 65535 := List.length_replicate
  have hlast := lastSize_spec ((ascii "%s").length * 2) (by decide) (by decide)
  have hend := endSize_ge ((ascii "%s").length * 2) (by decide)
  refine ⟨hinfo, by omega, ?_⟩
  intro hform
  have heq := congrArg List.length (hform.1 (by omega))
  rw [mkErrorMessage_eq _ _ hinfo, if_neg (by omega), List.length_append, List.length_take,
    List.length_replicate, List.length_replicate] at heq
  omega

/-- With a format of 32 KiB or more nothing is formatted: the message is twice as many zeros as
the format has characters, whatever the text. -/
theorem mkErrorMessage_long_format (info text : Bytes) (hlen : 1024 * 32 ≤ info.length) :
    mkErrorMessage info text = List.replicate (info.length * 2) 0 := by
  unfold mkErrorMessage
  rw [if_neg (by omega), growMessage, dif_neg (by omega)]

end Cor.ErrorMessage

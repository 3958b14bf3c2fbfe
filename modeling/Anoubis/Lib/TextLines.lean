import Mathlib.Data.List.Basic

/-! The lines of a text.

    Every line ends with its newline, only the last one may have none. What holds of the empty text and of a last line
    without a newline, and stays true when a line is put in front, holds of every text. -/

namespace Anoubis.Lib

open List

/-- Bytes in front of the first line. -/
def beforeLines (buf : List UInt8) : List (List UInt8) → List (List UInt8)
  | [] => if buf = [] then [] else [buf]
  | line :: lines => (buf ++ line) :: lines

/-- The lines with their newline; the last one may have none. -/
def textLines : List UInt8 → List (List UInt8)
  | [] => []
  | b :: text => if b = 10 then [b] :: textLines text else beforeLines [b] (textLines text)

theorem beforeLines_nil (lines : List (List UInt8)) : beforeLines [] lines = lines := by
  cases lines <;> rfl

theorem beforeLines_append (buf buf' : List UInt8) (lines : List (List UInt8)) :
    beforeLines buf (beforeLines buf' lines) = beforeLines (buf ++ buf') lines := by
  cases lines with
  | nil =>
    by_cases hbuf' : buf' = []
    · rw [hbuf', append_nil]
      rfl
    · rw [beforeLines, beforeLines, if_neg hbuf', if_neg (by simp [hbuf'])]
      rfl
  | cons line lines => rw [beforeLines, beforeLines, beforeLines, append_assoc]

theorem textLines_newline (text : List UInt8) : textLines (10 :: text) = [10] :: textLines text := by
  rw [textLines, if_pos rfl]

theorem textLines_cons {b : UInt8} (hb : b ≠ 10) (text : List UInt8) :
    textLines (b :: text) = beforeLines [b] (textLines text) := by
  rw [textLines, if_neg hb]

theorem beforeLines_textLines {b : UInt8} (hb : b ≠ 10) (buf text : List UInt8) :
    beforeLines buf (textLines (b :: text)) = beforeLines (buf ++ [b]) (textLines text) := by
  rw [textLines_cons hb, beforeLines_append]

/-- The first line of a text. -/
theorem textLines_line {w : List UInt8} (hw : 10 ∉ w) (text : List UInt8) :
    textLines (w ++ 10 :: text) = (w ++ [10]) :: textLines text := by
  induction w with
  | nil => exact textLines_newline text
  | cons b w ih =>
    rw [mem_cons, not_or] at hw
    rw [cons_append, textLines_cons (Ne.symm hw.1), ih hw.2]
    rfl

/-- A line without a newline. -/
theorem textLines_last {w : List UInt8} (hne : w ≠ []) (hw : 10 ∉ w) : textLines w = [w] := by
  induction w with
  | nil => exact absurd rfl hne
  | cons b w ih =>
    rw [mem_cons, not_or] at hw
    rw [textLines_cons (Ne.symm hw.1)]
    cases w with
    | nil => rfl
    | cons c w =>
      rw [ih (by simp) hw.2]
      rfl

/-- Line by line. -/
theorem textLines_induction {P : List UInt8 → Prop} (nil : P []) (last : ∀ w, w ≠ [] → 10 ∉ w → P w)
    (line : ∀ w text, 10 ∉ w → P text → P (w ++ 10 :: text)) (text : List UInt8) : P text := by
  have key : ∀ text w : List UInt8, 10 ∉ w → P (w ++ text) := by
    intro text
    induction text with
    | nil =>
      intro w hw
      rw [append_nil]
      by_cases hne : w = []
      · rw [hne]
        exact nil
      · exact last w hne hw
    | cons b text ih =>
      intro w hw
      by_cases hb : b = 10
      · rw [hb]
        exact line w text hw (ih [] (by simp))
      · have h := ih (w ++ [b]) (by simp [hw, Ne.symm hb])
        rwa [append_assoc] at h
  exact key text [] (by simp)

end Anoubis.Lib

import Mathlib.Data.Nat.Notation

/-! Strings of C.

    A string ends with its NUL and holds no other one, so it is a list of bytes that are not zero. Strings that stand
    one behind the other can be read again. -/

namespace Anoubis.Lib

open List

/-- A byte of a string. -/
abbrev CChar := { b : UInt8 // b ≠ 0 }

abbrev CString := List CChar

/-- The string at the start of some memory. -/
def cString : List UInt8 → CString
  | [] => []
  | b :: bs => if h : b = 0 then [] else ⟨b, h⟩ :: cString bs

/-- The memory of a string. -/
def cBytes (s : CString) : List UInt8 := s.map Subtype.val ++ [0]

/-- A string literal. -/
def cLit (s : String) : CString := cString (s.toList.map fun c => UInt8.ofNat c.toNat)

theorem cString_cBytes (s : CString) (rest : List UInt8) : cString (cBytes s ++ rest) = s := by
  induction s with
  | nil => rfl
  | cons c s ih =>
    have hcons : cBytes (c :: s) ++ rest = c.1 :: (cBytes s ++ rest) := rfl
    rw [hcons, cString, dif_neg c.2, ih]

theorem cString_map (s : CString) : cString (s.map Subtype.val) = s := by
  induction s with
  | nil => rfl
  | cons c s ih => rw [map_cons, cString, dif_neg c.2, ih]

/-- Without a NUL the string is all of the memory. -/
theorem map_cString {bs : List UInt8} (h : 0 ∉ bs) : (cString bs).map Subtype.val = bs := by
  induction bs with
  | nil => rfl
  | cons b bs ih =>
    rw [mem_cons, not_or] at h
    rw [cString, dif_neg (Ne.symm h.1), map_cons, ih h.2]

theorem length_cBytes (s : CString) : (cBytes s).length = s.length + 1 := by
  rw [cBytes, length_append, length_map, length_singleton]

/-- A string in the middle. -/
theorem cString_drop {buf pre rest : List UInt8} {s : CString} (h : buf = pre ++ (cBytes s ++ rest)) :
    cString (buf.drop pre.length) = s := by
  rw [h, drop_left, cString_cBytes]

/-- Behind a string. -/
theorem drop_cBytes (s : CString) (rest : List UInt8) : (cBytes s ++ rest).drop (s.length + 1) = rest := by
  rw [← length_cBytes]
  exact drop_left

theorem length_cString_le (bs : List UInt8) : (cString bs).length ≤ bs.length := by
  induction bs with
  | nil => exact Nat.le_refl _
  | cons b bs ih =>
    rw [cString]
    split
    · exact Nat.zero_le _
    · exact Nat.succ_le_succ ih

/-- The string goes on behind memory without a NUL. -/
theorem cString_append (bs rest : List UInt8) : cString (bs ++ rest) =
    if (cString bs).length < bs.length then cString bs else cString bs ++ cString rest := by
  induction bs with
  | nil => rfl
  | cons b bs ih =>
    rw [cons_append, cString, cString]
    by_cases hb : b = 0
    · rw [dif_pos hb, dif_pos hb, if_pos (by simp)]
    · rw [dif_neg hb, dif_neg hb, ih]
      simp only [length_cons, Nat.add_lt_add_iff_right]
      split
      · rfl
      · rfl

/-- A number of strings, one behind the other. -/
def cStrings : ℕ → List UInt8 → List CString
  | 0, _ => []
  | n + 1, bs => cString bs :: cStrings n (bs.drop ((cString bs).length + 1))

theorem cStrings_flatMap (ss : List CString) (rest : List UInt8) :
    cStrings ss.length (ss.flatMap cBytes ++ rest) = ss := by
  induction ss with
  | nil => rfl
  | cons s ss ih =>
    rw [length_cons, cStrings, flatMap_cons, append_assoc, cString_cBytes, drop_cBytes, ih]

end Anoubis.Lib

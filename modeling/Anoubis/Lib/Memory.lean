import Mathlib.Data.List.Basic

/-! Checked accesses to a block of memory.

    A block has an end, and an access is `none` where it leaves the block. What a block holds is best told as the
    pieces that it consists of:

        before ++ piece ++ behind      load, store at before.length -/

namespace Anoubis.Lib

open List

variable {α : Type} {m before piece behind bs : List α} {off n i : ℕ}

/-- So many elements from an offset on. -/
def load (m : List α) (off n : ℕ) : Option (List α) :=
  if off + n ≤ m.length then some ((m.drop off).take n) else none

/-- Elements are written from an offset on. -/
def store (m : List α) (off : ℕ) (bs : List α) : Option (List α) :=
  if off + bs.length ≤ m.length then some (m.take off ++ (bs ++ m.drop (off + bs.length))) else none

theorem load_eq (h : off + n ≤ m.length) : load m off n = some ((m.drop off).take n) := if_pos h

theorem load_outside (h : m.length < off + n) : load m off n = none := if_neg (Nat.not_le.mpr h)

theorem load_piece (hm : m = before ++ (piece ++ behind)) (hoff : before.length = off) (hn : piece.length = n) :
    load m off n = some piece := by
  have hlen : off + n ≤ m.length := by
    rw [hm, length_append, length_append]
    omega
  rw [load_eq hlen, hm, ← hoff, drop_left, ← hn, take_left]

theorem store_piece (hm : m = before ++ (piece ++ behind)) (hoff : before.length = off)
    (hn : piece.length = bs.length) : store m off bs = some (before ++ (bs ++ behind)) := by
  have hlen : off + bs.length ≤ m.length := by
    rw [hm, length_append, length_append]
    omega
  have hbehind : m.drop (off + bs.length) = behind := by
    rw [hm, ← hoff, ← hn, ← drop_drop, drop_left, drop_left]
  rw [store, if_pos hlen, hbehind, hm, ← hoff, take_left]

/-- The memory behind some other memory. -/
theorem load_behind (h : before.length = off) : load (before ++ m) (off + i) n = load m i n := by
  have hdrop : (before ++ m).drop (off + i) = m.drop i := by
    rw [← h, ← drop_drop, drop_left]
  rw [load, load, length_append, hdrop, h, Nat.add_assoc]
  simp only [Nat.add_le_add_iff_left]

theorem store_behind (h : before.length = off) :
    store (before ++ m) (off + i) bs = (store m i bs).map (before ++ ·) := by
  have htake : (before ++ m).take (off + i) = before ++ m.take i := by
    rw [← h, take_length_add_append]
  have hdrop : (before ++ m).drop (off + i + bs.length) = m.drop (i + bs.length) := by
    rw [← h, Nat.add_assoc, ← drop_drop, drop_left]
  rw [store, store, length_append, htake, hdrop, h, Nat.add_assoc]
  simp only [Nat.add_le_add_iff_left]
  split
  · rw [Option.map_some, append_assoc]
  · rfl

end Anoubis.Lib

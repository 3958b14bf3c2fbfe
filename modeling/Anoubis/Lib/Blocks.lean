import Mathlib.Data.Int.Notation
import Mathlib.Data.List.Basic

/-! Streams of blocks that tell their own length.

    A block starts with a header of `k` elements, and `size` reads the length of the whole block from it.
    What follows a header in a stream of such blocks is then the rest of exactly this block. -/

namespace Anoubis.Lib

open List

variable {α : Type}

/-- `size` looks at the first `k` elements only. -/
def ReadsHeader (k : ℕ) (size : List α → ℤ) : Prop :=
  ∀ l l', k ≤ l.length → size (l ++ l') = size l

/-- A block: at least its header, and as long as the header says. -/
structure IsBlock (k : ℕ) (size : List α → ℤ) (b : List α) : Prop where
  header : k ≤ b.length
  size_eq : size b = b.length

variable {k : ℕ} {size : List α → ℤ}

theorem ReadsHeader.congr (hs : ReadsHeader k size) {a b x y : List α} (ha : k ≤ a.length)
    (hb : k ≤ b.length) (h : a ++ x = b ++ y) : size a = size b := by
  rw [← hs a x ha, ← hs b y hb, h]

/-- The block a stream starts with: its length can be read off any part that holds the header. -/
theorem exists_first_block (hs : ReadsHeader k size) (hk : 0 < k) {bs : List (List α)}
    (hb : ∀ b ∈ bs, IsBlock k size b) {a c : List α} (h : bs.flatten = a ++ c) (ha : k ≤ a.length) :
    ∃ b bs', bs = b :: bs' ∧ size a = b.length ∧ b ++ bs'.flatten = a ++ c := by
  cases bs with
  | nil =>
    obtain ⟨rfl, -⟩ := append_eq_nil_iff.mp h.symm
    exact absurd ha (by simp; omega)
  | cons b bs' =>
    have hblock := hb b mem_cons_self
    rw [flatten_cons] at h
    exact ⟨b, bs', rfl, (hs.congr ha hblock.header h.symm).trans hblock.size_eq, h⟩

/-- Where the header's length fits into the part, it cuts the block off. -/
theorem take_first_block {a b c d : List α} (h : b ++ d = a ++ c) (hle : b.length ≤ a.length) :
    a.take b.length = b ∧ d = a.drop b.length ++ c := by
  have ht : (b ++ d).take b.length = (a ++ c).take b.length := by rw [h]
  have hd : (b ++ d).drop b.length = (a ++ c).drop b.length := by rw [h]
  rw [take_left', take_append_of_le_length hle] at ht
  · rw [drop_left', drop_append_of_le_length hle] at hd
    · exact ⟨ht.symm, hd⟩
    · rfl
  · rfl

/-- A stream shorter than a header has no block left. -/
theorem eq_nil_of_short {bs : List (List α)} (hb : ∀ b ∈ bs, IsBlock k size b)
    (h : bs.flatten.length < k) : bs = [] := by
  cases bs with
  | nil => rfl
  | cons b bs' =>
    have hblock := (hb b mem_cons_self).header
    rw [flatten_cons, length_append] at h
    omega

end Anoubis.Lib

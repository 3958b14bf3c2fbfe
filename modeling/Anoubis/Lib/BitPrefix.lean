import Mathlib.Data.Nat.Notation

/-! Bit prefixes.

    Two words agree on their first `len` bits, the most significant one first. A network mask tests this
    with one conjunction, and a long word can be tested piece by piece. -/

namespace Anoubis.Lib

variable {w : ℕ}

/-- The first `len` bits are the same. -/
def SamePrefix (len : ℕ) (a b : BitVec w) : Prop := ∀ i < len, a.getMsbD i = b.getMsbD i

/-- The word whose first `len` bits are set. -/
def prefixMask (w len : ℕ) : BitVec w := BitVec.allOnes w <<< (w - len)

variable {len : ℕ} {a b : BitVec w}

theorem getMsbD_prefixMask {i : ℕ} (hi : i < w) : (prefixMask w len).getMsbD i = decide (i < len) := by
  rw [prefixMask, BitVec.getMsbD_shiftLeft, BitVec.getMsbD_allOnes]
  exact decide_eq_decide.mpr (by omega)

/-- Words are equal if all their bits are, counted from the front. -/
theorem eq_iff_getMsbD : a = b ↔ ∀ i < w, a.getMsbD i = b.getMsbD i := by
  constructor
  · rintro rfl i -
    rfl
  · intro h
    refine BitVec.eq_of_getMsbD_eq fun i hi => ?_
    exact h i hi

theorem samePrefix_all (h : w ≤ len) : SamePrefix len a b ↔ a = b := by
  constructor
  · exact fun hp => eq_iff_getMsbD.mpr fun i hi => hp i (by omega)
  · rintro rfl i -
    rfl

/-- The test with a mask. -/
theorem and_prefixMask : a &&& prefixMask w len = b &&& prefixMask w len ↔ SamePrefix len a b := by
  rw [eq_iff_getMsbD]
  constructor
  · intro h i hi
    rcases Nat.lt_or_ge i w with hw | hw
    · simpa [getMsbD_prefixMask hw, hi] using h i hw
    · rw [BitVec.getMsbD_of_ge a i hw, BitVec.getMsbD_of_ge b i hw]
  · intro h i hi
    rw [BitVec.getMsbD_and, BitVec.getMsbD_and, getMsbD_prefixMask hi]
    by_cases hlen : i < len
    · rw [h i hlen]
    · simp [hlen]

/-- The piece of `v` bits that starts at bit `n`. -/
def piece (v n : ℕ) (a : BitVec w) : BitVec v := (a >>> (w - n - v)).truncate v

theorem getMsbD_piece {v n i : ℕ} (a : BitVec w) (hn : n + v ≤ w) (hi : i < v) :
    (piece v n a).getMsbD i = a.getMsbD (n + i) := by
  rw [piece, BitVec.getMsbD_eq_getLsbD, BitVec.getMsbD_eq_getLsbD]
  simp only [BitVec.truncate_eq_setWidth, BitVec.getLsbD_setWidth, BitVec.getLsbD_ushiftRight]
  have h1 : v - 1 - i < v := by omega
  have h2 : n + i < w := by omega
  have h3 : w - n - v + (v - 1 - i) = w - 1 - (n + i) := by omega
  simp [hi, h1, h2, h3]

/-- A prefix, tested in pieces of `v` bits: each piece has its own part of the length. -/
theorem samePrefix_pieces {v k : ℕ} (hv : 0 < v) (hw : k * v = w) : SamePrefix len a b ↔
      ∀ j < k, SamePrefix (len - j * v) (piece v (j * v) a) (piece v (j * v) b) := by
  have hroom : ∀ {j : ℕ}, j < k → j * v + v ≤ w := by
    intro j hj
    rw [← hw, ← Nat.succ_mul]
    exact Nat.mul_le_mul_right v hj
  constructor
  · intro h j hj i hi
    rcases Nat.lt_or_ge i v with hiv | hiv
    · rw [getMsbD_piece a (hroom hj) hiv, getMsbD_piece b (hroom hj) hiv]
      exact h _ (by omega)
    · rw [BitVec.getMsbD_of_ge _ i hiv, BitVec.getMsbD_of_ge _ i hiv]
  · intro h i hi
    rcases Nat.lt_or_ge i w with hiw | hiw
    · have hj : i / v < k := by
        rw [Nat.div_lt_iff_lt_mul hv, hw]
        exact hiw
      have hmod : i % v < v := Nat.mod_lt i hv
      have hdiv : i / v * v + i % v = i := by
        rw [Nat.mul_comm]
        exact Nat.div_add_mod i v
      have hp := h (i / v) hj (i % v) (by omega)
      rwa [getMsbD_piece a (hroom hj) hmod, getMsbD_piece b (hroom hj) hmod, hdiv] at hp
    · rw [BitVec.getMsbD_of_ge a i hiw, BitVec.getMsbD_of_ge b i hiw]

end Anoubis.Lib

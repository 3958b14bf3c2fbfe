import Mathlib.Data.BitVec

/-! Cyclic redundancy checks.

    The register of a CRC is the remainder of a polynomial over GF(2); a bit of the message enters at
    the top, and where the top bit changes, the generator is taken off. `poly` is the generator without
    its leading term.

        s = s₀ s₁ … s_{w-1}     b = s₀ :  s₁ … s_{w-1} 0
                                b ≠ s₀ :  s₁ … s_{w-1} 0  ^^^  poly

    The register is linear in its start value and the message together. Three facts carry the rest: a
    register that is fed its own bits is empty, an empty register stays empty on zeros, and with an
    odd generator no other register becomes empty on zeros. Two messages that differ within a window
    of `w` bits only therefore leave different registers. -/

namespace Anoubis.Lib.Crc

open List

variable {w : ℕ} (poly : BitVec w)

/-- One bit of the message. -/
def feed (s : BitVec w) (b : Bool) : BitVec w :=
  if s.msb != b then s <<< 1 ^^^ poly else s <<< 1

/-- A whole message. -/
def feedAll (s : BitVec w) (bs : List Bool) : BitVec w := bs.foldl (feed poly) s

/-- The bits of a word, the highest first. -/
def msbFirst (x : BitVec w) : List Bool := (List.range w).map x.getMsbD

@[simp] theorem length_msbFirst (x : BitVec w) : (msbFirst x).length = w := by simp [msbFirst]

variable (s : BitVec w)

@[simp] theorem feedAll_nil : feedAll poly s [] = s := rfl

@[simp] theorem feedAll_cons (b : Bool) (bs : List Bool) :
    feedAll poly s (b :: bs) = feedAll poly (feed poly s b) bs := rfl

theorem feedAll_append (bs cs : List Bool) :
    feedAll poly s (bs ++ cs) = feedAll poly (feedAll poly s bs) cs := foldl_append

/-! ### Linearity -/

theorem feed_xor (t : BitVec w) (b c : Bool) : feed poly (s ^^^ t) (b ^^ c) = feed poly s b ^^^ feed poly t c := by
  have hmsb : ((s ^^^ t).msb != (b ^^ c)) = ((s.msb != b) ^^ (t.msb != c)) := by
    rw [BitVec.msb_xor]
    cases s.msb <;> cases t.msb <;> cases b <;> cases c <;> rfl
  rw [feed, feed, feed, hmsb, BitVec.shiftLeft_xor_distrib]
  cases hs : s.msb != b <;> cases ht : t.msb != c
  · rfl
  · exact BitVec.xor_assoc ..
  · change _ = _ ^^^ poly ^^^ _
    rw [BitVec.xor_assoc, BitVec.xor_assoc, BitVec.xor_comm poly]
    rfl
  · change _ = _ ^^^ poly ^^^ (_ ^^^ poly)
    rw [BitVec.xor_assoc _ poly, BitVec.xor_comm poly, BitVec.xor_assoc _ poly poly, BitVec.xor_self,
      BitVec.xor_zero]
    rfl

variable {bs : List Bool}

theorem feedAll_xor {cs : List Bool} (hlen : bs.length = cs.length) (s t : BitVec w) :
    feedAll poly (s ^^^ t) (List.zipWith xor bs cs) = feedAll poly s bs ^^^ feedAll poly t cs := by
  induction bs generalizing cs s t with
  | nil =>
    obtain rfl := eq_nil_of_length_eq_zero hlen.symm
    rfl
  | cons b bs ih =>
    cases cs with
    | nil => cases hlen
    | cons c cs =>
      rw [zipWith_cons_cons, feedAll_cons, feed_xor, ih (Nat.succ.inj hlen)]
      rfl

/-! ### Zeros -/

theorem feed_zero : feed poly 0#w false = 0#w := by simp [feed]

/-- An empty register stays empty on zeros. -/
theorem feedAll_zeros (n : ℕ) : feedAll poly 0#w (List.replicate n false) = 0#w := by
  induction n with
  | zero => rfl
  | succ n ih => rw [replicate_succ, feedAll_cons, feed_zero, ih]

variable {poly}

/-- With an odd generator the lowest bit tells whether the generator was taken off. -/
theorem feed_false_eq_zero (hodd : poly.getLsbD 0 = true) {s : BitVec w} (h : feed poly s false = 0#w) : s = 0#w := by
  cases hmsb : s.msb with
  | true =>
    rw [feed, hmsb, if_pos (by decide)] at h
    have hbit : (s <<< 1 ^^^ poly).getLsbD 0 = false := by simp [h]
    rw [BitVec.getLsbD_xor, hodd] at hbit
    simp at hbit
  | false =>
    rw [feed, hmsb, if_neg (by decide)] at h
    refine BitVec.eq_of_getMsbD_eq fun i hi => ?_
    cases i with
    | zero => rw [← BitVec.msb_eq_getMsbD_zero, hmsb, BitVec.getMsbD_zero]
    | succ i =>
      have hbit : (s <<< 1).getMsbD i = false := by simp [h]
      rw [BitVec.getMsbD_shiftLeft] at hbit
      rw [BitVec.getMsbD_zero, hbit]

/-- Nothing but the empty register becomes empty on zeros. -/
theorem feedAll_zeros_eq_zero (hodd : poly.getLsbD 0 = true) {s : BitVec w} {n : ℕ}
    (h : feedAll poly s (List.replicate n false) = 0#w) : s = 0#w := by
  induction n generalizing s with
  | zero => exact h
  | succ n ih => exact feed_false_eq_zero hodd (ih h)

variable (poly)

/-! ### A register that is fed its own bits -/

theorem feed_own : feed poly s s.msb = s <<< 1 := by simp [feed]

theorem feedAll_own_bits (n : ℕ) : feedAll poly s ((List.range n).map s.getMsbD) = s <<< n := by
  induction n with
  | zero => simp
  | succ n ih =>
    have hmsb : s.getMsbD n = (s <<< n).msb := by
      rw [BitVec.msb_eq_getMsbD_zero, BitVec.getMsbD_shiftLeft, zero_add]
    rw [range_succ, map_append, feedAll_append, ih, map_cons, map_nil, feedAll_cons,
      feedAll_nil, hmsb, feed_own, BitVec.shiftLeft_add]

/-- The check sum behind the message empties the register. -/
theorem feedAll_msbFirst : feedAll poly s (msbFirst s) = 0#w := by
  rw [msbFirst, feedAll_own_bits, BitVec.shiftLeft_eq_zero le_rfl]

/-! ### Bursts -/

variable {poly}

theorem exists_msbFirst (hlen : bs.length = w) : ∃ x : BitVec w, msbFirst x = bs := by
  subst hlen
  refine ⟨BitVec.ofBoolListBE bs, ext_getElem (by simp) fun i h _ => ?_⟩
  simp only [length_msbFirst] at h
  simp [msbFirst, h]

/-- A message of `w` bits that empties the empty register is zero: as a register of its own it would
    become empty on zeros. -/
theorem word_eq_zero (hodd : poly.getLsbD 0 = true) (hlen : bs.length = w) (h : feedAll poly 0#w bs = 0#w) :
    bs = List.replicate w false := by
  obtain ⟨x, rfl⟩ := exists_msbFirst hlen
  have hsum : feedAll poly (x ^^^ 0#w) (List.zipWith xor (List.replicate w false) (msbFirst x)) =
      feedAll poly x (List.replicate w false) ^^^ 0#w := by
    rw [feedAll_xor poly (by simp), h]
  have hbits : List.zipWith xor (List.replicate w false) (msbFirst x) = msbFirst x :=
    ext_getElem (by simp) fun i _ _ => by simp
  rw [hbits, BitVec.xor_zero, BitVec.xor_zero, feedAll_msbFirst] at hsum
  obtain rfl := feedAll_zeros_eq_zero hodd hsum.symm
  exact ext_getElem (by simp) fun i _ _ => by simp [msbFirst]

/-- The same for shorter messages, which zeros in front do not change. -/
theorem burst_eq_zero (hodd : poly.getLsbD 0 = true) (hlen : bs.length ≤ w) (h : feedAll poly 0#w bs = 0#w) :
    ∀ b ∈ bs, b = false := by
  have hpad : feedAll poly 0#w (List.replicate (w - bs.length) false ++ bs) = 0#w := by
    rw [feedAll_append, feedAll_zeros, h]
  have hword := word_eq_zero hodd (by simp; omega) hpad
  intro b hb
  have hmem : b ∈ List.replicate w false := hword ▸ mem_append_right _ hb
  exact eq_of_mem_replicate hmem

/-- Every set bit lies within the `w` bits from `k` on. -/
def Within (k w : ℕ) (bs : List Bool) : Prop := ∀ i, bs[i]? = some true → k ≤ i ∧ i < k + w

theorem eq_replicate_of_all_false (h : ∀ b ∈ bs, b = false) :
    bs = List.replicate bs.length false := eq_replicate_iff.mpr ⟨rfl, h⟩

/-- A burst of at most `w` bits does not leave the empty register empty. -/
theorem burst_detected (hodd : poly.getLsbD 0 = true) {k : ℕ} (hin : Within k w bs) (hset : true ∈ bs) :
    feedAll poly 0#w bs ≠ 0#w := by
  have hsplit : bs = bs.take k ++ ((bs.drop k).take w ++ (bs.drop k).drop w) := by
    rw [take_append_drop, take_append_drop]
  have hpre : ∀ b ∈ bs.take k, b = false := by
    intro b hb
    obtain ⟨i, hi, rfl⟩ := mem_iff_getElem.mp hb
    by_contra hne
    rw [length_take] at hi
    have hget : bs[i]? = some true := by
      rw [getElem?_eq_getElem (by omega)]
      rw [getElem_take, Bool.not_eq_false] at hne
      rw [hne]
    have hk := hin i hget
    omega
  have hpost : ∀ b ∈ (bs.drop k).drop w, b = false := by
    intro b hb
    obtain ⟨i, hi, rfl⟩ := mem_iff_getElem.mp hb
    by_contra hne
    rw [drop_drop, length_drop] at hi
    have hget : bs[k + w + i]? = some true := by
      rw [getElem?_eq_getElem (by omega)]
      simp only [drop_drop, getElem_drop, Bool.not_eq_false] at hne
      rw [hne]
    have hk := hin _ hget
    omega
  intro hzero
  rw [hsplit, feedAll_append, feedAll_append, eq_replicate_of_all_false hpre, feedAll_zeros,
    eq_replicate_of_all_false hpost] at hzero
  have hmid := burst_eq_zero hodd (by simp) (feedAll_zeros_eq_zero hodd hzero)
  rw [hsplit, mem_append, mem_append] at hset
  rcases hset with hset | hset | hset
  · exact absurd (hpre true hset) (by decide)
  · exact absurd (hmid true hset) (by decide)
  · exact absurd (hpost true hset) (by decide)

end Anoubis.Lib.Crc

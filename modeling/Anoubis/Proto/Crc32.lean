import Anoubis.Lib.Crc

/-! The check sum of the messages (`anoubis_crc32.h`).

    `_crc32_do` takes the bits of the buffer one after the other, the highest bit of a byte first, and
    starts with all bits set. `crc32_set` writes the sum over the rest into the last four bytes, and a
    buffer is good if the sum over all of it is 0.

        buf[0] … buf[len-5]   buf[len-4] buf[len-3] buf[len-2] buf[len-1]
        ----- message -----   ----------- sum, big endian ------------- -/

namespace Anoubis.Proto.Crc32

open Anoubis.Lib.Crc List

/-- POLY. -/
def poly : BitVec 32 := 0x04C11DB7

/-- The body of the inner loop of `_crc32_do`. -/
def crc32Bit (sum : BitVec 32) (byte mask : BitVec 8) : BitVec 32 :=
  let highbit := sum >>> 31
  let curbit : BitVec 32 := if byte &&& mask ≠ 0 then 1 else 0
  let sum := sum <<< 1
  if highbit ≠ curbit then sum ^^^ poly else sum

/-- The values of `mask` in the inner loop. -/
def masks : List (BitVec 8) := [0x80, 0x40, 0x20, 0x10, 0x08, 0x04, 0x02, 0x01]

/-- `_crc32_do`. -/
def crc32Do (buf : List (BitVec 8)) : BitVec 32 :=
  buf.foldl (fun sum byte => masks.foldl (fun sum mask => crc32Bit sum byte mask) sum) 0xFFFFFFFF

/-- `crc32_check`. -/
def crc32Check (buf : List (BitVec 8)) : Bool := crc32Do buf == 0

/-- The loop of `crc32_set`: the bytes below `i`, from the last one down. -/
def storeSum (buf : List (BitVec 8)) (start sum : ℕ) : ℕ → List (BitVec 8)
  | 0 => buf
  | i + 1 => storeSum (buf.set (start + i) (BitVec.ofNat 8 (sum % 256))) start (sum / 256) i

/-- `crc32_set`. -/
def crc32Set (buf : List (BitVec 8)) : List (BitVec 8) :=
  storeSum buf (buf.length - 4) (crc32Do (buf.take (buf.length - 4))).toNat 4

/-! ### The loop as a cyclic redundancy check -/

/-- The bits of a buffer in the order in which the loop reads them. -/
def bitsOf (buf : List (BitVec 8)) : List Bool := buf.flatMap msbFirst

variable (sum : BitVec 32)

theorem crc32Bit_eq (byte mask : BitVec 8) : crc32Bit sum byte mask = feed poly sum (byte &&& mask != 0) := by
  have hhigh : sum >>> 31 = if sum.msb then 1#32 else 0#32 := by
    have hlsb := BitVec.msb_eq_getLsbD_last sum
    refine BitVec.eq_of_getLsbD_eq fun i hi => ?_
    rw [BitVec.getLsbD_ushiftRight]
    cases i with
    | zero =>
      rw [add_zero, ← hlsb]
      cases sum.msb <;> rfl
    | succ i =>
      rw [BitVec.getLsbD_of_ge _ _ (by omega)]
      cases sum.msb <;> simp
  rw [crc32Bit, feed, hhigh]
  by_cases hcur : byte &&& mask = 0
  · rw [hcur]
    cases sum.msb <;> rfl
  · have hbit : (byte &&& mask != 0) = true := bne_iff_ne.mpr hcur
    rw [if_pos hcur, hbit]
    cases sum.msb <;> rfl

theorem curbits (byte : BitVec 8) : masks.map (fun mask => byte &&& mask != 0) = msbFirst byte := by
  revert byte
  decide +kernel

theorem crc32Byte_eq (byte : BitVec 8) :
    masks.foldl (fun sum mask => crc32Bit sum byte mask) sum = feedAll poly sum (msbFirst byte) := by
  rw [feedAll, ← curbits, foldl_map]
  simp only [crc32Bit_eq]

theorem feedAll_bitsOf (buf : List (BitVec 8)) :
    buf.foldl (fun sum byte => masks.foldl (fun sum mask => crc32Bit sum byte mask) sum) sum =
      feedAll poly sum (bitsOf buf) := by
  induction buf generalizing sum with
  | nil => rfl
  | cons byte buf ih =>
    have hbits : bitsOf (byte :: buf) = msbFirst byte ++ bitsOf buf := flatMap_cons
    rw [foldl_cons, ih, crc32Byte_eq, hbits, feedAll_append]

theorem crc32Do_eq (buf : List (BitVec 8)) : crc32Do buf = feedAll poly 0xFFFFFFFF (bitsOf buf) :=
  feedAll_bitsOf _ buf

theorem bitsOf_append (b c : List (BitVec 8)) : bitsOf (b ++ c) = bitsOf b ++ bitsOf c :=
  flatMap_append

theorem poly_odd : poly.getLsbD 0 = true := rfl

/-! ### The sum in the last four bytes -/

/-- The bytes of a sum, big endian. -/
def sumBytes (sum : BitVec 32) : List (BitVec 8) :=
  [BitVec.ofNat 8 (sum.toNat / 256 / 256 / 256 % 256), BitVec.ofNat 8 (sum.toNat / 256 / 256 % 256),
    BitVec.ofNat 8 (sum.toNat / 256 % 256), BitVec.ofNat 8 (sum.toNat % 256)]

theorem storeSum_eq (l : List (BitVec 8)) (a b c d : BitVec 8) (sum : BitVec 32) :
    storeSum (l ++ [a, b, c, d]) l.length sum.toNat 4 = l ++ sumBytes sum := by
  simp [storeSum, sumBytes]

variable {buf : List (BitVec 8)}

/-- A buffer of at least four bytes ends in four bytes. -/
theorem exists_last_four (h : 4 ≤ buf.length) : ∃ a b c d, buf = buf.take (buf.length - 4) ++ [a, b, c, d] := by
  have hlen : (buf.drop (buf.length - 4)).length = 4 := by
    rw [length_drop]
    omega
  obtain ⟨a, b, c, d, hd⟩ := length_eq_four.mp hlen
  exact ⟨a, b, c, d, by rw [← hd, take_append_drop]⟩

theorem crc32Set_eq (h : 4 ≤ buf.length) :
    crc32Set buf = buf.take (buf.length - 4) ++ sumBytes (crc32Do (buf.take (buf.length - 4))) := by
  obtain ⟨a, b, c, d, hd⟩ := exists_last_four h
  have hlen : (buf.take (buf.length - 4)).length = buf.length - 4 := by
    rw [length_take]
    omega
  rw [crc32Set, ← storeSum_eq _ a b c d, ← hd, hlen]

/-- The byte above the lowest `n` bits. -/
theorem msbFirst_byte {n : ℕ} (hn : n ≤ 24) : msbFirst (BitVec.ofNat 8 (sum.toNat / 2 ^ n % 256)) =
      (List.range 8).map (fun i => sum.getMsbD (24 - n + i)) := by
  refine map_congr_left fun i hi => ?_
  have hi := mem_range.mp hi
  have hmod : (256 : ℕ) = 2 ^ 8 := rfl
  rw [BitVec.getMsbD_eq_getLsbD, BitVec.getMsbD_eq_getLsbD, BitVec.getLsbD_ofNat, hmod,
    Nat.testBit_mod_two_pow, Nat.testBit_div_two_pow, BitVec.getLsbD]
  have hidx : 8 - 1 - i + n = 32 - 1 - (24 - n + i) := by omega
  have h₁ : i < 8 := hi
  have h₂ : 8 - 1 - i < 8 := by omega
  have h₃ : 24 - n + i < 32 := by omega
  simp [hidx, h₁, h₂, h₃]

theorem bitsOf_sumBytes : bitsOf (sumBytes sum) = msbFirst sum := by
  have h₃ : sum.toNat / 256 / 256 / 256 = sum.toNat / 2 ^ 24 := by
    rw [Nat.div_div_eq_div_mul, Nat.div_div_eq_div_mul]
    rfl
  have h₂ : sum.toNat / 256 / 256 = sum.toNat / 2 ^ 16 := Nat.div_div_eq_div_mul ..
  have h₁ : sum.toNat / 256 = sum.toNat / 2 ^ 8 := rfl
  have h₀ : sum.toNat % 256 = sum.toNat / 2 ^ 0 % 256 := by rw [Nat.pow_zero, Nat.div_one]
  rw [sumBytes, h₃, h₂, h₁, h₀]
  simp only [bitsOf, flatMap_cons, flatMap_nil]
  rw [msbFirst_byte sum (by omega), msbFirst_byte sum (by omega), msbFirst_byte sum (by omega),
    msbFirst_byte sum (by omega)]
  rfl

/-- A buffer with its sum in the last four bytes is good. -/
theorem check_set (h : 4 ≤ buf.length) : crc32Check (crc32Set buf) = true := by
  rw [crc32Check, crc32Set_eq h, crc32Do_eq, bitsOf_append, bitsOf_sumBytes, feedAll_append,
    ← crc32Do_eq, feedAll_msbFirst]
  rfl

/-! ### Errors on the way -/

/-- The `i`-th bit of a buffer, in the order in which the loop reads them. -/
def bitAt (e : List (BitVec 8)) (i : ℕ) : Bool := (e.getD (i / 8) 0).getMsbD (i % 8)

theorem bitsOf_getElem? (e : List (BitVec 8)) (i : ℕ) :
    (bitsOf e)[i]? = if i < 8 * e.length then some (bitAt e i) else none := by
  induction e generalizing i with
  | nil => rfl
  | cons byte e ih =>
    have hbits : bitsOf (byte :: e) = msbFirst byte ++ bitsOf e := flatMap_cons
    rw [hbits, getElem?_append, length_msbFirst]
    by_cases hi : i < 8
    · rw [if_pos hi, if_pos (by rw [length_cons]; omega), bitAt, Nat.div_eq_of_lt hi, Nat.mod_eq_of_lt hi]
      simp [msbFirst, hi]
    · obtain ⟨j, rfl⟩ := Nat.exists_eq_add_of_le (Nat.le_of_not_lt hi)
      rw [if_neg hi, Nat.add_sub_cancel_left, ih, bitAt, bitAt, Nat.add_div_left j (by omega),
        Nat.add_mod_left, getD_cons_succ, length_cons]
      simp only [Nat.mul_succ, add_comm 8 j, Nat.add_lt_add_iff_right]

theorem bitsOf_xor {b e : List (BitVec 8)} (hlen : b.length = e.length) :
    bitsOf (List.zipWith (· ^^^ ·) b e) = List.zipWith xor (bitsOf b) (bitsOf e) := by
  induction b generalizing e with
  | nil =>
    obtain rfl := eq_nil_of_length_eq_zero hlen.symm
    rfl
  | cons x b ih =>
    cases e with
    | nil => cases hlen
    | cons y e =>
      have hbits : ∀ (x : BitVec 8) (b : List (BitVec 8)), bitsOf (x :: b) = msbFirst x ++ bitsOf b :=
        fun _ _ => flatMap_cons
      have hxor : msbFirst (x ^^^ y) = List.zipWith xor (msbFirst x) (msbFirst y) :=
        ext_getElem (by simp) fun i _ _ => by simp [msbFirst]
      rw [zipWith_cons_cons, hbits, hbits, hbits, ih (Nat.succ.inj hlen), hxor, zipWith_append (by simp)]

theorem length_bitsOf (b : List (BitVec 8)) : (bitsOf b).length = 8 * b.length := by
  simp [bitsOf, length_flatMap, mul_comm]

/-- A buffer that checks after the error has an error that leaves the empty register empty. -/
theorem check_xor {b e : List (BitVec 8)} (hlen : e.length = b.length) (hb : crc32Check b = true) :
    crc32Check (List.zipWith (· ^^^ ·) b e) = true ↔ feedAll poly 0#32 (bitsOf e) = 0#32 := by
  have hsum : crc32Do b = 0#32 := by simpa [crc32Check] using hb
  have hbits : (bitsOf b).length = (bitsOf e).length := by rw [length_bitsOf, length_bitsOf, hlen]
  have hlin := feedAll_xor poly hbits 0xFFFFFFFF 0#32
  rw [BitVec.xor_zero, ← bitsOf_xor hlen.symm, ← crc32Do_eq, ← crc32Do_eq, hsum, BitVec.zero_xor] at hlin
  rw [crc32Check, hlin, beq_iff_eq]
  rfl

/-- A buffer that was given its sum checks, and no error within 32 consecutive bits of a good buffer
    passes the check. -/
theorem crc32_protects :
    (∀ buf : List (BitVec 8), 4 ≤ buf.length → crc32Check (crc32Set buf) = true) ∧
    ∀ b e : List (BitVec 8), crc32Check b = true → e.length = b.length → (∃ x ∈ e, x ≠ 0) →
      (∃ k, ∀ i, bitAt e i = true → k ≤ i ∧ i < k + 32) →
      crc32Check (List.zipWith (· ^^^ ·) b e) = false := by
  refine ⟨fun buf => check_set, fun b e hb hlen hne hwin => ?_⟩
  obtain ⟨k, hk⟩ := hwin
  obtain ⟨x, hx, hx0⟩ := hne
  have hwithin : Within k 32 (bitsOf e) := by
    intro i hi
    rw [bitsOf_getElem?] at hi
    exact hk i (by simpa using (Option.ite_none_right_eq_some.mp hi).2)
  have hset : true ∈ bitsOf e := by
    by_contra hnot
    refine hx0 (BitVec.eq_of_getMsbD_eq fun i hi => ?_)
    have hzero : BitVec.getMsbD (0 : BitVec 8) i = false := BitVec.getMsbD_zero
    rw [hzero]
    by_contra hbit
    refine hnot (List.mem_flatMap.mpr ⟨x, hx, List.mem_map.mpr ⟨i, List.mem_range.mpr hi, ?_⟩⟩)
    exact Bool.eq_true_of_not_eq_false hbit
  have hdetected := burst_detected poly_odd hwithin hset
  exact Bool.eq_false_iff.mpr fun hgood => hdetected ((check_xor hlen hb).mp hgood)

/-- The sum over nothing, and the same with its last bit changed. -/
theorem crc32_protects_sum :
    crc32Check (crc32Set [0, 0, 0, 0]) = true ∧ crc32Check [0xFF, 0xFF, 0xFF, 0xFF ^^^ 0x01] = false := by
  refine ⟨crc32_protects.1 _ (by decide), ?_⟩
  refine crc32_protects.2 [0xFF, 0xFF, 0xFF, 0xFF] [0, 0, 0, 1] (by decide +kernel) rfl ⟨1, ?_, ?_⟩ ⟨0, ?_⟩
  · decide
  · decide
  · intro i hi
    refine ⟨Nat.zero_le i, ?_⟩
    by_contra hge
    have hget : List.getD [0, 0, 0, (1 : BitVec 8)] (i / 8) 0 = 0 := by
      rw [List.getD_eq_getElem?_getD, List.getElem?_eq_none (by simp; omega)]
      rfl
    rw [bitAt, hget] at hi
    simp at hi

end Anoubis.Proto.Crc32

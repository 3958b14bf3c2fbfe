import Anoubis.Daemon.Sizes
import Anoubis.Proto.VerifySound

/-! Rules for the macros of `amsg_verify.c`.

    A macro checks something and goes on, or it leaves the function. Each rule asks for the rest of the
    function where the check succeeds, and for the early result -1 where it does not. -/

namespace Anoubis.Daemon.Sizes

open Anoubis.Lib
open Anoubis.Connection (Bytes u16 u32 csumLen)
open Anoubis.MsgVerify (int readU16 readU32 readU16_eq readU32_eq)

variable {α : Type} {E : ℤ → Prop} {Q : α → Cur → Prop} {c : Cur} {m : Bytes}

/-- A result that refuses the message. -/
def Refused (e : ℤ) : Prop := -2147483648 ≤ e ∧ e < 0

theorem refused : Refused (-1) := ⟨by decide, by decide⟩

/-! ### Conversions -/

attribute [local irreducible] int

variable {v : ℤ} {f : Unit → Walk Cur ℤ α}

theorem int_eq (h : -2147483648 ≤ v) (h' : v < 2147483648) : int v = v := by
  rw [int, Int.bmod]
  split <;> omega

/-- What CHECK_SIZE says of a number that fits into an int or an unsigned int. -/
theorem checked_iff (h : -2147483648 ≤ v) (h' : v < 4294967296) :
    ¬ (int v < 0 ∨ int v > sizeLimit) ↔ 0 ≤ v ∧ v ≤ sizeLimit := by
  rw [int, Int.bmod, sizeLimit]
  split <;> omega

theorem host_lt (m : Bytes) (off width : ℕ) : host m off width < 256 ^ width := by
  rw [host]
  have hlen : ((m.drop off).take width).length ≤ width := by
    rw [List.length_take]
    exact Nat.min_le_left _ _
  generalize (m.drop off).take width = l at hlen
  induction l generalizing width with
  | nil => exact Nat.pow_pos (by decide)
  | cons b l ih =>
    cases width with
    | zero => simp at hlen
    | succ width =>
      have hb := b.toNat_lt
      have := ih width (by simpa using hlen)
      rw [List.foldr_cons, Nat.pow_succ]
      omega

/-! ### Reads -/

theorem readHost_eq {off width : ℕ} (h : off + width ≤ m.length) : readHost m off width = some (host m off width) :=
  if_pos h

/-- The value of a field. -/
def field (m : Bytes) (base : ℕ) (f : Field) : ℕ := host m (base + f.off) f.width

theorem readField_eq {base size : ℕ} {f : Field} (hf : f.off + f.width ≤ size) (h : base + size ≤ m.length) :
    readField m base f = some (field m base f) :=
  if_pos (by omega)

/-- A read that stays in the message. -/
theorem peek_rule {β : Type} {x : Option β} {b : β} {f : β → Walk Cur ℤ α} (hx : x = some b)
    (h : wp E (f b) Q c) : wp E (peek x >>= f) Q c :=
  (wp_bind _ _).mpr (wp_peek.mpr ⟨b, hx, h⟩)

theorem get_rule {f : Cur → Walk Cur ℤ α} (h : wp E (f c) Q c) : wp E (get >>= f) Q c := h

theorem set_rule {c' : Cur} {f : PUnit → Walk Cur ℤ α} (h : wp E (f ⟨⟩) Q c') : wp E (set c' >>= f) Q c := h

theorem ite_rule {p : Prop} [Decidable p] {w w' : Walk Cur ℤ α} (h : p → wp E w Q c) (h' : ¬ p → wp E w' Q c) :
    wp E (if p then w else w') Q c := by
  split
  · exact h ‹_›
  · exact h' ‹_›

/-! ### Macros -/

theorem checkSize_rule (hv : -2147483648 ≤ v ∧ v < 4294967296) (h : 0 ≤ v → v ≤ sizeLimit → wp E (f ()) Q c)
    (hE : ¬ (0 ≤ v ∧ v ≤ sizeLimit) → E (-1)) : wp E (checkSize v >>= f) Q c := by
  have hiff := checked_iff hv.1 hv.2
  rw [wp_bind, checkSize, wp_ite]
  split
  · rename_i hbad
    exact hE fun hok => hiff.mpr hok hbad
  · rename_i hok
    exact h (hiff.mp hok).1 (hiff.mp hok).2

theorem addSize_rule (hv : -2147483648 ≤ v ∧ v < 4294967296) (hc : 0 ≤ c.size ∧ c.size ≤ sizeLimit)
    (h : 0 ≤ v → c.size + v ≤ sizeLimit → wp E (f ()) Q { c with size := c.size + v })
    (hE : ¬ (0 ≤ v ∧ c.size + v ≤ sizeLimit) → E (-1)) : wp E (addSize v >>= f) Q c := by
  have hlim : sizeLimit = 50000 := rfl
  rw [wp_bind, addSize]
  refine checkSize_rule hv (fun h0 hle => ?_) fun hbad => hE fun hok => hbad ⟨hok.1, by omega⟩
  have hint : int v = v := int_eq (by omega) (by omega)
  rw [hint]
  refine get_rule (set_rule ?_)
  rw [← wp_bind]
  refine checkSize_rule (by omega) (fun _ hle' => h h0 hle') fun hbad => hE fun hok => hbad ⟨by omega, hok.2⟩

theorem checkLen_rule {l : ℤ} (hv : -2147483648 ≤ v ∧ v < 4294967296) (hl : -2147483648 ≤ l ∧ l < 4294967296)
    (h : 0 ≤ v → v ≤ l → l ≤ sizeLimit → wp E (f ()) Q c) (hE : ¬ (0 ≤ v ∧ v ≤ l ∧ l ≤ sizeLimit) → E (-1)) :
    wp E (checkLen v l >>= f) Q c := by
  have hlim : sizeLimit = 50000 := rfl
  rw [wp_bind, checkLen]
  refine checkSize_rule hv (fun h0 hle => ?_) fun hbad => hE fun hok => hbad ⟨hok.1, by omega⟩
  refine checkSize_rule hl (fun h0' hle' => ?_) fun hbad => hE fun hok => hbad ⟨by omega, hok.2.2⟩
  rw [int_eq (by omega) (by omega), int_eq (by omega) (by omega), wp_ite]
  split
  · exact hE (by omega)
  · exact h h0 (by omega) hle'

theorem returnSize_rule {Q : ℤ → Cur → Prop} (hc : -2147483648 ≤ c.size ∧ c.size < 4294967296)
    (h : 0 ≤ c.size → c.size ≤ sizeLimit → Q c.size c) (hE : ¬ (0 ≤ c.size ∧ c.size ≤ sizeLimit) → E (-1)) :
    wp E returnSize Q c := by
  rw [returnSize]
  exact get_rule (checkSize_rule hc h hE)

theorem castTo_rule {n : ℕ} (h : (n : ℤ) ≤ c.len → wp E (f ()) Q c) (hE : ¬ (n : ℤ) ≤ c.len → E (-1)) :
    wp E (castTo n >>= f) Q c := by
  rw [wp_bind, castTo]
  refine get_rule (ite_rule (fun hgt => hE (by omega)) fun hle => h (by omega))

theorem shiftField_rule {off : ℕ} (hlen : c.len < 2147483648) (hc : 0 ≤ c.size ∧ c.size ≤ sizeLimit)
    (h : 0 < c.len → (off : ℤ) ≤ c.len → c.size + off ≤ sizeLimit →
      wp E (f ()) Q ⟨c.buf + off, c.len - off, c.size + off⟩)
    (hE : ¬ (0 < c.len ∧ (off : ℤ) ≤ c.len ∧ c.size + off ≤ sizeLimit) → E (-1)) :
    wp E (shiftField c.buf off >>= f) Q c := by
  rw [wp_bind, shiftField]
  refine get_rule (ite_rule (fun hbad => hE ?_) fun hok => ite_rule (fun hbad => hE ?_) fun hok' => set_rule ?_)
  · rcases hbad with hlen | hne
    · exact fun hok => by omega
    · exact absurd rfl hne
  · exact fun hok => by omega
  · rw [← wp_bind]
    refine addSize_rule (by omega) hc (fun _ hle => h (by omega) (by omega) hle) fun hbad => hE fun hok => ?_
    exact hbad ⟨by omega, hok.2.2⟩

theorem shiftCnt_rule {cnt : ℤ} (hv : -2147483648 ≤ cnt ∧ cnt < 4294967296) (hlen : c.len < 2147483648)
    (hc : 0 ≤ c.size ∧ c.size ≤ sizeLimit) (h : 0 ≤ cnt → cnt ≤ c.len → c.size + cnt ≤ sizeLimit →
      wp E (f ()) Q ⟨c.buf + cnt.toNat, c.len - cnt, c.size + cnt⟩)
    (hE : ¬ (0 ≤ cnt ∧ cnt ≤ c.len ∧ c.size + cnt ≤ sizeLimit) → E (-1)) : wp E (shiftCnt cnt >>= f) Q c := by
  rw [wp_bind, shiftCnt]
  have hint : (int cnt = cnt ∧ cnt < 2147483648) ∨ (int cnt < 0 ∧ 2147483648 ≤ cnt) := by
    rw [int, Int.bmod]
    split <;> omega
  refine get_rule (ite_rule (fun hbad => hE ?_) fun hok => set_rule ?_)
  · exact fun hok => by omega
  · rw [← wp_bind]
    have heq : int cnt = cnt := by omega
    rw [heq] at hok ⊢
    refine addSize_rule (by omega) hc (fun _ hle => h (by omega) (by omega) hle) fun hbad => hE fun hok' => ?_
    exact hbad ⟨by omega, hok'.2.2⟩

theorem popCnt_rule {cnt : ℕ} (hv : cnt < 2147483648) (hc : 0 ≤ c.size ∧ c.size ≤ sizeLimit)
    (h : (cnt : ℤ) ≤ c.len → c.size + cnt ≤ sizeLimit →
      wp E (f ()) Q { c with len := c.len - cnt, size := c.size + cnt })
    (hE : ¬ ((cnt : ℤ) ≤ c.len ∧ c.size + cnt ≤ sizeLimit) → E (-1)) : wp E (popCnt cnt >>= f) Q c := by
  rw [wp_bind, popCnt]
  have heq : int (cnt : ℤ) = cnt := int_eq (by omega) (by omega)
  rw [heq]
  refine get_rule (ite_rule (fun hbad => hE fun hok => by omega) fun hok => set_rule ?_)
  rw [← wp_bind]
  refine addSize_rule (by omega) hc (fun _ hle => h (by omega) hle) fun hbad => hE fun hok' => ?_
  exact hbad ⟨by omega, hok'.2⟩

theorem lastNul_rule {b : ℕ} {l : ℤ} {Q : ℕ → Cur → Prop} (hb : 1 ≤ l → b + l.toNat ≤ m.length)
    (h : ∀ i : ℕ, 1 ≤ l → l < sizeLimit → HasNul m b l.toNat → (i : ℤ) < l → Q i c)
    (hE : ¬ (1 ≤ l ∧ l < sizeLimit ∧ HasNul m b l.toNat) → E (-1)) : wp E (lastNul m b l) Q c := by
  rw [lastNul]
  refine ite_rule (fun hbad => hE fun hok => by omega) fun hok => ?_
  obtain ⟨r, hr, hiff, hpos⟩ := scanBack_spec m b l.toNat (hb (by omega))
  refine peek_rule hr ?_
  cases r with
  | none =>
    refine wp_leave _ |>.mpr (hE fun hn => ?_)
    have := hiff.mpr hn.2.2
    cases this
  | some i =>
    have hi := (hpos i rfl).1
    exact (wp_pure _).mpr (h i (by omega) (by omega) (hiff.mp rfl) (by omega))

theorem checkString_rule {b : ℕ} {l : ℤ} (hb : 1 ≤ l → b + l.toNat ≤ m.length)
    (h : 1 ≤ l → l < sizeLimit → HasNul m b l.toNat → wp E (f ()) Q c)
    (hE : ¬ (1 ≤ l ∧ l < sizeLimit ∧ HasNul m b l.toNat) → E (-1)) : wp E (checkString m b l >>= f) Q c := by
  rw [wp_bind, checkString, wp_bind]
  exact lastNul_rule hb (fun _ h1 hl hn _ => h h1 hl hn) hE

theorem strings_rule (hb : 1 ≤ c.len → c.buf + c.len.toNat ≤ m.length) (hc : 0 ≤ c.size ∧ c.size ≤ sizeLimit)
    (h : ∀ n : ℕ, (n : ℤ) ≤ c.len → HasNul m c.buf c.len.toNat → c.size + n ≤ sizeLimit →
      wp E (f ()) Q { c with size := c.size + n }) (hE : E (-1)) : wp E (strings m >>= f) Q c := by
  rw [wp_bind, strings]
  refine get_rule ?_
  rw [wp_bind]
  refine lastNul_rule hb (fun i _ hlt hn hi => ?_) fun _ => hE
  have hlim : sizeLimit = 50000 := rfl
  change wp E (addSize (i + 1)) _ c
  rw [← wp_bind]
  exact addSize_rule (by omega) hc (fun _ hle => h (i + 1) (by omega) hn (by omega)) fun _ => hE

/-- SHIFT_STRING goes behind the first NUL byte. -/
theorem shiftString_rule (hb : 1 ≤ c.len → c.buf + c.len.toNat ≤ m.length) (hc : 0 ≤ c.size ∧ c.size ≤ sizeLimit)
    (h : ∀ p, FirstNul m c.buf p → (p : ℤ) < c.buf + c.len → c.size + (p - c.buf + 1 : ℕ) ≤ sizeLimit →
      wp E (f ()) Q ⟨p + 1, c.len - (p - c.buf + 1 : ℕ), c.size + (p - c.buf + 1 : ℕ)⟩)
    (hE : ¬ (c.len < sizeLimit ∧ ∃ p, FirstNul m c.buf p ∧ (p : ℤ) < c.buf + c.len ∧
      c.size + (p - c.buf + 1 : ℕ) ≤ sizeLimit) → E (-1)) : wp E (shiftString m >>= f) Q c := by
  rw [wp_bind, shiftString]
  refine get_rule (ite_rule (fun hbad => hE ?_) fun hok => ?_)
  · rintro ⟨hlt, p, hp, hp', -⟩
    have := hp.le
    omega
  · obtain ⟨r, hr⟩ := scan_inside m c.buf c.len.toNat (hb (by omega))
    refine peek_rule hr ?_
    cases r with
    | none =>
      refine hE ?_
      rintro ⟨-, p, hp, hp', -⟩
      have := hp.le
      obtain ⟨b, hb', h0⟩ := scan_none hr this (by omega)
      exact h0 (Option.some.inj (hb'.symm.trans hp.nul))
    | some p =>
      obtain ⟨hp, hlt⟩ := scan_some hr
      have hle := hp.le
      have hlim : sizeLimit = 50000 := rfl
      refine set_rule ?_
      rw [← wp_bind]
      refine addSize_rule (by omega) hc (fun _ hs => h p hp (by omega) hs) fun hbad => hE ?_
      rintro ⟨-, p', hp', -, hs⟩
      obtain rfl := hp.unique hp'
      exact hbad ⟨by omega, hs⟩

end Anoubis.Daemon.Sizes

import Mathlib.Data.List.GetD
import Mathlib.Tactic.Common

/-! Checks of messages in a buffer.

    A check reads bytes of a buffer and accepts or refuses what it finds; it is `none` where it reads outside
    of the buffer. `Checks p Q` says that `p` never does and accepts only where `Q` holds, `Decides p Q` that
    it accepts exactly there. Strings in the buffer end with a NUL byte, which `scan` looks for:

        off              p        off + n
         │ x │ x │ … │ x │ 0 │ …  │            scan m off n = some (some p)  -/

namespace Anoubis.Lib

open Option

abbrev Check := Option Bool

/-- `if (!c) return 0;` and the rest of the function. -/
def need (c : Prop) [Decidable c] (k : Check) : Check := if c then k else some false

/-- The check ends, and it accepts only where `Q` holds. -/
def Checks (p : Check) (Q : Prop) : Prop := ∃ b, p = some b ∧ (b = true → Q)

/-- The check ends, and it accepts exactly where `Q` holds. -/
def Decides (p : Check) (Q : Prop) : Prop := ∃ b, p = some b ∧ (b = true ↔ Q)

section

variable {c Q Q' : Prop} {p k : Check}

theorem Decides.congr (h : Decides p Q) (hq : Q ↔ Q') : Decides p Q' := by
  obtain ⟨b, hp, hb⟩ := h
  exact ⟨b, hp, hb.trans hq⟩

/-- What a check that decides means. -/
theorem Decides.checks_iff (h : Decides p Q) : Checks p Q' ↔ (Q → Q') := by
  obtain ⟨b, hp, hb⟩ := h
  constructor
  · rintro ⟨b', hp', hb'⟩ hq
    cases hp.symm.trans hp'
    exact hb' (hb.mpr hq)
  · exact fun hq => ⟨b, hp, fun ht => hq (hb.mp ht)⟩

theorem Checks.mono (h : Checks p Q) (hq : Q → Q') : Checks p Q' := by
  obtain ⟨b, hp, hb⟩ := h
  exact ⟨b, hp, fun ht => hq (hb ht)⟩

theorem checks_false : Checks (some false) Q := ⟨false, rfl, by simp⟩

theorem checks_true (h : Q) : Checks (some true) Q := ⟨true, rfl, fun _ => h⟩

theorem checks_decide [Decidable c] (h : c → Q) : Checks (some (decide c)) Q :=
  ⟨_, rfl, fun ht => h (of_decide_eq_true ht)⟩

theorem checks_need [Decidable c] (h : c → Checks k Q) : Checks (need c k) Q := by
  rw [need]
  split
  · exact h ‹_›
  · exact checks_false

theorem decides_false : Decides (some false) False := ⟨false, rfl, by simp⟩

theorem decides_decide [Decidable c] : Decides (some (decide c)) c := ⟨_, rfl, decide_eq_true_iff⟩

theorem decides_need [Decidable c] (h : c → Decides k Q) : Decides (need c k) (c ∧ Q) := by
  rw [need]
  split
  · exact (h ‹_›).congr (iff_and_self.mpr fun _ => ‹_›)
  · exact decides_false.congr (by simp_all)

variable {α : Type} {x : Option α} {f : α → Check}

/-- A read that stays in the buffer, and what follows it. -/
theorem Checks.bind {a : α} (h : x = some a) (hf : Checks (f a) Q) : Checks (x >>= f) Q := by
  subst h
  exact hf

theorem Decides.bind {a : α} (h : x = some a) (hf : Decides (f a) Q) : Decides (x >>= f) Q := by
  subst h
  exact hf

/-- Another check before the rest of the function. -/
theorem Checks.andThen (hp : Checks p Q) (hk : Q → Checks k Q') : Checks (p >>= fun ok => need (ok = true) k) Q' := by
  obtain ⟨b, rfl, hb⟩ := hp
  exact checks_need fun ht => hk (hb ht)

theorem need_pos [Decidable c] (h : c) : need c k = k := if_pos h

theorem need_neg [Decidable c] (h : ¬ c) : need c k = some false := if_neg h

end

/-! ### NUL bytes -/

variable {m : List UInt8} {off n p : ℕ}

/-- The position of the first NUL byte among the `n` bytes from `off` on. -/
def scan (m : List UInt8) : ℕ → ℕ → Option (Option ℕ)
  | _, 0 => some none
  | off, n + 1 =>
    match m[off]? with
    | none => none
    | some b => if b = 0 then some (some off) else scan m (off + 1) n

/-- There is a NUL byte among the `n` bytes from `off` on. -/
def HasNul (m : List UInt8) (off n : ℕ) : Prop := ∃ p, off ≤ p ∧ p < off + n ∧ m[p]? = some 0

/-- The first NUL byte from `off` on stands at `p`. -/
structure FirstNul (m : List UInt8) (off p : ℕ) : Prop where
  le : off ≤ p
  nul : m[p]? = some 0
  first : ∀ q, off ≤ q → q < p → m[q]? ≠ some 0

theorem HasNul.mono {off' n' : ℕ} (h : HasNul m off n) (h₁ : off' ≤ off) (h₂ : off + n ≤ off' + n') :
    HasNul m off' n' := by
  obtain ⟨p, hle, hlt, hp⟩ := h
  exact ⟨p, by omega, by omega, hp⟩

theorem scan_some (h : scan m off n = some (some p)) : FirstNul m off p ∧ p < off + n := by
  induction n generalizing off with
  | zero => cases h
  | succ n ih =>
    rw [scan] at h
    split at h
    · cases h
    · rename_i b hb
      split at h
      · rename_i h0
        cases h
        exact ⟨⟨Nat.le_refl _, h0 ▸ hb, fun q hle hlt => absurd hle (by omega)⟩, by omega⟩
      · rename_i h0
        obtain ⟨hf, hlt⟩ := ih h
        refine ⟨⟨by have := hf.le; omega, hf.nul, fun q hle hq => ?_⟩, by omega⟩
        rcases Nat.eq_or_lt_of_le hle with rfl | hgt
        · rw [hb]
          exact fun h => h0 (some.inj h)
        · exact hf.first q hgt hq

theorem scan_none (h : scan m off n = some none) {q : ℕ} (hle : off ≤ q) (hlt : q < off + n) :
    ∃ b, m[q]? = some b ∧ b ≠ 0 := by
  induction n generalizing off with
  | zero => omega
  | succ n ih =>
    rw [scan] at h
    split at h
    · cases h
    · rename_i b hb
      split at h
      · cases some.inj h
      · rename_i h0
        rcases Nat.eq_or_lt_of_le hle with rfl | hgt
        · exact ⟨b, hb, h0⟩
        · exact ih h hgt (by omega)

/-- Only a search that finds no NUL byte before the end of the buffer leaves it. -/
theorem scan_fails (h : scan m off n = none) : m.length < off + n ∧ 0 < n ∧ ∀ q, off ≤ q → m[q]? ≠ some 0 := by
  induction n generalizing off with
  | zero => cases h
  | succ n ih =>
    rw [scan] at h
    split at h
    · rename_i hb
      have hlen : m.length ≤ off := List.getElem?_eq_none_iff.mp hb
      refine ⟨by omega, by omega, fun q hle => ?_⟩
      rw [List.getElem?_eq_none_iff.mpr (by omega)]
      exact fun h => by cases h
    · rename_i b hb
      split at h
      · cases h
      · rename_i h0
        obtain ⟨hlt, -, hno⟩ := ih h
        refine ⟨by omega, by omega, fun q hle => ?_⟩
        rcases Nat.eq_or_lt_of_le hle with rfl | hgt
        · rw [hb]
          exact fun h => h0 (some.inj h)
        · exact hno q hgt

theorem scan_inside (m : List UInt8) (off n : ℕ) (h : off + n ≤ m.length) : ∃ r, scan m off n = some r := by
  cases hs : scan m off n with
  | none =>
    have := (scan_fails hs).1
    omega
  | some r => exact ⟨r, rfl⟩

/-- Where the search stays in the buffer, it finds what there is. -/
theorem scan_isSome_iff {r : Option ℕ} (h : scan m off n = some r) : r.isSome ↔ HasNul m off n := by
  cases r with
  | none =>
    refine iff_of_false (by simp) ?_
    rintro ⟨p, hle, hlt, hp⟩
    obtain ⟨b, hb, h0⟩ := scan_none h hle hlt
    exact h0 (some.inj (hb.symm.trans hp))
  | some p =>
    obtain ⟨hf, hlt⟩ := scan_some h
    exact iff_of_true rfl ⟨p, hf.le, hlt, hf.nul⟩

theorem FirstNul.unique {p' : ℕ} (h : FirstNul m off p) (h' : FirstNul m off p') : p = p' := by
  rcases Nat.lt_trichotomy p p' with hlt | heq | hgt
  · exact absurd h.nul (h'.first p h.le hlt)
  · exact heq
  · exact absurd h'.nul (h.first p' h'.le hgt)

theorem FirstNul.lt_length (h : FirstNul m off p) : p < m.length := by
  by_contra hge
  have hnul := h.nul
  rw [List.getElem?_eq_none_iff.mpr (by omega)] at hnul
  cases hnul

/-- The number of bytes before the last NUL byte among the `n` bytes from `off` on. -/
def scanBack (m : List UInt8) (off : ℕ) : ℕ → Option (Option ℕ)
  | 0 => some none
  | n + 1 =>
    match m[off + n]? with
    | none => none
    | some b => if b = 0 then some (some n) else scanBack m off n

/-- The search stays in the bytes that it is given, and finds a NUL byte where there is one. -/
theorem scanBack_spec (m : List UInt8) (off n : ℕ) (h : off + n ≤ m.length) :
    ∃ r, scanBack m off n = some r ∧ (r.isSome ↔ HasNul m off n) ∧
      ∀ i, r = some i → i < n ∧ m[off + i]? = some 0 := by
  induction n with
  | zero => exact ⟨none, rfl, iff_of_false (by simp) fun ⟨p, _, _, _⟩ => by omega, by simp⟩
  | succ n ih =>
    have hb : m[off + n]? = some m[off + n] := List.getElem?_eq_getElem (by omega)
    rw [scanBack, hb]
    by_cases h0 : m[off + n] = 0
    · refine ⟨some n, if_pos h0, iff_of_true rfl ⟨off + n, by omega, by omega, h0 ▸ hb⟩, ?_⟩
      intro i hi
      cases hi
      exact ⟨by omega, h0 ▸ hb⟩
    · obtain ⟨r, hr, hiff, hpos⟩ := ih (by omega)
      refine ⟨r, (if_neg h0).trans hr, hiff.trans ?_, fun i hi => ⟨by have := (hpos i hi).1; omega, (hpos i hi).2⟩⟩
      constructor
      · exact fun h => h.mono (Nat.le_refl _) (by omega)
      · rintro ⟨p, hle, hlt, hp⟩
        refine ⟨p, hle, ?_, hp⟩
        by_contra hge
        have hpn : p = off + n := by omega
        rw [hpn, hb] at hp
        exact h0 (some.inj hp)

end Anoubis.Lib

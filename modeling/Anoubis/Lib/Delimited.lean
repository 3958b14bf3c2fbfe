import Mathlib.Data.List.Basic
import Mathlib.Tactic.Common

/-! Codes whose words tell where they end.

    A stream of such words can be read in one way only:

        enc a ++ enc b ++ rest      a, b and the words of the rest -/

namespace Anoubis.Lib

open List

variable {α β : Type} {enc : α → List β} {P : α → Prop}

/-- Of two streams that are the same, the first words are the same if both are in `P`. -/
structure Delimited (enc : α → List β) (P : α → Prop) : Prop where
  ne : ∀ a, enc a ≠ []
  inj : ∀ a b x y, P a → P b → enc a ++ x = enc b ++ y → a = b ∧ x = y

/-- Words in front of a stream are the first words of the stream. -/
theorem Delimited.split (hd : Delimited enc P) {as bs : List α} {x : List β} (ha : ∀ a ∈ as, P a) (hb : ∀ b ∈ bs, P b)
    (h : as.flatMap enc ++ x = bs.flatMap enc) : ∃ cs, bs = as ++ cs ∧ x = cs.flatMap enc := by
  induction as generalizing bs with
  | nil => exact ⟨bs, rfl, h⟩
  | cons a as ih =>
    rw [flatMap_cons, append_assoc] at h
    cases bs with
    | nil => exact absurd (append_eq_nil_iff.mp h).1 (hd.ne a)
    | cons b bs =>
      obtain ⟨rfl, hrest⟩ := hd.inj a b _ _ (ha a mem_cons_self) (hb b mem_cons_self) h
      obtain ⟨cs, rfl, hx⟩ :=
        ih (fun y hy => ha y (mem_cons_of_mem a hy)) (fun y hy => hb y (mem_cons_of_mem a hy)) hrest
      exact ⟨cs, rfl, hx⟩

end Anoubis.Lib

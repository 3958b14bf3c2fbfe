import Mathlib.Algebra.Group.Int.Defs
import Mathlib.Data.List.Forall2

/-! Lists with holes, and loops over them.

    A filter leaves a hole where it removes an element. A loop calls something for each element that is left, up to
    the first call that fails:

        elements   a   b   c   d   e
        left       a   –   c   d   e
        calls      a ✓     c ✓ d ✗                                                        -/

namespace Anoubis.Lib

open List

variable {α : Type*} {K K' : α → Prop} {l : List α} {out : List (Option α)}

/-- The elements of which `K` holds are left, and there are holes for the others. -/
def Leaves (K : α → Prop) (l : List α) (out : List (Option α)) : Prop :=
  List.Forall₂ (fun x entry => entry = some x ∧ K x ∨ entry = none ∧ ¬ K x) l out

theorem leaves_nil : Leaves K [] [] := List.Forall₂.nil

theorem Leaves.cons_some {x : α} (h : Leaves K l out) (hx : K x) : Leaves K (x :: l) (some x :: out) :=
  List.Forall₂.cons (.inl ⟨rfl, hx⟩) h

theorem Leaves.cons_none {x : α} (h : Leaves K l out) (hx : ¬ K x) : Leaves K (x :: l) (none :: out) :=
  List.Forall₂.cons (.inr ⟨rfl, hx⟩) h

/-- What is left tells which elements are wanted. -/
theorem Leaves.iff (h : Leaves K l out) : Leaves K' l out ↔ ∀ x ∈ l, K x ↔ K' x := by
  induction h with
  | nil => exact iff_of_true leaves_nil fun x hx => absurd hx not_mem_nil
  | @cons x entry l out hx _ ih =>
    rw [Leaves, forall₂_cons, ← Leaves, ih, forall_mem_cons]
    refine and_congr_left fun _ => ?_
    rcases hx with ⟨rfl, hx⟩ | ⟨rfl, hx⟩
    · simp [hx]
    · simp [hx]

/-- More elements are removed. -/
theorem Leaves.remove (h : Leaves K l out) (p : α → Bool) : Leaves (fun x => K x ∧ p x = false) l
      (out.map fun entry => entry.bind fun x => if p x then none else some x) := by
  induction h with
  | nil => exact leaves_nil
  | @cons x entry l out hx _ ih =>
    rcases hx with ⟨rfl, hx⟩ | ⟨rfl, hx⟩
    · cases hp : p x with
      | true =>
        rw [map_cons, Option.bind_some, hp, if_pos rfl]
        exact ih.cons_none fun hk => Bool.false_ne_true (hk.2.symm.trans hp)
      | false =>
        rw [map_cons, Option.bind_some, hp, if_neg Bool.false_ne_true]
        exact ih.cons_some ⟨hx, hp⟩
    · exact ih.cons_none fun hk => hx hk.1

/-! ### Calls -/

/-- Calls with their results: one for each element, in their order, up to the first call that fails. -/
inductive UpToFailure : List α → List (α × ℤ) → Prop
  | done : UpToFailure [] []
  | failed (x : α) (l : List α) (ret : ℤ) (h : ret ≠ 0) : UpToFailure (x :: l) [(x, ret)]
  | next (x : α) {l : List α} {log : List (α × ℤ)} (h : UpToFailure l log) : UpToFailure (x :: l) ((x, 0) :: log)

theorem upToFailure_nil : UpToFailure l [] ↔ l = [] := by
  constructor
  · intro h
    cases h
    rfl
  · rintro rfl
    exact .done

theorem upToFailure_cons {x : α} {log : List (α × ℤ)} : UpToFailure (x :: l) ((x, 0) :: log) ↔ UpToFailure l log := by
  constructor
  · intro h
    cases h with
    | failed _ _ _ h => exact absurd rfl h
    | next _ h => exact h
  · exact .next x

end Anoubis.Lib

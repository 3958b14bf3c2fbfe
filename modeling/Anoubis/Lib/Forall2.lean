import Mathlib.Data.List.Forall2

/-! Lists that are related element by element: every element has a partner in the other list. -/

namespace Anoubis.Lib

variable {α β : Type*} {R : α → β → Prop} {l : List α} {l' : List β}

theorem forall₂_right (h : List.Forall₂ R l l') {x : α} (hx : x ∈ l) : ∃ y ∈ l', R x y := by
  induction h with
  | nil => cases hx
  | cons hxy _ ih =>
    rcases List.mem_cons.mp hx with rfl | hx
    · exact ⟨_, List.mem_cons_self, hxy⟩
    · obtain ⟨y, hy, hr⟩ := ih hx
      exact ⟨y, List.mem_cons_of_mem _ hy, hr⟩

theorem forall₂_left (h : List.Forall₂ R l l') {y : β} (hy : y ∈ l') : ∃ x ∈ l, R x y :=
  forall₂_right h.flip hy

end Anoubis.Lib

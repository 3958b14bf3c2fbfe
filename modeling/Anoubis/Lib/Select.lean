import Mathlib.Data.List.Lemmas

/-! Selections from a list: when a shorter list stands for a longer one.

    A consumer that skips some elements cannot tell a list from any selection that keeps the others
    in order. `Selects p l l'` says that `l'` is such a selection. -/

namespace Anoubis.Lib

open List

variable {α β : Type*}

/-- Two lists that are sorted by the same strict relation: inclusion is selection. -/
theorem sublist_of_pairwise {r : α → α → Prop} (hr : ∀ a b, r a b → ¬ r b a) {l₁ l₂ : List α}
    (h₁ : l₁.Pairwise r) (h₂ : l₂.Pairwise r) (hsub : ∀ x ∈ l₁, x ∈ l₂) : l₁.Sublist l₂ := by
  induction l₂ generalizing l₁ with
  | nil =>
    have hnil : l₁ = [] := eq_nil_iff_forall_not_mem.mpr fun x hx => by simpa using hsub x hx
    rw [hnil]
  | cons b l₂ ih =>
    rw [pairwise_cons] at h₂
    cases l₁ with
    | nil => exact nil_sublist _
    | cons a l₁ =>
      rw [pairwise_cons] at h₁
      rcases mem_cons.mp (hsub a mem_cons_self) with rfl | ha
      · refine List.Sublist.cons_cons a (ih h₁.2 h₂.2 fun x hx => ?_)
        rcases mem_cons.mp (hsub x (mem_cons_of_mem _ hx)) with rfl | hm
        · exact absurd (h₁.1 x hx) (fun h => hr _ _ h h)
        · exact hm
      · refine List.Sublist.cons b (ih (pairwise_cons.mpr h₁) h₂.2 fun x hx => ?_)
        rcases mem_cons.mp (hsub x hx) with rfl | hm
        · rcases mem_cons.mp hx with rfl | hx'
          · exact ha
          · exact absurd (h₂.1 a ha) (hr _ _ (h₁.1 x hx'))
        · exact hm

/-- `l'` is a selection from `l` that keeps every element satisfying `p`. -/
structure Selects (p : α → Bool) (l l' : List α) : Prop where
  sub : l'.Sublist l
  keep : (l.filter p).Sublist l'

variable {p : α → Bool} {l' : List α}

theorem Selects.filter_eq {l : List α} (h : Selects p l l') : l'.filter p = l.filter p := by
  refine List.Sublist.antisymm (h.sub.filter p) ?_
  have hk := h.keep.filter p
  rwa [filter_filter, filter_congr (fun x _ => Bool.and_self (p x))] at hk

theorem Selects.mem {l : List α} (h : Selects p l l') {x : α} (hx : x ∈ l) (hp : p x = true) : x ∈ l' :=
  h.keep.subset (mem_filter.mpr ⟨hx, hp⟩)

/-- A consumer of lists with a state: on the empty list it returns `e s`, and it skips elements
    without `p` in every state. -/
theorem run_filter {σ : Type*} (f : σ → List α → β) (hskip : ∀ s x l, p x = false → f s (x :: l) = f s l)
    (hcons : ∀ x l l', (∀ s, f s l = f s l') → ∀ s, f s (x :: l) = f s (x :: l')) (l : List α) :
    ∀ s, f s l = f s (l.filter p) := by
  induction l with
  | nil => intro s; rfl
  | cons x l ih =>
    intro s
    cases hp : p x with
    | false => rw [hskip s x l hp, filter_cons_of_neg (by simp [hp]), ih]
    | true =>
      rw [filter_cons_of_pos hp]
      exact hcons x l _ ih s

/-- Such a consumer gives the same result on a selection as on the whole list. -/
theorem Selects.run_eq {σ : Type*} {l : List α} (h : Selects p l l') (f : σ → List α → β)
    (hskip : ∀ s x l, p x = false → f s (x :: l) = f s l)
    (hcons : ∀ x l l', (∀ s, f s l = f s l') → ∀ s, f s (x :: l) = f s (x :: l')) (s : σ) : f s l' = f s l := by
  rw [run_filter f hskip hcons l s, run_filter f hskip hcons l' s, h.filter_eq]

end Anoubis.Lib

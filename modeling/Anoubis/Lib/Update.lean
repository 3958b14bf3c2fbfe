import Mathlib.Data.List.Lemmas
import Mathlib.Data.List.Perm.Basic

/-! Updates of linked lists.

    A list element is found by a test and changed, removed or used as the place of an insertion. Up to
    order such an update replaces one element:

        l ~ a :: rest   ⟹   modifyFirst p f l ~ f a :: rest                  -/

namespace Anoubis.Lib

open List

variable {α β : Type*}

/-- Change the first element that satisfies `p`. -/
def modifyFirst (p : α → Bool) (f : α → α) : List α → List α
  | [] => []
  | a :: l => if p a then f a :: l else a :: modifyFirst p f l

/-- TAILQ_INSERT_BEFORE: insert in front of the first element that satisfies `p`. -/
def insertBefore (p : α → Bool) (x : α) : List α → List α
  | [] => []
  | a :: l => if p a then x :: a :: l else a :: insertBefore p x l

variable {p : α → Bool} {l : List α} {a : α}

theorem modifyFirst_eq_self (h : l.find? p = none) (f : α → α) : modifyFirst p f l = l := by
  induction l with
  | nil => rfl
  | cons b l ih =>
    rw [find?_eq_none] at h
    rw [modifyFirst, if_neg (h b mem_cons_self)]
    rw [ih (find?_eq_none.mpr fun a ha => h a (mem_cons_of_mem b ha))]

/-- A view that the change does not touch. -/
theorem map_modifyFirst {g : α → β} {f : α → α} (h : ∀ a, g (f a) = g a) (p : α → Bool) (l : List α) :
    (modifyFirst p f l).map g = l.map g := by
  induction l with
  | nil => rfl
  | cons b l ih =>
    rw [modifyFirst]
    by_cases hb : p b = true
    · rw [if_pos hb, map_cons, map_cons, h b]
    · rw [if_neg hb, map_cons, map_cons, ih]

/-- The first element that satisfies `p`, and the others. -/
theorem exists_modifyFirst (h : l.find? p = some a) (f : α → α) :
    ∃ rest, l.Perm (a :: rest) ∧ (modifyFirst p f l).Perm (f a :: rest) := by
  induction l with
  | nil => simp at h
  | cons b l ih =>
    by_cases hb : p b = true
    · rw [find?_cons_of_pos hb] at h
      cases h
      exact ⟨l, .refl _, by rw [modifyFirst, if_pos hb]⟩
    · rw [find?_cons_of_neg hb] at h
      obtain ⟨rest, hl, hm⟩ := ih h
      refine ⟨b :: rest, ?_, ?_⟩
      · exact (hl.cons b).trans (List.Perm.swap a b rest)
      · rw [modifyFirst, if_neg hb]
        exact (hm.cons b).trans (List.Perm.swap (f a) b rest)

theorem insertBefore_perm (h : ∃ a ∈ l, p a = true) (x : α) : (insertBefore p x l).Perm (x :: l) := by
  induction l with
  | nil => simp at h
  | cons b l ih =>
    rw [insertBefore]
    by_cases hb : p b = true
    · rw [if_pos hb]
    · rw [if_neg hb]
      obtain ⟨a, ha, hpa⟩ := h
      rcases mem_cons.mp ha with rfl | ha
      · exact absurd hpa hb
      · exact ((ih ⟨a, ha, hpa⟩).cons b).trans (List.Perm.swap x b l)

/-- The place of an insertion. -/
theorem insertBefore_append {pre post : List α} (hpre : ∀ b ∈ pre, ¬ p b = true) (ha : p a = true) (x : α) :
    insertBefore p x (pre ++ a :: post) = pre ++ x :: a :: post := by
  induction pre with
  | nil => exact if_pos ha
  | cons b pre ih =>
    rw [cons_append, insertBefore, if_neg (hpre b mem_cons_self),
      ih fun c hc => hpre c (mem_cons_of_mem _ hc), cons_append]

/-- `eraseP` removes the first hit and nothing else. -/
theorem exists_eraseP (h : l.find? p = some a) : l.Perm (a :: l.eraseP p) := by
  induction l with
  | nil => simp at h
  | cons b l ih =>
    by_cases hb : p b = true
    · rw [find?_cons_of_pos hb] at h
      cases h
      rw [eraseP_cons_of_pos hb]
    · rw [find?_cons_of_neg hb] at h
      rw [eraseP_cons_of_neg hb]
      exact ((ih h).cons b).trans (List.Perm.swap a b _)

/-- Removal by a key that no two elements share. -/
theorem mem_eraseP_key [DecidableEq β] {f : α → β} (h : (l.map f).Nodup) {k : β} :
    a ∈ l.eraseP (fun x => f x == k) ↔ a ∈ l ∧ f a ≠ k := by
  induction l with
  | nil => simp
  | cons b l ih =>
    rw [map_cons, nodup_cons] at h
    by_cases hb : f b = k
    · rw [eraseP_cons_of_pos (by simpa using hb), mem_cons]
      constructor
      · intro ha
        refine ⟨.inr ha, fun hak => h.1 ?_⟩
        rw [hb, ← hak]
        exact mem_map_of_mem ha
      · rintro ⟨rfl | ha, hne⟩
        · exact absurd hb hne
        · exact ha
    · rw [eraseP_cons_of_neg (by simpa using hb), mem_cons, mem_cons, ih h.2]
      constructor
      · rintro (rfl | ⟨ha, hne⟩)
        · exact ⟨.inl rfl, hb⟩
        · exact ⟨.inr ha, hne⟩
      · rintro ⟨rfl | ha, hne⟩
        · exact .inl rfl
        · exact .inr ⟨ha, hne⟩

/-- Lookup by a key that no two elements share. -/
theorem find?_key [DecidableEq β] {f : α → β} (h : (l.map f).Nodup) (ha : a ∈ l) :
    l.find? (fun x => f x == f a) = some a := by
  induction l with
  | nil => cases ha
  | cons b l ih =>
    rw [map_cons, nodup_cons] at h
    rcases mem_cons.mp ha with rfl | ha
    · rw [find?_cons_of_pos (by simp)]
    · have hne : f b ≠ f a := fun he => h.1 (he ▸ mem_map_of_mem ha)
      rw [find?_cons_of_neg (by simpa using hne)]
      exact ih h.2 ha

end Anoubis.Lib

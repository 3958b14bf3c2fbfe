import Mathlib.Data.List.Basic

/-! The only element of a list that hits.

    A search finds the first element that hits, and which one that is depends on the order of the list. If only one
    element hits, the order does not matter. -/

namespace Anoubis.Lib

open List

variable {α : Type} {p q : α → Bool} {a : α} {l l' : List α}

/-- The element that hits, if there is just one. -/
def theOnly (p : α → Bool) (l : List α) : Option α := if l.countP p = 1 then l.find? p else none

/-- An element hits, and no other one does. -/
theorem countP_eq_one_iff : l.countP p = 1 ↔ ∃ a, l.filter p = [a] := by
  rw [countP_eq_length_filter, length_eq_one_iff]

theorem find?_of_filter (h : l.filter p = [a]) : l.find? p = some a := by
  rw [← head?_filter, h, head?_cons]

theorem eq_of_filter {b : α} (h : l.filter p = [a]) (hb : b ∈ l) (hp : p b = true) : b = a := by
  have hmem : b ∈ l.filter p := mem_filter.mpr ⟨hb, hp⟩
  rwa [h, mem_singleton] at hmem

theorem theOnly_eq_some_iff : theOnly p l = some a ↔ l.filter p = [a] := by
  rw [theOnly]
  constructor
  · intro h
    split at h
    · rename_i hone
      obtain ⟨b, hb⟩ := countP_eq_one_iff.mp hone
      rw [find?_of_filter hb] at h
      rw [hb, Option.some.inj h]
    · cases h
  · intro h
    rw [if_pos (countP_eq_one_iff.mpr ⟨a, h⟩), find?_of_filter h]

theorem isSome_theOnly : (theOnly p l).isSome ↔ l.countP p = 1 := by
  rw [Option.isSome_iff_exists, countP_eq_one_iff]
  exact exists_congr fun a => theOnly_eq_some_iff

theorem theOnly_perm (h : l.Perm l') : theOnly p l = theOnly p l' := by
  refine Option.ext fun a => ?_
  rw [theOnly_eq_some_iff, theOnly_eq_some_iff]
  have hf := h.filter p
  exact ⟨fun ha => (singleton_perm.mp (ha ▸ hf)).symm, fun ha => (singleton_perm.mp (ha ▸ hf.symm)).symm⟩

theorem filter_theOnly (h : ∀ a ∈ l, p a = true → l.countP p = 1 → q a = true) :
    (theOnly p l).filter q = theOnly p l := by
  refine Option.ext fun a => ?_
  rw [Option.filter_eq_some_iff]
  refine and_iff_left_of_imp fun ha => ?_
  have hone := theOnly_eq_some_iff.mp ha
  obtain ⟨hmem, hp⟩ := mem_filter.mp (hone ▸ mem_singleton_self a)
  exact h a hmem hp (countP_eq_one_iff.mpr ⟨a, hone⟩)

/-- The first element that hits and passes a test is the only one that hits, if it has to be. -/
theorem find?_and_eq (h : ∀ a ∈ l, p a = true → q a = true → l.countP p = 1) :
    l.find? (fun a => p a && q a) = (theOnly p l).filter q := by
  refine Option.ext fun a => ?_
  rw [Option.filter_eq_some_iff, theOnly_eq_some_iff]
  constructor
  · intro ha
    have hmem := mem_of_find?_eq_some ha
    have hpq := find?_some ha
    rw [Bool.and_eq_true] at hpq
    obtain ⟨b, hb⟩ := countP_eq_one_iff.mp (h a hmem hpq.1 hpq.2)
    exact ⟨eq_of_filter hb hmem hpq.1 ▸ hb, hpq.2⟩
  · rintro ⟨hone, hq⟩
    refine find?_of_filter ?_
    rw [← filter_filter, filter_comm, hone]
    simp [hq]

/-- The same for a search that looks at the first hit only. -/
theorem find?_filter_eq (h : ∀ a ∈ l, p a = true → q a = true → l.countP p = 1) :
    (l.find? p).filter q = (theOnly p l).filter q := by
  refine Option.ext fun a => ?_
  rw [Option.filter_eq_some_iff, Option.filter_eq_some_iff, theOnly_eq_some_iff]
  refine and_congr_left fun hq => ⟨fun ha => ?_, find?_of_filter⟩
  have hmem := mem_of_find?_eq_some ha
  obtain ⟨b, hb⟩ := countP_eq_one_iff.mp (h a hmem (find?_some ha) hq)
  exact eq_of_filter hb hmem (find?_some ha) ▸ hb

end Anoubis.Lib

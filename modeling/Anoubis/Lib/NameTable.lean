import Mathlib.Data.Finset.Card
import Mathlib.Data.List.AList

/-! Tables of names.

    Every name refers to one object, and an object has as many links as names refer to it.

        a -> 5        links 5 = {a, b}        move a c        b -> 5        links 5 = {b, c}
        b -> 5        links 7 = {c}          --------->       c -> 5        links 7 = {}
        c -> 7                                                                                 -/

namespace Anoubis.Lib

open Finset

/-- The names and what they refer to. -/
abbrev NameTable (κ ι : Type) := AList fun _ : κ => ι

namespace NameTable

variable {κ ι : Type} [DecidableEq κ] {t : NameTable κ ι} {k k' : κ} {i j : ι}

/-- A name goes. -/
def drop (t : NameTable κ ι) (k : κ) : NameTable κ ι := t.erase k

/-- What one name refers to gets another name; what had that name before loses it. -/
def move (t : NameTable κ ι) (k k' : κ) (i : ι) : NameTable κ ι := (t.erase k).insert k' i

theorem lookup_drop (x : κ) : (t.drop k).lookup x = if x = k then none else t.lookup x := by
  by_cases h : x = k
  · rw [if_pos h, h, drop, AList.lookup_erase]
  · rw [if_neg h, drop, AList.lookup_erase_ne h]

theorem lookup_move (x : κ) :
    (t.move k k' i).lookup x = if x = k' then some i else if x = k then none else t.lookup x := by
  by_cases h : x = k'
  · rw [if_pos h, h, move, AList.lookup_insert]
  · rw [if_neg h, move, AList.lookup_insert_ne h]
    exact lookup_drop x

variable [DecidableEq ι]

/-- The names of an object. -/
def links (t : NameTable κ ι) (i : ι) : Finset κ := t.keys.toFinset.filter fun k => t.lookup k = some i

@[simp] theorem mem_links : k ∈ t.links i ↔ t.lookup k = some i := by
  rw [links, mem_filter, List.mem_toFinset, ← AList.mem_keys, ← AList.lookup_isSome]
  constructor
  · exact fun h => h.2
  · exact fun h => ⟨by rw [h]; rfl, h⟩

theorem links_drop : (t.drop k).links i = (t.links i).erase k := by
  ext x
  rw [mem_links, lookup_drop, mem_erase, mem_links]
  by_cases h : x = k
  · simp [h]
  · simp [h]

/-- The object has its new name for the old one. -/
theorem links_move : (t.move k k' i).links i = insert k' ((t.links i).erase k) := by
  ext x
  rw [mem_links, lookup_move, mem_insert, mem_erase, mem_links]
  by_cases h : x = k'
  · simp [h]
  · by_cases hk : x = k
    · simp [hk]
    · simp [h, hk]

/-- Other objects get no name. -/
theorem links_move_subset (h : i ≠ j) : (t.move k k' i).links j ⊆ t.links j := by
  intro x hx
  rw [mem_links, lookup_move] at hx
  rw [mem_links]
  by_cases hk' : x = k'
  · rw [if_pos hk'] at hx
    exact absurd (Option.some.inj hx) h
  · rw [if_neg hk'] at hx
    by_cases hk : x = k
    · rw [if_pos hk] at hx
      exact absurd hx (by simp)
    · rwa [if_neg hk] at hx

theorem card_links_drop_le : ((t.drop k).links i).card ≤ (t.links i).card := by
  rw [links_drop]
  exact card_erase_le

/-- A move makes no links. -/
theorem card_links_move_le (h : t.lookup k = some i) : ((t.move k k' i).links j).card ≤ (t.links j).card := by
  by_cases hij : i = j
  · rw [← hij, links_move]
    have hcard := card_erase_add_one (mem_links.mpr h)
    have hins := card_insert_le k' ((t.links i).erase k)
    omega
  · exact card_le_card (links_move_subset hij)

end NameTable

end Anoubis.Lib

import Mathlib.Data.List.Nodup

/-! Hash tables with an order of eviction.

    Every entry stands in the chain of its slot and in one list, the least recently used one in front. The two
    are changed together:

        order   a - b - c - d          insert: at the end, and in front of its chain
        tab 0   c - a                  touch:  moved there
        tab 1   d - b                  trim:   from the front -/

namespace Anoubis.Lib

open List

/-- A table: the chains, the order, and a counter of the entries. -/
structure LruTable (α : Type) where
  tab : ℕ → List α
  order : List α
  count : ℕ

namespace LruTable

variable {α : Type} [DecidableEq α] (slot : α → ℕ)

def empty : LruTable α := ⟨fun _ => [], [], 0⟩

/-- An entry leaves its chain and the order. -/
def remove (t : LruTable α) (a : α) : LruTable α where
  tab := Function.update t.tab (slot a) ((t.tab (slot a)).erase a)
  order := t.order.erase a
  count := t.count - 1

/-- A new entry. -/
def insert (t : LruTable α) (a : α) : LruTable α where
  tab := Function.update t.tab (slot a) (a :: t.tab (slot a))
  order := t.order ++ [a]
  count := t.count + 1

/-- An entry that has been used. -/
def touch (t : LruTable α) (a : α) : LruTable α where
  tab := Function.update t.tab (slot a) (a :: (t.tab (slot a)).erase a)
  order := t.order.erase a ++ [a]
  count := t.count

/-- While the counter is above `max`, the first entry in the order goes; at most `n` times. -/
def trim (max : ℕ) : ℕ → LruTable α → LruTable α
  | 0, t => t
  | n + 1, t =>
    if t.count > max then
      match t.order with
      | [] => t
      | a :: _ => trim max n (t.remove slot a)
    else t

/-- While there is a first entry, it goes; at most `n` times. -/
def flush : ℕ → LruTable α → LruTable α
  | 0, t => t
  | n + 1, t =>
    match t.order with
    | [] => t
    | a :: _ => flush n (t.remove slot a)

/-- Chains, order and counter agree. -/
structure Sound (t : LruTable α) : Prop where
  nodup : t.order.Nodup
  chain : ∀ s, (t.tab s).Perm (t.order.filter fun a => slot a = s)
  count : t.count = t.order.length

variable {slot} {t : LruTable α} {a b : α}
variable {s : ℕ} {l : List α} {p : α → Bool}

omit [DecidableEq α] in
theorem Sound.mem_tab (h : Sound slot t) : a ∈ t.tab s ↔ a ∈ t.order ∧ slot a = s := by
  rw [(h.chain s).mem_iff, mem_filter, decide_eq_true_iff]

omit [DecidableEq α] in
theorem sound_empty : Sound slot (empty : LruTable α) where
  nodup := nodup_nil
  chain _ := .refl _
  count := rfl

omit [DecidableEq α] in
theorem filter_slot_ne (h : slot a ≠ s) : (l ++ [a]).filter (fun b => slot b = s) = l.filter fun b => slot b = s := by
  rw [filter_append, filter_cons_of_neg (by simpa using h), filter_nil, append_nil]

theorem filter_erase_ne (h : slot a ≠ s) :
    (l.erase a).filter (fun b => slot b = s) = l.filter fun b => slot b = s := by
  induction l with
  | nil => rfl
  | cons b l ih =>
    rw [erase_cons]
    split
    · rename_i hb
      rw [filter_cons_of_neg (by rw [LawfulBEq.eq_of_beq hb]; simpa using h)]
    · rw [filter_cons, filter_cons, ih]

theorem filter_erase_self :
    (l.erase a).filter (fun b => slot b = slot a) = (l.filter fun b => slot b = slot a).erase a := by
  induction l with
  | nil => rfl
  | cons b l ih =>
    rw [erase_cons]
    split
    · rename_i hb
      have hb := LawfulBEq.eq_of_beq hb
      subst hb
      rw [filter_cons_of_pos (by simp), erase_cons_head]
    · rename_i hb
      rw [filter_cons, filter_cons, ih]
      split
      · rw [erase_cons_tail (by simpa using hb)]
      · rfl

theorem Sound.remove (h : Sound slot t) (ha : a ∈ t.order) : Sound slot (t.remove slot a) where
  nodup := h.nodup.erase a
  chain s := by
    by_cases hs : slot a = s
    · subst hs
      simp only [LruTable.remove, Function.update_self]
      rw [filter_erase_self]
      exact (h.chain _).erase a
    · simp only [LruTable.remove, Function.update_of_ne (Ne.symm hs)]
      rw [filter_erase_ne hs]
      exact h.chain s
  count := by
    rw [LruTable.remove, h.count, length_erase_of_mem ha]

omit [DecidableEq α] in
theorem Sound.insert (h : Sound slot t) (ha : a ∉ t.order) : Sound slot (t.insert slot a) where
  nodup := nodup_append.mpr ⟨h.nodup, nodup_singleton a, by
    intro b hb c hc
    rw [mem_singleton.mp hc]
    rintro rfl
    exact ha hb⟩
  chain s := by
    by_cases hs : slot a = s
    · subst hs
      simp only [LruTable.insert, Function.update_self]
      rw [filter_append, filter_cons_of_pos (by simp), filter_nil]
      refine ((h.chain _).cons a).trans ?_
      rw [← singleton_append]
      exact perm_append_comm
    · simp only [LruTable.insert, Function.update_of_ne (Ne.symm hs)]
      rw [filter_slot_ne hs]
      exact h.chain s
  count := by simp [LruTable.insert, h.count]

theorem order_touch (ha : a ∈ t.order) : (t.touch slot a).order.Perm t.order :=
  (perm_append_comm.trans (perm_cons_erase ha).symm)

omit [DecidableEq α] in
/-- A search of the chain finds an entry of the table. -/
theorem Sound.found (h : Sound slot t) (hfind : (t.tab s).find? p = some a) : a ∈ t.order ∧ slot a = s ∧ p a = true :=
  ⟨(h.mem_tab.mp (mem_of_find?_eq_some hfind)).1, (h.mem_tab.mp (mem_of_find?_eq_some hfind)).2,
    find?_some hfind⟩

omit [DecidableEq α] in
/-- A search that finds nothing has seen all entries of the slot. -/
theorem Sound.not_found (h : Sound slot t) (hfind : (t.tab s).find? p = none) (hb : b ∈ t.order) (hs : slot b = s) :
    p b = false := by
  have := find?_eq_none.mp hfind b (h.mem_tab.mpr ⟨hb, hs⟩)
  simpa using this

/-- A used entry is taken out and put in again. -/
theorem touch_eq (ha : a ∈ t.order) (hcount : t.count = t.order.length) :
    t.touch slot a = (t.remove slot a).insert slot a := by
  have hpos : 0 < t.order.length := length_pos_of_mem ha
  rw [LruTable.touch, LruTable.insert, LruTable.remove]
  congr 1
  · simp
  · exact (Nat.sub_add_cancel (by omega)).symm

theorem Sound.touch (h : Sound slot t) (ha : a ∈ t.order) : Sound slot (t.touch slot a) := by
  rw [touch_eq ha h.count]
  exact (h.remove ha).insert fun hmem => (List.Nodup.mem_erase_iff h.nodup).mp hmem |>.1 rfl

/-- What trimming leaves: the entries that were used last. -/
theorem Sound.trim {max : ℕ} (n : ℕ) (h : Sound slot t) (hn : t.count ≤ max + n) :
    Sound slot (t.trim slot max n) ∧ (t.trim slot max n).count ≤ max ∧
      ∀ b ∈ (t.trim slot max n).order, b ∈ t.order := by
  induction n generalizing t with
  | zero => exact ⟨h, hn, fun b hb => hb⟩
  | succ n ih =>
    rw [LruTable.trim]
    split
    · have hpos := h.count
      split
      · rename_i horder
        rw [horder] at hpos
        simp only [length_nil] at hpos
        omega
      · rename_i a rest horder
        have ha : a ∈ t.order := by simp [horder]
        obtain ⟨hs, hle, hmem⟩ := ih (h.remove ha) (by rw [LruTable.remove]; dsimp only; omega)
        exact ⟨hs, hle, fun b hb => mem_of_mem_erase (hmem b hb)⟩
    · exact ⟨h, by omega, fun b hb => hb⟩

theorem Sound.flush (n : ℕ) (h : Sound slot t) (hn : t.order.length ≤ n) :
    Sound slot (t.flush slot n) ∧ (t.flush slot n).order = [] := by
  induction n generalizing t with
  | zero => exact ⟨h, eq_nil_of_length_eq_zero (Nat.le_zero.mp hn)⟩
  | succ n ih =>
    rw [LruTable.flush]
    split
    · rename_i horder
      exact ⟨h, horder⟩
    · rename_i a rest horder
      have ha : a ∈ t.order := by simp [horder]
      refine ih (h.remove ha) ?_
      rw [LruTable.remove]
      simp only [length_erase_of_mem ha]
      omega

end LruTable

end Anoubis.Lib

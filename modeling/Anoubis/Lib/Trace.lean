import Mathlib.Data.List.Induction

/-! Traces.

    A trace is the list of what a program did, oldest first. `AtEach P l` says of every entry that `P`
    holds between the entries before it and the entry itself; a program that appends to its trace keeps
    it by looking at the new entry only. -/

namespace Anoubis.Lib

open List

variable {α : Type}

/-- `P` relates every entry to those before it. -/
def AtEach (P : List α → α → Prop) (l : List α) : Prop :=
  ∀ pre x post, l = pre ++ x :: post → P pre x

theorem atEach_nil (P : List α → α → Prop) : AtEach P [] := by
  intro pre x post h
  simp at h

variable {l : List α} {P : List α → α → Prop}

/-- Where an entry of a longer trace stands. -/
theorem concat_eq_split {pre post : List α} {x y : α} (h : l ++ [y] = pre ++ x :: post) :
    (post = [] ∧ pre = l ∧ x = y) ∨ ∃ post', post = post' ++ [y] ∧ l = pre ++ x :: post' := by
  cases post using List.reverseRecOn with
  | nil =>
    obtain ⟨rfl, hy⟩ := append_inj' h rfl
    exact .inl ⟨rfl, rfl, ((List.cons.inj hy).1).symm⟩
  | append_singleton post' z =>
    rw [← cons_append, ← append_assoc] at h
    obtain ⟨rfl, hz⟩ := append_inj' h rfl
    obtain rfl : y = z := (List.cons.inj hz).1
    exact .inr ⟨post', rfl, rfl⟩

theorem exists_mem_concat {Q : α → Prop} {y : α} : (∃ x ∈ l ++ [y], Q x) ↔ (∃ x ∈ l, Q x) ∨ Q y := by
  simp [or_and_right, exists_or]

theorem atEach_concat {y : α} (h : AtEach P l) (hy : P l y) : AtEach P (l ++ [y]) := by
  intro pre x post hsplit
  rcases concat_eq_split hsplit with ⟨-, rfl, rfl⟩ | ⟨post', -, hl⟩
  · exact hy
  · exact h pre x post' hl

/-- The start of a trace. -/
theorem AtEach.left {l' : List α} (h : AtEach P (l ++ l')) : AtEach P l := by
  intro pre x post hl
  exact h pre x (post ++ l') (by rw [hl, append_assoc, cons_append])

/-- An entry behind another one. -/
theorem AtEach.later {pre post : List α} {x y : α} (h : AtEach P l) (hl : l = pre ++ x :: post) (hy : y ∈ post) :
    ∃ mid, P (pre ++ x :: mid) y ∧ ∀ z ∈ pre ++ x :: mid, z ∈ l := by
  obtain ⟨mid, rest, rfl⟩ := append_of_mem hy
  have hsplit : l = (pre ++ x :: mid) ++ y :: rest := by
    rw [hl, append_assoc, cons_append]
  refine ⟨mid, h (pre ++ x :: mid) y rest hsplit, fun z hz => ?_⟩
  rw [hsplit]
  exact mem_append_left _ hz

end Anoubis.Lib

import Mathlib.Data.List.Basic

/-! Reading a file in pieces.

    A call for `n` bytes returns some of the bytes that come next, and none at the end of the file only. How many it
    returns is up to the kernel: a file comes with a number for each call, beyond which that call does not go. -/

namespace Anoubis.Lib

open List

variable {α β : Type}

/-- What is left of a file, and for each call one less than the most it returns. -/
structure Source (α : Type) where
  rest : List α
  cuts : List ℕ
  deriving DecidableEq

/-- How far the next call goes. -/
def Source.limit (f : Source α) (n : ℕ) : ℕ :=
  match f.cuts with
  | [] => n
  | c :: _ => min n (c + 1)

/-- `read(fd, buf, n)`. -/
def Source.read (f : Source α) (n : ℕ) : List α × Source α :=
  (f.rest.take (f.limit n), ⟨f.rest.drop (f.limit n), f.cuts.tail⟩)

/-- The loop around a call for `n` bytes, up to the end of the file. It is `none` if there are more rounds. -/
def Source.eachRead (n : ℕ) (step : β → List α → β) : ℕ → Source α → β → Option β
  | 0, _, _ => none
  | rounds + 1, f, b =>
    if (f.read n).1.isEmpty then some b else eachRead n step rounds (f.read n).2 (step b (f.read n).1)

variable {f : Source α} {n : ℕ}

theorem Source.limit_le (f : Source α) (n : ℕ) : f.limit n ≤ n := by
  rw [Source.limit]
  split
  · exact Nat.le_refl n
  · exact Nat.min_le_left n _

theorem Source.limit_pos (hn : 0 < n) (f : Source α) : 0 < f.limit n := by
  rw [Source.limit]
  split
  · exact hn
  · exact Nat.lt_min.mpr ⟨hn, Nat.succ_pos _⟩

theorem Source.read_append (f : Source α) (n : ℕ) : (f.read n).1 ++ (f.read n).2.rest = f.rest :=
  take_append_drop _ _

theorem Source.length_read_le (f : Source α) (n : ℕ) : (f.read n).1.length ≤ n :=
  Nat.le_trans (length_take_le _ _) (f.limit_le n)

theorem Source.length_read (f : Source α) (n : ℕ) :
    (f.read n).1.length + (f.read n).2.rest.length = f.rest.length := by
  rw [← length_append, f.read_append]

/-- No byte is the end of the file. -/
theorem Source.read_eq_nil_iff (hn : 0 < n) : (f.read n).1 = [] ↔ f.rest = [] := by
  rw [Source.read, take_eq_nil_iff]
  exact or_iff_right (Nat.ne_of_gt (f.limit_pos hn))

/-- What every piece keeps holds behind the loop, and the loop ends: every piece has a byte. -/
theorem Source.eachRead_rule (step : β → List α → β) {I : β → Source α → Prop}
    (hstep : ∀ b f, I b f → (f.read n).1 ≠ [] → I (step b (f.read n).1) (f.read n).2) {rounds : ℕ} {b : β}
    (h0 : I b f) (hrounds : f.rest.length < rounds) :
    ∃ b' f', f.eachRead n step rounds b = some b' ∧ I b' f' ∧ (f'.read n).1 = [] := by
  induction rounds generalizing f b with
  | zero => cases hrounds
  | succ rounds ih =>
    rw [Source.eachRead]
    by_cases hnil : (f.read n).1 = []
    · exact ⟨b, f, by rw [hnil]; rfl, h0, hnil⟩
    · rw [if_neg (by simpa using hnil)]
      refine ih (hstep b f h0 hnil) ?_
      have := f.length_read n
      have := length_pos_of_ne_nil hnil
      omega

/-- The pieces put together are the file. -/
theorem Source.eachRead_append (hn : 0 < n) (f : Source α) (l : List α) :
    f.eachRead n (· ++ ·) (f.rest.length + 1) l = some (l ++ f.rest) := by
  obtain ⟨b', f', heq, hall, hnil⟩ := eachRead_rule (f := f) (n := n) (· ++ ·)
    (I := fun b f' => b ++ f'.rest = l ++ f.rest)
    (fun b f' h _ => by rw [append_assoc, f'.read_append, h]) (b := l) rfl (Nat.lt_succ_self _)
  rw [heq, ← hall, (Source.read_eq_nil_iff hn).mp hnil, append_nil]

end Anoubis.Lib

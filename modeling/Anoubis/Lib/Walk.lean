import Mathlib.Tactic.Common

/-! Functions that walk over a buffer and may return early.

    A walk has a state, returns a value or leaves the function early with a result, and is `none` where it
    reads outside of its buffer. `wp E w Q s` is the weakest precondition of `w` at the state `s`: no read
    fails, an early result meets `E`, and a value with the state behind it meets `Q`. -/

namespace Anoubis.Lib

variable {σ ε α β : Type}

abbrev Walk (σ ε α : Type) := StateT σ (ExceptT ε Option) α

/-- What a walk does from a state on. -/
def outcome (w : Walk σ ε α) (s : σ) : Option (Except ε (α × σ)) := w s

/-- A read: `none` is outside. -/
def peek (x : Option α) : Walk σ ε α := fun s => (x.map fun a => .ok (a, s) : Option (Except ε (α × σ)))

/-- `return e;` in the middle of the function. -/
def leave (e : ε) : Walk σ ε α := fun _ => (some (.error e) : Option (Except ε (α × σ)))

/-- The result of the function. -/
def result (w : Walk σ ε ε) (s : σ) : Option ε :=
  (outcome w s).map fun r => match r with
    | .ok (a, _) => a
    | .error e => e

/-- The weakest precondition. -/
def wp (E : ε → Prop) (w : Walk σ ε α) (Q : α → σ → Prop) (s : σ) : Prop :=
  match outcome w s with
  | none => False
  | some (.error e) => E e
  | some (.ok (a, s')) => Q a s'

variable {E : ε → Prop} {Q Q' : α → σ → Prop} {s : σ}

@[simp] theorem wp_pure (a : α) : wp E (pure a : Walk σ ε α) Q s ↔ Q a s := .rfl

@[simp] theorem wp_leave (e : ε) : wp E (leave e : Walk σ ε α) Q s ↔ E e := .rfl

theorem wp_peek {x : Option α} : wp E (peek x : Walk σ ε α) Q s ↔ ∃ a, x = some a ∧ Q a s := by
  cases x with
  | none => exact iff_of_false id fun ⟨_, h, _⟩ => by cases h
  | some a => exact ⟨fun h => ⟨a, rfl, h⟩, fun ⟨_, h, hq⟩ => Option.some.inj h ▸ hq⟩

theorem outcome_bind (w : Walk σ ε β) (f : β → Walk σ ε α) (s : σ) :
    outcome (w >>= f) s = (outcome w s).bind (fun r => match r with
      | .ok p => outcome (f p.1) p.2
      | .error e => some (.error e)) := by
  change (outcome w s).bind _ = (outcome w s).bind _
  refine Option.bind_congr fun r _ => ?_
  cases r with
  | error e => rfl
  | ok p => rfl

@[simp] theorem wp_bind (w : Walk σ ε β) (f : β → Walk σ ε α) :
    wp E (w >>= f) Q s ↔ wp E w (fun b => wp E (f b) Q) s := by
  unfold wp
  rw [outcome_bind]
  cases outcome w s with
  | none => exact .rfl
  | some r =>
    cases r with
    | error e => exact .rfl
    | ok p => exact .rfl

@[simp] theorem wp_ite {c : Prop} [Decidable c] (w w' : Walk σ ε α) :
    wp E (if c then w else w') Q s ↔ (if c then wp E w Q s else wp E w' Q s) := by
  split <;> exact .rfl

theorem wp_mono {w : Walk σ ε α} (h : wp E w Q s) (hq : ∀ a s', Q a s' → Q' a s') : wp E w Q' s := by
  unfold wp at h ⊢
  split at h
  · exact h
  · exact h
  · exact hq _ _ h

/-- What holds of every result that the function may have. -/
theorem result_of_wp {R : ε → Prop} {w : Walk σ ε ε} (h : wp R w (fun a _ => R a) s) :
    ∃ r, result w s = some r ∧ R r := by
  unfold wp at h
  unfold result
  split at h
  · exact h.elim
  · rename_i e he
    exact ⟨e, by rw [he]; rfl, h⟩
  · rename_i a s' ha
    exact ⟨a, by rw [ha]; rfl, h⟩

/-- Another function is called at a state of its own. -/
def call {τ : Type} (w : Walk τ ε ε) (t : τ) : Walk σ ε ε := peek (result w t)

end Anoubis.Lib

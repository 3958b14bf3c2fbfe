import Mathlib.Data.List.Basic

/-! Calls of one function during a run.

    A run calls a partial function again and again on a state that it threads through, and it may change
    the state between the calls in ways that are of no interest. Each call is listed with the state in
    which it is entered, also the last one if it does not return.

        s₀ ~~> s₁ --call k₁--> s₂ ~~> s₃ --call k₂--> …          [(s₁, k₁), (s₃, k₂), …]

    `P` and `Q` agree on calls in states that satisfy an invariant, and a call with `Q` keeps the
    invariant: then all calls satisfy `P` iff all calls satisfy `Q`. -/

namespace Anoubis.Lib

variable {σ κ : Type*}

/-- A run from a state, with its calls and the state it ends in; `none` if it does not end. -/
inductive Threaded (call : σ → κ → Option σ) (silent : σ → σ → Prop) : σ → List (σ × κ) → Option σ → Prop
  | done (s : σ) : Threaded call silent s [] (some s)
  | stuck {s : σ} {k : κ} (h : call s k = none) : Threaded call silent s [(s, k)] none
  | step {s s' : σ} {k : κ} {calls : List (σ × κ)} {fin : Option σ} (h : call s k = some s')
      (rest : Threaded call silent s' calls fin) : Threaded call silent s ((s, k) :: calls) fin
  | silent {s s' : σ} {calls : List (σ × κ)} {fin : Option σ} (h : silent s s')
      (rest : Threaded call silent s' calls fin) : Threaded call silent s calls fin

namespace Threaded

variable {call : σ → κ → Option σ} {silent : σ → σ → Prop} {s s' : σ} {k : κ}
  {calls calls' : List (σ × κ)} {fin : Option σ}

/-- One call. -/
theorem single (s : σ) (k : κ) : Threaded call silent s [(s, k)] (call s k) := by
  cases h : call s k with
  | none => exact .stuck h
  | some s' => exact .step h (.done s')

theorem append (h : Threaded call silent s calls (some s')) (h' : Threaded call silent s' calls' fin) :
    Threaded call silent s (calls ++ calls') fin := by
  generalize hs : some s' = mid at h
  induction h with
  | done s =>
    cases hs
    exact h'
  | stuck h => cases hs
  | step h _ ih => exact .step h (ih hs)
  | silent h _ ih => exact .silent h (ih hs)

variable {α β : Type*} {x : Option α} {g : α → σ} {y : α → Option β} {g' : β → σ}

/-- One part of a program, and the next one if the first one returns. -/
theorem seq {next : α → List (σ × κ)} (h : Threaded call silent s calls (x.map g))
    (h' : ∀ a, x = some a → Threaded call silent (g a) (next a) ((y a).map g')) :
    Threaded call silent s (calls ++ x.elim [] next) ((x.bind y).map g') := by
  cases x with
  | none => simpa using h
  | some a => exact h.append (h' a rfl)

/-- A part without calls at the end. -/
theorem andThen (h : Threaded call silent s calls (x.map g))
    (h' : ∀ a, x = some a → ∃ b, y a = some b ∧ silent (g a) (g' b)) :
    Threaded call silent s calls ((x.bind y).map g') := by
  cases x with
  | none => exact h
  | some a =>
    obtain ⟨b, hb, hs⟩ := h' a rfl
    have hrest := h.append (.silent hs (.done (g' b)))
    rw [List.append_nil] at hrest
    rw [Option.bind_some, hb]
    exact hrest

/-- The invariant holds in front of every call up to the first one that fails. -/
theorem forall_iff {I : σ → Prop} {P Q : σ → κ → Prop} (h : Threaded call silent s calls fin)
    (hsilent : ∀ {s s'}, silent s s' → I s → I s') (hiff : ∀ {s k}, I s → (P s k ↔ Q s k))
    (hstep : ∀ {s s' k}, I s → Q s k → call s k = some s' → I s') (hs : I s) :
    (∀ c ∈ calls, P c.1 c.2) ↔ ∀ c ∈ calls, Q c.1 c.2 := by
  induction h with
  | done s => simp
  | stuck h => simpa using hiff hs
  | @step s s' k calls fin h _ ih =>
    rw [List.forall_mem_cons, List.forall_mem_cons, hiff hs]
    exact and_congr_right fun hq => ih (hstep hs hq h)
  | silent h _ ih => exact ih (hsilent h hs)

end Threaded

end Anoubis.Lib

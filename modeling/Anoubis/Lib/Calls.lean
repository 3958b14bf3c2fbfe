/-! Programs that call a system.

    A program makes calls and goes on with their answers. What the system does with a call is not part of the
    program: it is a step relation on states of the system, or a function where the system is deterministic.

        call c --> answer r --> call c' --> answer r' --> … --> result -/

namespace Anoubis.Lib

/-- A program over calls `c` with answers in `A c`. -/
inductive Prog (C : Type) (A : C → Type) (α : Type) : Type
  | ret (a : α)
  | call (c : C) (k : A c → Prog C A α)

namespace Prog

variable {C : Type} {A : C → Type} {α β σ : Type}

/-- Sequential composition. -/
def bind : Prog C A α → (α → Prog C A β) → Prog C A β
  | .ret a, f => f a
  | .call c k, f => .call c fun r => (k r).bind f

instance : Monad (Prog C A) where
  pure := ret
  bind := bind

/-- A single call. -/
def perform (c : C) : Prog C A (A c) := .call c .ret

@[simp] theorem ret_bind (a : α) (f : α → Prog C A β) : (Prog.ret a >>= f) = f a := rfl

@[simp] theorem call_bind (c : C) (k : A c → Prog C A α) (f : α → Prog C A β) :
    (Prog.call c k >>= f) = .call c fun r => k r >>= f := rfl

/-! ### Any system -/

section Steps

variable (step : σ → (c : C) → A c → σ → Prop)

/-- The calls of an execution so far, each with the state in which it is made. -/
inductive Exec : Prog C A α → σ → List (σ × C) → Prop
  | idle (p : Prog C A α) (s : σ) : Exec p s []
  | made (c : C) (k : A c → Prog C A α) (s : σ) : Exec (.call c k) s [(s, c)]
  | answered {c : C} {k : A c → Prog C A α} {s s' : σ} {r : A c} {calls : List (σ × C)} (answer : step s c r s')
      (rest : Exec (k r) s' calls) : Exec (.call c k) s ((s, c) :: calls)

/-- Every call is made in a state in which it is permitted, and the program ends in a state that fits its result,
    whatever the answers. -/
def Safe (P : σ → C → Prop) (Q : α → σ → Prop) : Prog C A α → σ → Prop
  | .ret a, s => Q a s
  | .call c k, s => P s c ∧ ∀ r s', step s c r s' → (k r).Safe P Q s'

variable {step} {P P' : σ → C → Prop} {Q Q' : α → σ → Prop} {p : Prog C A α} {s : σ}

/-- A program goes on where another one ends. -/
theorem Safe.bind {R : β → σ → Prop} {f : α → Prog C A β} (h : p.Safe step P Q s)
    (hf : ∀ a s, Q a s → (f a).Safe step P R s) : (p >>= f).Safe step P R s := by
  induction p generalizing s with
  | ret a => exact hf a s h
  | call c k ih => exact ⟨h.1, fun r s' hstep => ih r (h.2 r s' hstep)⟩

/-- The calls of every execution are permitted. -/
theorem Safe.exec {calls : List (σ × C)} (h : p.Safe step P Q s) (hexec : Exec step p s calls) :
    ∀ sc ∈ calls, P sc.1 sc.2 := by
  induction hexec with
  | idle p s => simp
  | made c k s =>
    intro sc hsc
    rw [List.mem_singleton.mp hsc]
    exact h.1
  | answered answer rest ih =>
    intro sc hsc
    rcases List.mem_cons.mp hsc with rfl | hsc
    · exact h.1
    · exact ih (h.2 _ _ answer) sc hsc

end Steps

/-! ### A deterministic system -/

section Run

variable (handle : σ → (c : C) → A c × σ)

/-- The result and the state at the end. -/
def run : Prog C A α → σ → α × σ
  | .ret a, s => (a, s)
  | .call c k, s => (k (handle s c).1).run (handle s c).2

variable {handle}

@[simp] theorem run_ret (a : α) (s : σ) : (Prog.ret a : Prog C A α).run handle s = (a, s) := rfl

@[simp] theorem run_call (c : C) (k : A c → Prog C A α) (s : σ) :
    (Prog.call c k).run handle s = (k (handle s c).1).run handle (handle s c).2 := rfl

@[simp] theorem run_bind (p : Prog C A α) (f : α → Prog C A β) (s : σ) :
    (p >>= f).run handle s = (f (p.run handle s).1).run handle (p.run handle s).2 := by
  induction p generalizing s with
  | ret a => rfl
  | call c k ih => exact ih _ _

variable (handle) in
/-- The calls of a run, with their answers. -/
def trace : Prog C A α → σ → List ((c : C) × A c)
  | .ret _, _ => []
  | .call c k, s => ⟨c, (handle s c).1⟩ :: (k (handle s c).1).trace (handle s c).2

@[simp] theorem trace_ret (a : α) (s : σ) : (Prog.ret a : Prog C A α).trace handle s = [] := rfl

@[simp] theorem trace_bind (p : Prog C A α) (f : α → Prog C A β) (s : σ) :
    (p >>= f).trace handle s = p.trace handle s ++ (f (p.run handle s).1).trace handle (p.run handle s).2 := by
  induction p generalizing s with
  | ret a => rfl
  | call c k ih => exact congrArg (_ :: ·) (ih _ _)

/-- A deterministic system as a step relation. -/
def Does (handle : σ → (c : C) → A c × σ) (s : σ) (c : C) (r : A c) (s' : σ) : Prop := handle s c = (r, s')

/-- What is safe in a deterministic system describes its run. -/
theorem Safe.run {P : σ → C → Prop} {Q : α → σ → Prop} {p : Prog C A α} {s : σ} (h : p.Safe (Does handle) P Q s) :
    Q (p.run handle s).1 (p.run handle s).2 := by
  induction p generalizing s with
  | ret a => exact h
  | call c k ih => exact ih _ (h.2 _ _ rfl)

/-- All calls of a run are permitted. -/
theorem Safe.trace {P : C → Prop} {Q : α → σ → Prop} {p : Prog C A α} {s : σ}
    (h : p.Safe (Does handle) (fun _ => P) Q s) : ∀ x ∈ p.trace handle s, P x.1 := by
  induction p generalizing s with
  | ret a => exact fun x hx => absurd hx List.not_mem_nil
  | call c k ih =>
    intro x hx
    rcases List.mem_cons.mp hx with rfl | hx
    · exact h.1
    · exact ih _ (h.2 _ _ rfl) x hx

end Run

end Prog

end Anoubis.Lib

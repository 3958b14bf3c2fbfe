import Mathlib.Data.List.Forall2

/-! Programs that allocate memory.

    The allocator answers the n-th request with an address or not at all; a program that gets no answer
    fails. `Ensures` is a postcondition for the case that it does not fail, with one rule for each way to
    build a program. A copy that is made of issued addresses only shares nothing with memory that the
    allocator leaves alone. -/

namespace Anoubis.Lib

variable {α β : Type}

/-- The answers of malloc and calloc: the n-th call returns an address or NULL. -/
abbrev Alloc := ℕ → Option ℕ

/-- A program that allocates; the number counts the requests. -/
def AllocM (α : Type) : Type := Alloc → ℕ → Option (α × ℕ)

instance : Monad AllocM where
  pure a := fun _ n => some (a, n)
  bind m f := fun alloc n => (m alloc n).bind fun x => f x.1 alloc x.2

def malloc : AllocM ℕ := fun alloc n => (alloc n).map fun addr => (addr, n + 1)

/-- Copy the elements of a list one after the other. -/
def copyList (f : α → AllocM β) : List α → AllocM (List β)
  | [] => pure []
  | a :: as => do
    let b ← f a
    let bs ← copyList f as
    pure (b :: bs)

/-- A copy of something that may be NULL. -/
def copyOption (f : α → AllocM β) : Option α → AllocM (Option β)
  | none => pure none
  | some a => do
    let b ← f a
    pure (some b)

/-- An address that the allocator hands out. -/
def Issued (alloc : Alloc) (addr : ℕ) : Prop := ∃ n, alloc n = some addr

/-- Whenever the program succeeds, its value satisfies `P`. -/
def Ensures (alloc : Alloc) (m : AllocM α) (P : α → Prop) : Prop :=
  ∀ n a n', m alloc n = some (a, n') → P a

variable {alloc : Alloc}
variable {P : α → Prop} {f : α → AllocM β}

theorem Ensures.pure {a : α} (h : P a) : Ensures alloc (Pure.pure a) P := by
  intro n b n' hb
  rw [← (Prod.mk.inj (Option.some.inj hb)).1]
  exact h

theorem Ensures.bind {m : AllocM α} {Q : β → Prop} (hm : Ensures alloc m P)
    (hf : ∀ a, P a → Ensures alloc (f a) Q) : Ensures alloc (m >>= f) Q := by
  intro n b n' hb
  obtain ⟨⟨a, k⟩, ha, hrest⟩ := Option.bind_eq_some_iff.mp hb
  exact hf a (hm n a k ha) k b n' hrest

theorem Ensures.mono {m : AllocM α} {Q : α → Prop} (h : Ensures alloc m P) (hpq : ∀ a, P a → Q a) :
    Ensures alloc m Q :=
  fun n a n' ha => hpq a (h n a n' ha)

theorem ensures_malloc : Ensures alloc malloc (Issued alloc) := by
  intro n a n' ha
  obtain ⟨addr, haddr, heq⟩ := Option.map_eq_some_iff.mp ha
  rw [← (Prod.mk.inj heq).1]
  exact ⟨n, haddr⟩

theorem ensures_copyList {R : α → β → Prop} (hf : ∀ a, Ensures alloc (f a) (R a)) (l : List α) :
    Ensures alloc (copyList f l) (List.Forall₂ R l) := by
  induction l with
  | nil => exact .pure .nil
  | cons a as ih => exact (hf a).bind fun b hb => ih.bind fun bs hbs => .pure (.cons hb hbs)

theorem ensures_copyOption {P : Option β → Prop} {o : Option α} (hnone : o = none → P none)
    (hf : ∀ a, o = some a → Ensures alloc (f a) fun b => P (some b)) : Ensures alloc (copyOption f o) P := by
  cases o with
  | none => exact .pure (hnone rfl)
  | some a => exact (hf a rfl).bind fun b hb => .pure hb

/-! ### Memory with addresses -/

/-- A piece of memory and where it is. -/
structure Alloced (α : Type) where
  addr : ℕ
  val : α
  deriving DecidableEq

/-- Allocate memory for a value. -/
def newAlloced (a : α) : AllocM (Alloced α) := do
  let addr ← malloc
  pure ⟨addr, a⟩

theorem ensures_newAlloced (a : α) : Ensures alloc (newAlloced a) fun x => Issued alloc x.addr ∧ x.val = a :=
  ensures_malloc.bind fun _ h => .pure ⟨h, rfl⟩

end Anoubis.Lib

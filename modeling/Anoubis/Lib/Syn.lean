import Mathlib.Data.List.Basic

/-! Grammars with semantic actions.

    A `Syn` is a piece of a grammar: a predictive parser together with the language it is written
    for. The parser reads tokens one by one, looks one token ahead where there is a choice, and stops
    at the first error; the language is a relation between token lists and values.

        run      : state → tokens → value, new state, tokens left, errors  |  failure
        derives  : state → tokens → value → new state → Prop
        aborts   : state → tokens → new state → Prop        (a failure that leaves no error)

    Both sides are built by the same combinators, so every parser comes with the proof that it
    accepts nothing outside its language. -/

namespace Anoubis.Lib

open List

/-- The result of a parser. A failure keeps the tokens that were never read. -/
inductive Res (σ τ ε α : Type) where
  | ok (a : α) (s : σ) (rest : List τ) (errs : List ε)
  | fail (s : σ) (unread : List τ) (errs : List ε)

variable {σ τ ε α β : Type}

/-- Prepend errors. -/
def Res.note (e : List ε) : Res σ τ ε α → Res σ τ ε α
  | .ok a s rest errs => .ok a s rest (e ++ errs)
  | .fail s unread errs => .fail s unread (e ++ errs)

/-- A failure without an error. -/
def Res.silent : Res σ τ ε α → Bool
  | .fail _ _ [] => true
  | _ => false

/-- A parser and its language. -/
structure Syn (σ τ ε α : Type) where
  run : σ → List τ → Res σ τ ε α
  derives : σ → List τ → α → σ → Prop
  aborts : σ → List τ → σ → Prop
  sound : ∀ {s toks a s' rest}, run s toks = .ok a s' rest [] →
    ∃ ts, toks = ts ++ rest ∧ derives s ts a s'
  quiet : ∀ {s toks s' unread}, run s toks = .fail s' unread [] →
    ∃ ts rest, toks = ts ++ rest ∧ aborts s ts s'

namespace Syn

/-! ### Combinators -/

/-- Nothing. -/
protected def pure (a : α) : Syn σ τ ε α where
  run s toks := .ok a s toks []
  derives s ts b s' := ts = [] ∧ b = a ∧ s' = s
  aborts _ _ _ := False
  sound := by
    intro s toks b s' rest h
    injection h with h1 h2 h3
    exact ⟨[], by simp [h3], rfl, h1.symm, h2.symm⟩
  quiet := by
    intro s toks s' unread h
    cases h

/-- One after the other. -/
protected def bind (p : Syn σ τ ε α) (f : α → Syn σ τ ε β) : Syn σ τ ε β where
  run s toks :=
    match p.run s toks with
    | .ok a s rest errs => ((f a).run s rest).note errs
    | .fail s unread errs => .fail s unread errs
  derives s ts b s' := ∃ ts₁ ts₂ a s₁, ts = ts₁ ++ ts₂ ∧ p.derives s ts₁ a s₁ ∧ (f a).derives s₁ ts₂ b s'
  aborts s ts s' := p.aborts s ts s' ∨
    ∃ ts₁ ts₂ a s₁, ts = ts₁ ++ ts₂ ∧ p.derives s ts₁ a s₁ ∧ (f a).aborts s₁ ts₂ s'
  sound := by
    intro s toks b s' rest h
    cases hp : p.run s toks with
    | fail s₁ unread errs => simp [hp] at h
    | ok a s₁ rest₁ errs =>
      rw [hp] at h
      cases hf : (f a).run s₁ rest₁ with
      | fail s₂ unread errs₂ => simp [hf, Res.note] at h
      | ok b₂ s₂ rest₂ errs₂ =>
        simp only [hf, Res.note, Res.ok.injEq, List.append_eq_nil_iff] at h
        obtain ⟨rfl, rfl, rfl, rfl, rfl⟩ := h
        obtain ⟨ts₁, rfl, h₁⟩ := p.sound hp
        obtain ⟨ts₂, rfl, h₂⟩ := (f a).sound hf
        exact ⟨ts₁ ++ ts₂, by simp, ts₁, ts₂, a, s₁, rfl, h₁, h₂⟩
  quiet := by
    intro s toks s' unread h
    cases hp : p.run s toks with
    | fail s₁ unread₁ errs =>
      simp only [hp, Res.fail.injEq] at h
      obtain ⟨rfl, rfl, rfl⟩ := h
      obtain ⟨ts, rest, heq, ha⟩ := p.quiet hp
      exact ⟨ts, rest, heq, .inl ha⟩
    | ok a s₁ rest₁ errs =>
      rw [hp] at h
      cases hf : (f a).run s₁ rest₁ with
      | ok b₂ s₂ rest₂ errs₂ => simp [hf, Res.note] at h
      | fail s₂ unread₂ errs₂ =>
        simp only [hf, Res.note, Res.fail.injEq, List.append_eq_nil_iff] at h
        obtain ⟨rfl, rfl, rfl, rfl⟩ := h
        obtain ⟨ts₁, rfl, h₁⟩ := p.sound hp
        obtain ⟨ts₂, rest, rfl, h₂⟩ := (f a).quiet hf
        exact ⟨ts₁ ++ ts₂, rest, by simp, .inr ⟨ts₁, ts₂, a, s₁, rfl, h₁, h₂⟩⟩

instance : Monad (Syn σ τ ε) where
  pure := Syn.pure
  bind := Syn.bind

/-- One token that `f` accepts; `bad` are errors that come with a token. -/
def token (bad : τ → List ε) (err : ε) (f : τ → Option α) : Syn σ τ ε α where
  run s toks :=
    match toks with
    | [] => .fail s [] [err]
    | t :: rest =>
      match f t with
      | some a => .ok a s rest []
      | none => .fail s rest (bad t ++ [err])
  derives s ts a s' := s' = s ∧ ∃ t, ts = [t] ∧ f t = some a
  aborts _ _ _ := False
  sound := by
    intro s toks a s' rest h
    cases toks with
    | nil => cases h
    | cons t toks =>
      cases hf : f t with
      | none => simp [hf] at h
      | some b =>
        simp only [hf, Res.ok.injEq, and_true] at h
        obtain ⟨rfl, rfl, rfl⟩ := h
        exact ⟨[t], rfl, rfl, t, rfl, hf⟩
  quiet := by
    intro s toks s' unread h
    cases toks with
    | nil => simp at h
    | cons t toks => cases hf : f t <;> simp [hf] at h

/-- Does the next token satisfy `test`? -/
def ahead (test : τ → Bool) : List τ → Bool
  | [] => false
  | t :: _ => test t

/-- A choice by the next token. -/
def choose (test : τ → Bool) (p q : Syn σ τ ε α) : Syn σ τ ε α where
  run s toks := if ahead test toks then p.run s toks else q.run s toks
  derives s ts a s' := p.derives s ts a s' ∨ q.derives s ts a s'
  aborts s ts s' := p.aborts s ts s' ∨ q.aborts s ts s'
  sound := by
    intro s toks a s' rest h
    split at h
    · obtain ⟨ts, heq, hd⟩ := p.sound h
      exact ⟨ts, heq, .inl hd⟩
    · obtain ⟨ts, heq, hd⟩ := q.sound h
      exact ⟨ts, heq, .inr hd⟩
  quiet := by
    intro s toks s' unread h
    split at h
    · obtain ⟨ts, rest, heq, hd⟩ := p.quiet h
      exact ⟨ts, rest, heq, .inl hd⟩
    · obtain ⟨ts, rest, heq, hd⟩ := q.quiet h
      exact ⟨ts, rest, heq, .inr hd⟩

/-- A semantic action that may fail; `look` tells whether it runs with the next token read ahead. -/
def act (look : Bool) (f : σ → Except (σ × List ε) (α × σ)) : Syn σ τ ε α where
  run s toks :=
    match f s with
    | .ok (a, s) => .ok a s toks []
    | .error (s, errs) => .fail s (if look then toks.tail else toks) errs
  derives s ts a s' := ts = [] ∧ f s = .ok (a, s')
  aborts s ts s' := ts = [] ∧ f s = .error (s', [])
  sound := by
    intro s toks a s' rest h
    cases hf : f s with
    | error e => simp [hf] at h
    | ok as =>
      simp only [hf, Res.ok.injEq, and_true] at h
      obtain ⟨rfl, rfl, rfl⟩ := h
      exact ⟨[], rfl, rfl, rfl⟩
  quiet := by
    intro s toks s' unread h
    cases hf : f s with
    | ok as => simp [hf] at h
    | error e =>
      obtain ⟨s₁, errs⟩ := e
      simp only [hf, Res.fail.injEq] at h
      obtain ⟨rfl, -, rfl⟩ := h
      exact ⟨[], toks, rfl, rfl, rfl⟩

/-- A check that stops the parser. -/
def check (look : Bool) (c : Bool) (errs : List ε) : Syn σ τ ε Unit :=
  act look (fun s => if c then .ok ((), s) else .error (s, errs))

/-- A check that reports an error and goes on. -/
def note (c : Bool) (err : ε) : Syn σ τ ε Unit where
  run s toks := .ok () s toks (if c then [] else [err])
  derives s ts _ s' := ts = [] ∧ s' = s ∧ c = true
  aborts _ _ _ := False
  sound := by
    intro s toks a s' rest h
    cases c with
    | false => simp at h
    | true =>
      simp only [if_true, Res.ok.injEq, and_true] at h
      obtain ⟨-, rfl, rfl⟩ := h
      exact ⟨[], rfl, rfl, rfl, rfl⟩
  quiet := by
    intro s toks s' unread h
    cases h

/-- Repetition in the language. -/
inductive Many (p : σ → List τ → α → σ → Prop) : σ → List τ → List α → σ → Prop where
  | nil (s : σ) : Many p s [] [] s
  | cons {s s₁ s₂ : σ} {ts ts' : List τ} {a : α} {as : List α} (h : p s ts a s₁)
    (hs : Many p s₁ ts' as s₂) : Many p s (ts ++ ts') (a :: as) s₂

/-- Repetition in the parser, with at most `n` rounds. -/
def manyRun (test : τ → Bool) (err : ε) (p : σ → List τ → Res σ τ ε α) :
    ℕ → σ → List τ → Res σ τ ε (List α)
  | 0, s, toks => if ahead test toks then .fail s toks [err] else .ok [] s toks []
  | n + 1, s, toks =>
    if ahead test toks then
      match p s toks with
      | .fail s unread errs => .fail s unread errs
      | .ok a s rest errs =>
        match manyRun test err p n s rest with
        | .ok as s rest errs' => .ok (a :: as) s rest (errs ++ errs')
        | .fail s unread errs' => .fail s unread (errs ++ errs')
    else .ok [] s toks []

theorem manyRun_sound {test : τ → Bool} {err : ε} (p : Syn σ τ ε α) (n : ℕ) :
    ∀ {s : σ} {toks : List τ} {as : List α} {s' : σ} {rest : List τ},
      manyRun test err p.run n s toks = .ok as s' rest [] →
      ∃ ts, toks = ts ++ rest ∧ Many p.derives s ts as s' := by
  induction n with
  | zero =>
    intro s toks as s' rest h
    rw [manyRun] at h
    split at h
    · cases h
    · simp only [Res.ok.injEq, and_true] at h
      obtain ⟨rfl, rfl, rfl⟩ := h
      exact ⟨[], rfl, Many.nil _⟩
  | succ n ih =>
    intro s toks as s' rest h
    rw [manyRun] at h
    split at h
    · cases hp : p.run s toks with
      | fail s₁ unread errs => simp [hp] at h
      | ok a s₁ rest₁ errs =>
        rw [hp] at h
        cases hm : manyRun test err p.run n s₁ rest₁ with
        | fail s₂ unread errs₂ => simp [hm] at h
        | ok as₂ s₂ rest₂ errs₂ =>
          simp only [hm, Res.ok.injEq, append_eq_nil_iff] at h
          obtain ⟨rfl, rfl, rfl, rfl, rfl⟩ := h
          obtain ⟨ts₁, rfl, h₁⟩ := p.sound hp
          obtain ⟨ts₂, rfl, h₂⟩ := ih hm
          exact ⟨ts₁ ++ ts₂, by simp, Many.cons h₁ h₂⟩
    · simp only [Res.ok.injEq, and_true] at h
      obtain ⟨rfl, rfl, rfl⟩ := h
      exact ⟨[], rfl, Many.nil _⟩

theorem manyRun_quiet {test : τ → Bool} {err : ε} (p : Syn σ τ ε α) (n : ℕ) :
    ∀ {s : σ} {toks : List τ} {s' : σ} {unread : List τ}, manyRun test err p.run n s toks = .fail s' unread [] →
      ∃ ts ts' rest as s₁, toks = ts ++ ts' ++ rest ∧ Many p.derives s ts as s₁ ∧ p.aborts s₁ ts' s' := by
  induction n with
  | zero =>
    intro s toks s' unread h
    rw [manyRun] at h
    split at h <;> cases h
  | succ n ih =>
    intro s toks s' unread h
    rw [manyRun] at h
    split at h
    · cases hp : p.run s toks with
      | fail s₁ unread₁ errs =>
        simp only [hp, Res.fail.injEq] at h
        obtain ⟨rfl, rfl, rfl⟩ := h
        obtain ⟨ts, rest, heq, ha⟩ := p.quiet hp
        exact ⟨[], ts, rest, [], s, heq, Many.nil _, ha⟩
      | ok a s₁ rest₁ errs =>
        rw [hp] at h
        cases hm : manyRun test err p.run n s₁ rest₁ with
        | ok as₂ s₂ rest₂ errs₂ => simp [hm] at h
        | fail s₂ unread₂ errs₂ =>
          simp only [hm, Res.fail.injEq, append_eq_nil_iff] at h
          obtain ⟨rfl, rfl, rfl, rfl⟩ := h
          obtain ⟨ts₁, rfl, h₁⟩ := p.sound hp
          obtain ⟨ts, ts', rest, as, s₃, heq, h₂, ha⟩ := ih hm
          refine ⟨ts₁ ++ ts, ts', rest, a :: as, s₃, ?_, Many.cons h₁ h₂, ha⟩
          rw [heq, append_assoc, append_assoc, append_assoc]
    · cases h

/-- Zero or more times, as long as the next token satisfies `test`. Every round reads a token, so
    the number of tokens is a bound on the rounds. -/
def many (test : τ → Bool) (err : ε) (p : Syn σ τ ε α) : Syn σ τ ε (List α) where
  run s toks := manyRun test err p.run toks.length s toks
  derives := Many p.derives
  aborts s ts s' := ∃ ts₁ ts₂ as s₁, ts = ts₁ ++ ts₂ ∧ Many p.derives s ts₁ as s₁ ∧ p.aborts s₁ ts₂ s'
  sound := manyRun_sound p _
  quiet := by
    intro s toks s' unread h
    obtain ⟨ts, ts', rest, as, s₁, heq, hm, ha⟩ := manyRun_quiet p _ h
    exact ⟨ts ++ ts', rest, heq, ts, ts', as, s₁, rfl, hm, ha⟩

/-! ### Running -/

theorem run_bind (p : Syn σ τ ε α) (f : α → Syn σ τ ε β) (s : σ) (toks : List τ) :
    (p >>= f).run s toks =
      match p.run s toks with
      | .ok a s rest errs => ((f a).run s rest).note errs
      | .fail s unread errs => .fail s unread errs := rfl

end Syn

end Anoubis.Lib

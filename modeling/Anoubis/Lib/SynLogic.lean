import Anoubis.Lib.Syn

/-! Rules for what a grammar derives.

    `Yields T N p V`: whatever `p` derives from tokens in `T`, it leaves the state alone, its value
    satisfies `V`, and every token it reads satisfies `N`; it never fails without an error. Most
    nonterminals of a grammar with semantic actions are of this kind.

    `Holds T P p Q A`: the general form, pre- and postconditions on the state and on the tokens that
    have been read so far; `A` holds after a failure without an error.

    There is one rule for each combinator, so a proof about a nonterminal follows its text. -/

namespace Anoubis.Lib

open List

variable {σ τ ε α β : Type}

/-- A property of token lists that every part of a list inherits. -/
structure Hereditary (T : List τ → Prop) : Prop where
  left : ∀ {ts ts' : List τ}, T (ts ++ ts') → T ts
  right : ∀ {ts ts' : List τ}, T (ts ++ ts') → T ts'

namespace Syn

/-- A piece without effect on the state. -/
structure Yields (T : List τ → Prop) (N : τ → Prop) (p : Syn σ τ ε α) (V : α → Prop) : Prop where
  ok : ∀ {s ts a s'}, T ts → p.derives s ts a s' → s' = s ∧ V a ∧ ∀ t ∈ ts, N t
  stop : ∀ {s ts s'}, T ts → ¬ p.aborts s ts s'

/-- Pre- and postcondition; `pre` are the tokens read before. -/
structure Holds (T : List τ → Prop) (P : σ → List τ → Prop) (p : Syn σ τ ε α)
    (Q : α → σ → List τ → Prop) (A : σ → List τ → Prop) : Prop where
  ok : ∀ {s pre ts a s'}, T ts → P s pre → p.derives s ts a s' → Q a s' (pre ++ ts)
  stop : ∀ {s pre ts s'}, T ts → P s pre → p.aborts s ts s' → A s' (pre ++ ts)

variable {T : List τ → Prop} {N : τ → Prop}

/-! ### No effect -/

variable {V : α → Prop}

theorem Yields.mono {p : Syn σ τ ε α} {W : α → Prop} (h : Yields T N p V) (hvw : ∀ a, V a → W a) :
    Yields T N p W where
  ok := fun ht hd => ⟨(h.ok ht hd).1, hvw _ (h.ok ht hd).2.1, (h.ok ht hd).2.2⟩
  stop := h.stop

theorem Yields.pure {a : α} (h : V a) : Yields T N (Pure.pure a : Syn σ τ ε α) V where
  ok := by
    rintro s ts b s' - ⟨rfl, rfl, rfl⟩
    exact ⟨rfl, h, by simp⟩
  stop := fun _ ha => ha

theorem Yields.bind (hT : Hereditary T) {p : Syn σ τ ε α} {f : α → Syn σ τ ε β} {W : β → Prop}
    (hp : Yields T N p V) (hf : ∀ a, V a → Yields T N (f a) W) :
    Yields T N (p >>= f) W where
  ok := by
    rintro s ts b s' ht ⟨ts₁, ts₂, a, s₁, rfl, h₁, h₂⟩
    obtain ⟨rfl, hv, hn₁⟩ := hp.ok (hT.left ht) h₁
    obtain ⟨rfl, hw, hn₂⟩ := (hf a hv).ok (hT.right ht) h₂
    refine ⟨rfl, hw, fun t hmem => ?_⟩
    rcases mem_append.mp hmem with h | h
    · exact hn₁ t h
    · exact hn₂ t h
  stop := by
    rintro s ts s' ht (ha | ⟨ts₁, ts₂, a, s₁, rfl, h₁, h₂⟩)
    · exact hp.stop ht ha
    · obtain ⟨rfl, hv, -⟩ := hp.ok (hT.left ht) h₁
      exact (hf a hv).stop (hT.right ht) h₂

variable {err : ε} {look c : Bool}

theorem Yields.token {bad : τ → List ε} {f : τ → Option α} (h : ∀ t a, T [t] → f t = some a → V a ∧ N t) :
    Yields T N (token bad err f : Syn σ τ ε α) V where
  ok := by
    rintro s ts a s' ht ⟨rfl, t, rfl, hf⟩
    obtain ⟨hv, hn⟩ := h t a ht hf
    exact ⟨rfl, hv, by simpa using hn⟩
  stop := fun _ ha => ha

theorem Yields.choose {test : τ → Bool} {p q : Syn σ τ ε α} (hp : Yields T N p V) (hq : Yields T N q V) :
    Yields T N (choose test p q) V where
  ok := by
    rintro s ts a s' ht (h | h)
    · exact hp.ok ht h
    · exact hq.ok ht h
  stop := by
    rintro s ts s' ht (h | h)
    · exact hp.stop ht h
    · exact hq.stop ht h

/-- An action that only looks at the state. -/
theorem Yields.act {f : σ → Except (σ × List ε) (α × σ)} (hok : ∀ s a s', f s = .ok (a, s') → s' = s ∧ V a)
    (herr : ∀ s s', f s ≠ .error (s', [])) :
    Yields T N (act look f) V where
  ok := by
    rintro s ts a s' - ⟨rfl, hf⟩
    obtain ⟨hs, hv⟩ := hok s a s' hf
    exact ⟨hs, hv, by simp⟩
  stop := by
    rintro s ts s' - ⟨-, hf⟩
    exact herr s s' hf

/-- What is checked holds. -/
theorem Yields.check {errs : List ε} (h : errs ≠ []) :
    Yields T N (check look c errs : Syn σ τ ε Unit) (fun _ => c = true) := by
  refine Yields.act (fun s a s' hf => ?_) (fun s s' hf => ?_)
  · cases c with
    | false => simp at hf
    | true => exact ⟨by simpa [eq_comm] using hf, rfl⟩
  · cases c with
    | false => simp [h] at hf
    | true => simp at hf

theorem Yields.note :
    Yields T N (note c err : Syn σ τ ε Unit) (fun _ => c = true) where
  ok := by
    rintro s ts a s' - ⟨rfl, rfl, hc⟩
    exact ⟨rfl, hc, by simp⟩
  stop := fun _ ha => ha

theorem Yields.many (hT : Hereditary T) {test : τ → Bool} {p : Syn σ τ ε α} (h : Yields T N p V) :
    Yields T N (many test err p) (fun as => ∀ a ∈ as, V a) := by
  have hmany : ∀ {s ts as s'}, T ts → Many p.derives s ts as s' →
      s' = s ∧ (∀ a ∈ as, V a) ∧ ∀ t ∈ ts, N t := by
    intro s ts as s' ht hm
    induction hm with
    | nil s => exact ⟨rfl, by simp, by simp⟩
    | cons hd hm ih =>
      obtain ⟨rfl, hv, hn⟩ := h.ok (hT.left ht) hd
      obtain ⟨rfl, hvs, hns⟩ := ih (hT.right ht)
      refine ⟨rfl, by simpa using ⟨hv, hvs⟩, fun t hmem => ?_⟩
      rcases mem_append.mp hmem with ht | ht
      · exact hn t ht
      · exact hns t ht
  refine ⟨fun ht hd => hmany ht hd, ?_⟩
  rintro s ts s' ht ⟨ts₁, ts₂, as, s₁, rfl, hm, ha⟩
  exact h.stop (hT.right ht) ha

/-! ### The general form -/

section

variable {P P' : σ → List τ → Prop} {Q : α → σ → List τ → Prop} {Q' : β → σ → List τ → Prop}
  {A : σ → List τ → Prop}

variable {p : Syn σ τ ε α}

theorem Holds.weaken {R : α → σ → List τ → Prop} (h : Holds T P p Q A) (hpre : ∀ s pre, P' s pre → P s pre)
    (hpost : ∀ a s pre, Q a s pre → R a s pre) :
    Holds T P' p R A where
  ok := fun ht hp hd => hpost _ _ _ (h.ok ht (hpre _ _ hp) hd)
  stop := fun ht hp ha => h.stop ht (hpre _ _ hp) ha

/-- A parameter of the conditions. -/
theorem Holds.param {ι : Type} {P : ι → σ → List τ → Prop} {Q : ι → α → σ → List τ → Prop}
    {A : ι → σ → List τ → Prop} (h : ∀ i, Holds T (P i) p (Q i) (A i)) :
    Holds T (fun s pre => ∃ i, P i s pre) p (fun a s pre => ∃ i, Q i a s pre)
      (fun s pre => ∃ i, A i s pre) where
  ok := by
    rintro s pre ts a s' ht ⟨i, hP⟩ hd
    exact ⟨i, (h i).ok ht hP hd⟩
  stop := by
    rintro s pre ts s' ht ⟨i, hP⟩ ha
    exact ⟨i, (h i).stop ht hP ha⟩

theorem Holds.pure {a : α} (h : ∀ s pre, P s pre → Q a s pre) :
    Holds T P (Pure.pure a : Syn σ τ ε α) Q A where
  ok := by
    rintro s pre ts b s' - hp ⟨rfl, rfl, rfl⟩
    rw [append_nil]
    exact h s' pre hp
  stop := fun _ _ ha => ha.elim

/-- One after the other; `V` is what is known of the value. -/
theorem Holds.bind (hT : Hereditary T) {f : α → Syn σ τ ε β} {V : α → Prop}
    (hp : Holds T P p (fun a s pre => V a ∧ Q a s pre) A) (hf : ∀ a, V a → Holds T (Q a) (f a) Q' A) :
    Holds T P (p >>= f) Q' A where
  ok := by
    rintro s pre ts b s' ht hP ⟨ts₁, ts₂, a, s₁, rfl, h₁, h₂⟩
    obtain ⟨hv, hq⟩ := hp.ok (hT.left ht) hP h₁
    rw [← append_assoc]
    exact (hf a hv).ok (hT.right ht) hq h₂
  stop := by
    rintro s pre ts s' ht hP (ha | ⟨ts₁, ts₂, a, s₁, rfl, h₁, h₂⟩)
    · exact hp.stop ht hP ha
    · obtain ⟨hv, hq⟩ := hp.ok (hT.left ht) hP h₁
      rw [← append_assoc]
      exact (hf a hv).stop (hT.right ht) hq h₂

variable {test : τ → Bool}

theorem Holds.choose {q : Syn σ τ ε α} (hp : Holds T P p Q A) (hq : Holds T P q Q A) :
    Holds T P (choose test p q) Q A where
  ok := by
    rintro s pre ts a s' ht hP (h | h)
    · exact hp.ok ht hP h
    · exact hq.ok ht hP h
  stop := by
    rintro s pre ts s' ht hP (h | h)
    · exact hp.stop ht hP h
    · exact hq.stop ht hP h

theorem Holds.act {look : Bool} {f : σ → Except (σ × List ε) (α × σ)}
    (hok : ∀ s pre a s', P s pre → f s = .ok (a, s') → Q a s' pre)
    (herr : ∀ s pre s', P s pre → f s = .error (s', []) → A s' pre) :
    Holds T P (act look f) Q A where
  ok := by
    rintro s pre ts a s' - hP ⟨rfl, hf⟩
    rw [append_nil]
    exact hok s pre a s' hP hf
  stop := by
    rintro s pre ts s' - hP ⟨rfl, hf⟩
    rw [append_nil]
    exact herr s pre s' hP hf

/-- Repetition; the invariant knows what has been read so far. -/
theorem Holds.many (hT : Hereditary T) {err : ε} {V : α → Prop} {I : List α → σ → List τ → Prop}
    (h : ∀ as, Holds T (I as) p (fun a s pre => V a ∧ I (as ++ [a]) s pre) A) :
    Holds T (I []) (many test err p) (fun as s pre => (∀ a ∈ as, V a) ∧ I as s pre) A := by
  have hmany : ∀ {s ts as s'}, Many p.derives s ts as s' → ∀ {pre bs}, T ts → I bs s pre →
      (∀ a ∈ as, V a) ∧ I (bs ++ as) s' (pre ++ ts) := by
    intro s ts as s' hm
    induction hm with
    | nil s =>
      intro pre bs _ hI
      simpa using hI
    | cons hd hm ih =>
      intro pre bs ht hI
      obtain ⟨hv, h₁⟩ := (h bs).ok (hT.left ht) hI hd
      obtain ⟨hvs, h₂⟩ := ih (hT.right ht) h₁
      exact ⟨by simpa using ⟨hv, hvs⟩, by simpa using h₂⟩
  refine ⟨fun ht hI hd => hmany hd ht hI, ?_⟩
  rintro s pre ts s' ht hI ⟨ts₁, ts₂, as, s₁, rfl, hm, ha⟩
  rw [← append_assoc]
  exact (h ([] ++ as)).stop (hT.right ht) (hmany hm (hT.left ht) hI).2 ha

/-- A piece without effect on the state, and tokens that do not matter to the precondition. -/
theorem Yields.holds {V : α → Prop} (h : Yields T N p V)
    (hP : ∀ s pre ts, (∀ t ∈ ts, N t) → P s pre → P s (pre ++ ts)) :
    Holds T P p (fun a s pre => V a ∧ P s pre) A where
  ok := by
    intro s pre ts a s' ht hpre hd
    obtain ⟨rfl, hv, hn⟩ := h.ok ht hd
    exact ⟨hv, hP _ _ _ hn hpre⟩
  stop := fun ht _ ha => (h.stop ht ha).elim

end

end Syn

end Anoubis.Lib

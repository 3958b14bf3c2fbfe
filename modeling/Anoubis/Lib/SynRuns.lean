import Anoubis.Lib.Syn

/-! Rules for what a parser leaves behind, whatever it reads.

    The rules for derivations speak of texts without errors. Here a run may report errors or fail:
    `Steady T I p V` says that `p` keeps `I` on the state either way, if the tokens satisfy `T`, and that
    its value satisfies `V`. A piece that never touches the state is `Inert`; most nonterminals of a
    grammar are. -/

namespace Anoubis.Lib

variable {σ τ ε α β : Type}

/-- A property of token lists that what is left of a list inherits. -/
def Suffixes (T : List τ → Prop) : Prop := ∀ t ts, T (t :: ts) → T ts

namespace Syn

/-- A run keeps `I` on the state, also if it fails. -/
structure Steady (T : List τ → Prop) (I : σ → Prop) (p : Syn σ τ ε α) (V : α → Prop) : Prop where
  ok : ∀ {s toks a s' rest errs}, T toks → I s → p.run s toks = .ok a s' rest errs → V a ∧ I s' ∧ T rest
  fail : ∀ {s toks s' unread errs}, T toks → I s → p.run s toks = .fail s' unread errs → I s'

variable {T : List τ → Prop} {I : σ → Prop} {V W : α → Prop}
variable {p : Syn σ τ ε α} {err : ε} {test : τ → Bool} {look c : Bool}

theorem Steady.mono (h : Steady T I p V) (hvw : ∀ a, V a → W a) : Steady T I p W where
  ok := fun ht hs hr => ⟨hvw _ (h.ok ht hs hr).1, (h.ok ht hs hr).2⟩
  fail := h.fail

theorem Steady.pure {a : α} (h : V a) : Steady T I (Pure.pure a : Syn σ τ ε α) V where
  ok := by
    intro s toks b s' rest errs ht hs hr
    obtain ⟨rfl, rfl, rfl, -⟩ := Res.ok.inj hr
    exact ⟨h, hs, ht⟩
  fail := fun _ _ hr => by cases hr

theorem Steady.bind {f : α → Syn σ τ ε β} {W : β → Prop} (hp : Steady T I p V)
    (hf : ∀ a, V a → Steady T I (f a) W) : Steady T I (p >>= f) W where
  ok := by
    intro s toks b s' rest errs ht hs hr
    rw [run_bind] at hr
    cases hrun : p.run s toks with
    | fail s₁ unread errs₁ =>
      rw [hrun] at hr
      cases hr
    | ok a s₁ rest₁ errs₁ =>
      rw [hrun] at hr
      obtain ⟨hv, hs₁, ht₁⟩ := hp.ok ht hs hrun
      cases hrun₁ : (f a).run s₁ rest₁ with
      | fail s₂ unread errs₂ => simp [hrun₁, Res.note] at hr
      | ok c s₂ rest₂ errs₂ =>
        simp only [hrun₁, Res.note, Res.ok.injEq] at hr
        obtain ⟨rfl, rfl, rfl, -⟩ := hr
        exact (hf a hv).ok ht₁ hs₁ hrun₁
  fail := by
    intro s toks s' unread errs ht hs hr
    rw [run_bind] at hr
    cases hrun : p.run s toks with
    | fail s₁ unread₁ errs₁ =>
      rw [hrun] at hr
      obtain ⟨rfl, -, -⟩ := Res.fail.inj hr
      exact hp.fail ht hs hrun
    | ok a s₁ rest₁ errs₁ =>
      rw [hrun] at hr
      obtain ⟨hv, hs₁, ht₁⟩ := hp.ok ht hs hrun
      cases hrun₁ : (f a).run s₁ rest₁ with
      | ok c s₂ rest₂ errs₂ => simp [hrun₁, Res.note] at hr
      | fail s₂ unread₂ errs₂ =>
        simp only [hrun₁, Res.note, Res.fail.injEq] at hr
        obtain ⟨rfl, -, -⟩ := hr
        exact (hf a hv).fail ht₁ hs₁ hrun₁

theorem Steady.token (hT : Suffixes T) {bad : τ → List ε} {f : τ → Option α} :
    Steady T I (token bad err f : Syn σ τ ε α) (fun _ => True) where
  ok := by
    intro s toks a s' rest errs ht hs hr
    cases toks with
    | nil => cases hr
    | cons t toks =>
      cases hf : f t with
      | none => simp [Syn.token, hf] at hr
      | some b =>
        simp only [Syn.token, hf, Res.ok.injEq] at hr
        obtain ⟨-, rfl, rfl, -⟩ := hr
        exact ⟨trivial, hs, hT t _ ht⟩
  fail := by
    intro s toks s' unread errs ht hs hr
    cases toks with
    | nil =>
      simp only [Syn.token, Res.fail.injEq] at hr
      exact hr.1 ▸ hs
    | cons t toks =>
      cases hf : f t with
      | some b => simp [Syn.token, hf] at hr
      | none =>
        simp only [Syn.token, hf, Res.fail.injEq] at hr
        exact hr.1 ▸ hs

variable {q : Syn σ τ ε α} {f : σ → Except (σ × List ε) (α × σ)} {errs : List ε}

theorem Steady.choose (hp : Steady T I p V) (hq : Steady T I q V) :
    Steady T I (choose test p q) V where
  ok := by
    intro s toks a s' rest errs ht hs hr
    simp only [Syn.choose] at hr
    split at hr
    · exact hp.ok ht hs hr
    · exact hq.ok ht hs hr
  fail := by
    intro s toks s' unread errs ht hs hr
    simp only [Syn.choose] at hr
    split at hr
    · exact hp.fail ht hs hr
    · exact hq.fail ht hs hr

theorem Steady.act (hok : ∀ s a s', I s → f s = .ok (a, s') → V a ∧ I s')
    (herr : ∀ s s' errs, I s → f s = .error (s', errs) → I s') : Steady T I (act look f) V where
  ok := by
    intro s toks a s' rest errs ht hs hr
    cases hf : f s with
    | error e => simp [Syn.act, hf] at hr
    | ok as =>
      simp only [Syn.act, hf, Res.ok.injEq] at hr
      obtain ⟨rfl, rfl, rfl, -⟩ := hr
      obtain ⟨hv, hs'⟩ := hok s as.1 as.2 hs hf
      exact ⟨hv, hs', ht⟩
  fail := by
    intro s toks s' unread errs ht hs hr
    cases hf : f s with
    | ok as => simp [Syn.act, hf] at hr
    | error e =>
      simp only [Syn.act, hf, Res.fail.injEq] at hr
      obtain ⟨rfl, -, -⟩ := hr
      exact herr s e.1 e.2 hs hf

theorem Steady.check : Steady T I (check look c errs : Syn σ τ ε Unit) (fun _ => True) := by
  refine Steady.act (fun s a s' hs hr => ?_) (fun s s' errs' hs hr => ?_)
  · cases c with
    | false => simp at hr
    | true =>
      simp only [if_true, Except.ok.injEq, Prod.mk.injEq, true_and] at hr
      exact ⟨trivial, hr ▸ hs⟩
  · cases c with
    | true => simp at hr
    | false =>
      simp only [Bool.false_eq_true, if_false, Except.error.injEq, Prod.mk.injEq] at hr
      exact hr.1 ▸ hs

theorem Steady.note :
    Steady T I (note c err : Syn σ τ ε Unit) (fun _ => True) where
  ok := by
    intro s toks a s' rest errs ht hs hr
    simp only [Syn.note, Res.ok.injEq] at hr
    obtain ⟨-, rfl, rfl, -⟩ := hr
    exact ⟨trivial, hs, ht⟩
  fail := by
    intro s toks s' unread errs ht hs hr
    cases hr

theorem Steady.many (h : Steady T I p V) : Steady T I (many test err p) (fun as => ∀ a ∈ as, V a) := by
  have hrun : ∀ (n : ℕ) {s toks}, T toks → I s →
      (∀ {as s' rest errs}, manyRun test err p.run n s toks = .ok as s' rest errs →
        (∀ a ∈ as, V a) ∧ I s' ∧ T rest) ∧
      ∀ {s' unread errs}, manyRun test err p.run n s toks = .fail s' unread errs → I s' := by
    intro n
    induction n with
    | zero =>
      intro s toks ht hs
      rw [manyRun]
      split
      · refine ⟨fun hr => (by cases hr), fun hr => ?_⟩
        exact (Res.fail.inj hr).1 ▸ hs
      · refine ⟨fun hr => ?_, fun hr => (by cases hr)⟩
        obtain ⟨rfl, rfl, rfl, -⟩ := Res.ok.inj hr
        exact ⟨by simp, hs, ht⟩
    | succ n ih =>
      intro s toks ht hs
      rw [manyRun]
      split
      · cases hp : p.run s toks with
        | fail s₁ unread₁ errs₁ =>
          refine ⟨fun hr => (by cases hr), fun hr => ?_⟩
          exact (Res.fail.inj hr).1 ▸ h.fail ht hs hp
        | ok a s₁ rest₁ errs₁ =>
          obtain ⟨hv, hs₁, ht₁⟩ := h.ok ht hs hp
          obtain ⟨hok, hfail⟩ := ih ht₁ hs₁
          cases hm : manyRun test err p.run n s₁ rest₁ with
          | fail s₂ unread₂ errs₂ =>
            simp only [hm]
            refine ⟨fun hr => (by cases hr), fun hr => ?_⟩
            exact (Res.fail.inj hr).1 ▸ hfail hm
          | ok as s₂ rest₂ errs₂ =>
            simp only [hm]
            obtain ⟨hvs, hs₂, ht₂⟩ := hok hm
            refine ⟨fun hr => ?_, fun hr => (by cases hr)⟩
            obtain ⟨rfl, rfl, rfl, -⟩ := Res.ok.inj hr
            exact ⟨by simpa using ⟨hv, hvs⟩, hs₂, ht₂⟩
      · refine ⟨fun hr => ?_, fun hr => (by cases hr)⟩
        obtain ⟨rfl, rfl, rfl, -⟩ := Res.ok.inj hr
        exact ⟨by simp, hs, ht⟩
  exact ⟨fun ht hs hr => (hrun _ ht hs).1 hr, fun ht hs hr => (hrun _ ht hs).2 hr⟩

/-! ### No effect on the state -/

/-- A piece that keeps everything. -/
def Inert (p : Syn σ τ ε α) : Prop :=
  ∀ (T : List τ → Prop) (I : σ → Prop), Suffixes T → Steady T I p (fun _ => True)

theorem Inert.pure (a : α) : Inert (Pure.pure a : Syn σ τ ε α) := fun _ _ _ => Steady.pure trivial

theorem Inert.next {f : α → Syn σ τ ε β} (hp : Inert p) (hf : ∀ a, Inert (f a)) : Inert (p >>= f) :=
  fun T I hT => (hp T I hT).bind fun a _ => hf a T I hT

theorem Inert.token (bad : τ → List ε) (err : ε) (f : τ → Option α) : Inert (token bad err f : Syn σ τ ε α) :=
  fun _ _ hT => Steady.token hT

theorem Inert.choose (hp : Inert p) (hq : Inert q) : Inert (choose test p q) :=
  fun T I hT => (hp T I hT).choose (hq T I hT)

theorem Inert.check : Inert (check look c errs : Syn σ τ ε Unit) :=
  fun _ _ _ => Steady.check

theorem Inert.note : Inert (note c err : Syn σ τ ε Unit) :=
  fun _ _ _ => Steady.note

theorem Inert.many (hp : Inert p) : Inert (many test err p) :=
  fun T I hT => (hp T I hT).many.mono fun _ _ => trivial

/-- An action that only looks at the state. -/
theorem Inert.act (hok : ∀ s a s', f s = .ok (a, s') → s' = s)
    (herr : ∀ s s' errs, f s = .error (s', errs) → s' = s) : Inert (act look f : Syn σ τ ε α) :=
  fun _ _ _ => Steady.act (fun s a s' hs hr => ⟨trivial, hok s a s' hr ▸ hs⟩)
    fun s s' errs hs hr => herr s s' errs hr ▸ hs

end Syn

end Anoubis.Lib

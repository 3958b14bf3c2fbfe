import Mathlib.Data.List.Induction

/-! Runs of a step function.

    A step takes a state and an event to the next state, or it gets stuck. `runs` feeds a list of
    events to it; `Along` says that a condition on state and event holds at every step of the run.
    What each step keeps under the condition holds at the end; the invariant may look at the whole
    history. -/

namespace Anoubis.Lib

open List

open Option

variable {σ ε : Type}

/-- The state behind all events. -/
def runs (step : σ → ε → Option σ) : σ → List ε → Option σ
  | s, [] => some s
  | s, e :: es => (step s e).bind (fun s => runs step s es)

/-- `P` holds of the state and the event at every step. -/
def Along (step : σ → ε → Option σ) (P : σ → ε → Prop) : σ → List ε → Prop
  | _, [] => True
  | s, e :: es => P s e ∧ ∀ s', step s e = some s' → Along step P s' es

variable {step : σ → ε → Option σ} {P : σ → ε → Prop}

theorem runs_append (s : σ) (es es' : List ε) :
    runs step s (es ++ es') = (runs step s es).bind (fun s => runs step s es') := by
  induction es generalizing s with
  | nil => rfl
  | cons e es ih =>
    rw [cons_append, runs, runs, bind_assoc]
    exact bind_congr fun s' _ => ih s'

variable {s s' : σ} {es : List ε} {I : σ → Prop} {P' : σ → ε → Prop}

theorem runs_concat {e : ε} (h : runs step s (es ++ [e]) = some s') :
    ∃ s₁, runs step s es = some s₁ ∧ step s₁ e = some s' := by
  rw [runs_append] at h
  obtain ⟨s₁, h₁, h⟩ := bind_eq_some_iff.mp h
  obtain ⟨s₂, h₂, h⟩ := bind_eq_some_iff.mp h
  exact ⟨s₁, h₁, by rw [h₂, ← some.inj h]⟩

theorem along_append {es' : List ε} : Along step P s (es ++ es') ↔
    Along step P s es ∧ ∀ s', runs step s es = some s' → Along step P s' es' := by
  induction es generalizing s with
  | nil => simp [Along, runs]
  | cons e es ih =>
    rw [cons_append, Along, Along]
    constructor
    · rintro ⟨hp, h⟩
      refine ⟨⟨hp, fun s' hs => (ih.mp (h s' hs)).1⟩, fun s' hr => ?_⟩
      obtain ⟨s₁, hs, hr⟩ := bind_eq_some_iff.mp hr
      exact (ih.mp (h s₁ hs)).2 s' hr
    · rintro ⟨⟨hp, h⟩, hr⟩
      refine ⟨hp, fun s' hs => ih.mpr ⟨h s' hs, fun s₂ hr₂ => hr s₂ ?_⟩⟩
      rw [runs, hs]
      exact hr₂

/-- An invariant that knows the events so far. -/
theorem runs_history {I : σ → List ε → Prop}
    (hstep : ∀ s h e s', I s h → P s e → step s e = some s' → I s' (h ++ [e])) {h : List ε} (h0 : I s h)
    (ha : Along step P s es) (hr : runs step s es = some s') : I s' (h ++ es) := by
  induction es generalizing s h with
  | nil =>
    rw [← some.inj hr, append_nil]
    exact h0
  | cons e es ih =>
    obtain ⟨s₁, hs, hr⟩ := bind_eq_some_iff.mp hr
    have h₁ : I s₁ (h ++ [e]) := hstep s h e s₁ h0 ha.1 hs
    rw [append_cons]
    exact ih h₁ (ha.2 s₁ hs) hr

/-- An invariant of the states. -/
theorem runs_invariant (hstep : ∀ s e s', I s → P s e → step s e = some s' → I s') (h0 : I s)
    (ha : Along step P s es) (hr : runs step s es = some s') : I s' :=
  runs_history (I := fun s _ => I s) (fun s _ e s' hI hp hs => hstep s e s' hI hp hs) (h := es) h0 ha hr

/-- A condition at every step gives another one, where an invariant holds. -/
theorem Along.mono (hkeep : ∀ s e s', I s → step s e = some s' → I s') (himp : ∀ s e, I s → P s e → P' s e)
    (h0 : I s) (ha : Along step P s es) : Along step P' s es := by
  induction es generalizing s with
  | nil => trivial
  | cons e es ih =>
    exact ⟨himp s e h0 ha.1, fun s' hs => ih (hkeep s e s' h0 hs) (ha.2 s' hs)⟩

/-- Two conditions that mean the same, where an invariant holds that the first one keeps. -/
theorem along_iff (hiff : ∀ s e, I s → (P s e ↔ P' s e))
    (hkeep : ∀ s e s', I s → P s e → step s e = some s' → I s') (h0 : I s) (es : List ε) :
    Along step P s es ↔ Along step P' s es := by
  induction es generalizing s with
  | nil => exact .rfl
  | cons e es ih =>
    rw [Along, Along]
    constructor
    · rintro ⟨hp, h⟩
      exact ⟨(hiff s e h0).mp hp, fun s' hs => (ih (hkeep s e s' h0 hp hs)).mp (h s' hs)⟩
    · rintro ⟨hp', h⟩
      have hp : P s e := (hiff s e h0).mpr hp'
      exact ⟨hp, fun s' hs => (ih (hkeep s e s' h0 hp hs)).mpr (h s' hs)⟩

theorem Along.and (h : Along step P s es) (h' : Along step P' s es) :
    Along step (fun s e => P s e ∧ P' s e) s es := by
  induction es generalizing s with
  | nil => trivial
  | cons e es ih => exact ⟨⟨h.1, h'.1⟩, fun s' hs => ih (h.2 s' hs) (h'.2 s' hs)⟩

/-- What every step relates, the run relates. -/
theorem runs_related {r : σ → σ → Prop} (hrefl : ∀ s, r s s) (htrans : ∀ {a b c}, r a b → r b c → r a c)
    (ha : Along step (fun s e => ∀ s', step s e = some s' → r s s') s es) (hr : runs step s es = some s') :
    r s s' := by
  induction es generalizing s with
  | nil =>
    rw [← some.inj hr]
    exact hrefl s
  | cons e es ih =>
    obtain ⟨s₁, hs, hr⟩ := bind_eq_some_iff.mp hr
    exact htrans (ha.1 s₁ hs) (ih (ha.2 s₁ hs) hr)

/-- Since when `Q` holds: some step made it true, and it has been true behind every step from there. -/
theorem runs_since {Q : σ → Prop} {s₀ : σ} (h0 : ¬ Q s₀) (hr : runs step s₀ es = some s) (hq : Q s) :
    ∃ pre e post s₁, es = pre ++ e :: post ∧ runs step s₀ pre = some s₁ ∧ ¬ Q s₁ ∧ runs step s₁ (e :: post) = some s ∧
      Along step (fun s e => ∀ s', step s e = some s' → Q s') s₁ (e :: post) := by
  -- from the last step backwards, to the last state without `Q`
  induction es using List.reverseRecOn generalizing s with
  | nil =>
    rw [← some.inj hr] at hq
    exact absurd hq h0
  | append_singleton es x ih =>
    obtain ⟨s', hr', hx⟩ := runs_concat hr
    have hlast : ∀ s'', step s' x = some s'' → Q s'' := by
      intro s'' h
      rwa [← some.inj (hx.symm.trans h)]
    by_cases hq' : Q s'
    · obtain ⟨pre, e, post, s₁, rfl, hpre, hn, hpost, ha⟩ := ih hr' hq'
      refine ⟨pre, e, post ++ [x], s₁, by simp, hpre, hn, ?_, ?_⟩
      · rw [← cons_append, runs_append, hpost, bind_some, runs, hx]
        rfl
      · rw [← cons_append, along_append]
        refine ⟨ha, fun s'' h => ?_⟩
        cases hpost.symm.trans h
        exact ⟨hlast, fun _ _ => trivial⟩
    · refine ⟨es, x, [], s', rfl, hr', hq', ?_, hlast, fun _ _ => trivial⟩
      rw [runs, hx]
      rfl

/-- What holds behind every step holds behind the last one. -/
theorem along_behind {Q : σ → Prop} {e : ε}
    (h : Along step (fun s e => ∀ s', step s e = some s' → Q s') s (es ++ [e]))
    (hr : runs step s (es ++ [e]) = some s') : Q s' := by
  obtain ⟨s₁, h₁, hs⟩ := runs_concat hr
  exact ((along_append.mp h).2 s₁ h₁).1 s' hs

/-- A step function that never gets stuck. -/
theorem runs_total (f : σ → ε → σ) (s : σ) (es : List ε) :
    runs (fun s e => some (f s e)) s es = some (es.foldl f s) := by
  induction es generalizing s with
  | nil => rfl
  | cons e es ih =>
    rw [runs, bind_some, foldl_cons]
    exact ih (f s e)

theorem along_total (f : σ → ε → σ) (s : σ) (e : ε) (es : List ε) : Along (fun s e => some (f s e)) P s (e :: es) ↔
      P s e ∧ Along (fun s e => some (f s e)) P (f s e) es := by
  rw [Along]
  refine and_congr_right fun _ => ⟨fun h => h _ rfl, fun h s' hs => ?_⟩
  rw [← some.inj hs]
  exact h

instance decidableAlongTotal [∀ s e, Decidable (P s e)] (f : σ → ε → σ) (s : σ) (es : List ε) :
    Decidable (Along (fun s e => some (f s e)) P s es) :=
  match es with
  | [] => isTrue trivial
  | e :: es =>
    have := decidableAlongTotal f (f s e) es
    decidable_of_iff _ (along_total f s e es).symm

theorem along_cons {e : ε} (h : step s e = some s') (es : List ε) :
    Along step P s (e :: es) ↔ P s e ∧ Along step P s' es := by
  rw [Along]
  refine and_congr_right fun _ => ⟨fun ha => ha s' h, fun ha s₁ hs => ?_⟩
  rwa [← some.inj (h.symm.trans hs)]

theorem along_stuck {e : ε} (h : step s e = none) (es : List ε) : Along step P s (e :: es) ↔ P s e := by
  rw [Along]
  refine and_iff_left fun s' hs => ?_
  cases h.symm.trans hs

instance decidableAlong [∀ s e, Decidable (P s e)] (s : σ) (es : List ε) : Decidable (Along step P s es) :=
  match es with
  | [] => isTrue trivial
  | e :: es =>
    match h : step s e with
    | none => decidable_of_iff _ (along_stuck h es).symm
    | some s' =>
      have := decidableAlong s' es
      decidable_of_iff _ (along_cons h es).symm

/-- A condition that the events meet in every state. -/
theorem along_of_mem (h : ∀ e ∈ es, ∀ s, P s e) (s : σ) : Along step P s es := by
  induction es generalizing s with
  | nil => trivial
  | cons e es ih =>
    refine ⟨h e mem_cons_self s, fun s' _ => ih (fun e' he' => ?_) s'⟩
    exact h e' (mem_cons_of_mem e he')

/-- A condition that always holds. -/
theorem along_of_forall (h : ∀ s e, P s e) (s : σ) (es : List ε) : Along step P s es :=
  along_of_mem (fun e _ s => h s e) s

/-- An invariant that knows the events and that every step keeps. -/
theorem runs_remember {I : σ → List ε → Prop} (hstep : ∀ s h e s', I s h → step s e = some s' → I s' (h ++ [e]))
    (h0 : I s []) (hr : runs step s es = some s') : I s' es :=
  runs_history (P := fun _ _ => True) (fun s h e s' hI _ hs => hstep s h e s' hI hs) h0
    (along_of_forall (fun _ _ => trivial) s es) hr

/-- An invariant that every step keeps. -/
theorem runs_keep (hstep : ∀ s e s', I s → step s e = some s' → I s') (h0 : I s) (hr : runs step s es = some s') :
    I s' :=
  runs_remember (I := fun s _ => I s) (fun s _ e s' hI hs => hstep s e s' hI hs) h0 hr

/-- An invariant under which there is always a next step. -/
theorem runs_go (hstep : ∀ s e, I s → ∃ s', step s e = some s' ∧ I s') (h0 : I s) (es : List ε) :
    ∃ s', runs step s es = some s' ∧ I s' := by
  induction es generalizing s with
  | nil => exact ⟨s, rfl, h0⟩
  | cons e es ih =>
    obtain ⟨s₁, hs, h₁⟩ := hstep s e h0
    rw [runs, hs]
    exact ih h₁

end Anoubis.Lib

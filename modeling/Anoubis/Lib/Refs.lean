import Mathlib.Data.Multiset.Count

/-! Programs on reference counted objects.

    A program is a state transformer that fails on an access to freed memory. `Does P m Q` says that
    `m`, started where `P` holds, does not fail and ends where `Q` holds.

    Objects live in cells, and a cell knows how many references there are. `Counted h R` says that the
    cells of `h` are counted by the multiset `R` of all references: a cell exists exactly as long as
    somebody refers to it.

        reference c :  R ⟶ c ::ₘ R          put c :  c ::ₘ R ⟶ R, and the last one frees the cell  -/

namespace Anoubis.Lib

open Multiset

open Option

variable {σ α β V : Type}

/-! ### Pre- and postconditions -/

/-- Started in `P`, the program ends, and it ends in `Q`. -/
def Does (P : σ → Prop) (m : StateT σ Option α) (Q : α → σ → Prop) : Prop :=
  ∀ s, P s → ∃ a s', m.run s = some (a, s') ∧ Q a s'

variable {m : StateT σ Option α} {P P' : σ → Prop} {Q : α → σ → Prop}
variable {a : α} {f : α → StateT σ Option β} {Q' : α → σ → Prop} {p : Prop} {n : StateT σ Option α}

theorem run_bind {s s' : σ} (h : m.run s = some (a, s')) (f : α → StateT σ Option β) :
    (m >>= f).run s = (f a).run s' := by
  rw [StateT.run_bind, h]
  rfl

theorem Does.pure (h : ∀ s, P s → Q a s) : Does P (Pure.pure a : StateT σ Option α) Q :=
  fun s hs => ⟨a, s, rfl, h s hs⟩

theorem Does.bind {R : α → σ → Prop} {Q : β → σ → Prop} (hm : Does P m R) (hf : ∀ a, Does (R a) (f a) Q) :
    Does P (m >>= f) Q := by
  intro s hs
  obtain ⟨a, s₁, h₁, hr⟩ := hm s hs
  obtain ⟨b, s₂, h₂, hq⟩ := hf a s₁ hr
  exact ⟨b, s₂, (run_bind h₁ f).trans h₂, hq⟩

theorem Does.mono (h : Does P m Q) (hp : ∀ s, P' s → P s) (hq : ∀ a s, Q a s → Q' a s) : Does P' m Q' := by
  intro s hs
  obtain ⟨a, s', hr, hqs⟩ := h s (hp s hs)
  exact ⟨a, s', hr, hq a s' hqs⟩

theorem Does.pre (h : Does P m Q) (hp : ∀ s, P' s → P s) : Does P' m Q :=
  h.mono hp fun _ _ hq => hq

theorem Does.post (h : Does P m Q) (hq : ∀ a s, Q a s → Q' a s) : Does P m Q' :=
  h.mono (fun _ hs => hs) hq

/-- Another description of the states before and after. -/
theorem Does.congr {Q Q' : σ → Prop} (h : Does P' m (fun _ => Q')) (hp : ∀ s, P s ↔ P' s) (hq : ∀ s, Q s ↔ Q' s) :
    Does P m (fun _ => Q) :=
  h.mono (fun s hs => (hp s).mp hs) fun _ s hs => (hq s).mpr hs

/-- A fact about the state before that does not depend on it. -/
theorem Does.pull (h : p → Does P m Q) : Does (fun s => p ∧ P s) m Q :=
  fun s hs => h hs.1 s hs.2

theorem Does.ite {c : Prop} [Decidable c] (hm : c → Does P m Q) (hn : ¬ c → Does P n Q) :
    Does P (if c then m else n) Q := by
  split
  · exact hm ‹_›
  · exact hn ‹_›

/-- Step after step, until one has a result. -/
def loop (step : α → StateT σ Option (α ⊕ β)) (a : α) : StateT σ Option β :=
  step a >>= fun r => match r with
    | .inl a' => by
      apply loop
      · exact step
      · exact a'
    | .inr b => pure b
partial_fixpoint

/-- How a loop goes on behind a step. -/
def next (step : α → StateT σ Option (α ⊕ β)) : α ⊕ β → StateT σ Option β
  | .inl a => loop step a
  | .inr b => pure b

variable (step : α → StateT σ Option (α ⊕ β))

theorem loop_eq (a : α) : loop step a = step a >>= next step := by
  rw [loop]
  refine bind_congr fun r => ?_
  cases r <;> rfl

theorem inl_next (a : α) : (Pure.pure (.inl a) : StateT σ Option (α ⊕ β)) >>= next step = loop step a := pure_bind ..

theorem inr_next (b : β) : (Pure.pure (.inr b) : StateT σ Option (α ⊕ β)) >>= next step = Pure.pure b := pure_bind ..

theorem ite_next {c : Prop} [Decidable c] (m n : StateT σ Option (α ⊕ β)) :
    (if c then m else n) >>= next step = if c then m >>= next step else n >>= next step :=
  apply_ite (· >>= next step) c m n

/-- A loop over a list: `I` knows what has been done already. -/
theorem Does.forM {I : List α → σ → Prop} {f : α → StateT σ Option PUnit} {l : List α}
    (h : ∀ pre a post, l = pre ++ a :: post → Does (I pre) (f a) (fun _ => I (pre ++ [a]))) :
    Does (I []) (l.forM f) (fun _ => I l) := by
  have hgo : ∀ (todo pre : List α), l = pre ++ todo → Does (I pre) (todo.forM f) (fun _ => I l) := by
    intro todo
    induction todo with
    | nil =>
      intro pre hl
      rw [List.append_nil] at hl
      subst hl
      exact Does.pure fun s hs => hs
    | cons a todo ih =>
      intro pre hl
      change Does (I pre) (f a >>= fun _ => todo.forM f) _
      refine Does.bind (h pre a todo hl) fun _ => ih (pre ++ [a]) ?_
      rw [hl, List.append_cons]
  exact hgo l [] rfl

/-- Started in `P`, the program ends in `Q` if it does not fail. -/
def Keeps (P : σ → Prop) (m : StateT σ Option α) (Q : α → σ → Prop) : Prop :=
  ∀ s a s', P s → m.run s = some (a, s') → Q a s'

theorem Keeps.pure (h : ∀ s, P s → Q a s) : Keeps P (Pure.pure a : StateT σ Option α) Q := by
  intro s b s' hs hr
  cases hr
  exact h s hs

theorem Keeps.bind {R : α → σ → Prop} {Q : β → σ → Prop} (hm : Keeps P m R) (hf : ∀ a, Keeps (R a) (f a) Q) :
    Keeps P (m >>= f) Q := by
  intro s b s' hs hr
  rw [StateT.run_bind] at hr
  obtain ⟨⟨a, s₁⟩, h₁, h₂⟩ := bind_eq_some_iff.mp hr
  exact hf a s₁ b s' (hm s a s₁ hs h₁) h₂

theorem Keeps.ite {c : Prop} [Decidable c] (hm : c → Keeps P m Q) (hn : ¬ c → Keeps P n Q) :
    Keeps P (if c then m else n) Q := by
  split
  · exact hm ‹_›
  · exact hn ‹_›

/-- A fact about the state before that does not depend on it. -/
theorem Keeps.pull (h : p → Keeps P m Q) : Keeps (fun s => p ∧ P s) m Q :=
  fun s a s' hs hr => h hs.1 s a s' hs.2 hr

theorem Keeps.failure : Keeps P (failure : StateT σ Option α) Q :=
  fun _ _ _ _ hr => nomatch hr

/-! ### Cells -/

structure Cell (V : Type) where
  refcount : ℤ
  val : V

/-- The objects that are allocated, by address. -/
abbrev Cells (V : Type) := ℕ → Option (Cell V)

namespace Cells

/-- What is stored at an address. -/
def val (h : Cells V) (c : ℕ) : Option V := (h c).map Cell.val

/-- A new object; its creator holds the reference. -/
def new (c : ℕ) (v : V) (h : Cells V) : Cells V := Function.update h c (some ⟨1, v⟩)

/-- Write to an object. -/
def write (c : ℕ) (v : V) (h : Cells V) : Option (Cells V) :=
  (h c).map (fun x => Function.update h c (some ⟨x.refcount, v⟩))

/-- One more reference. -/
def reference (c : ℕ) (h : Cells V) : Option (Cells V) :=
  (h c).map (fun x => Function.update h c (some ⟨x.refcount + 1, x.val⟩))

/-- One reference less; the object is returned if it was the last one. -/
def put (c : ℕ) (h : Cells V) : Option (Option V × Cells V) :=
  (h c).map (fun x =>
    if x.refcount - 1 = 0 then (some x.val, Function.update h c none)
    else (none, Function.update h c (some ⟨x.refcount - 1, x.val⟩)))

/-- The reference counts are right, where `R` are all references. -/
def Counted (h : Cells V) (R : Multiset ℕ) : Prop :=
  ∀ c, (∀ x, h c = some x → x.refcount = R.count c ∧ c ∈ R) ∧ (h c = none → c ∉ R)

variable {h : Cells V} {R : Multiset ℕ} {c : ℕ}

theorem Counted.isSome_iff (hc : Counted h R) : (h c).isSome ↔ c ∈ R := by
  cases hx : h c with
  | none => simpa using (hc c).2 hx
  | some x => simpa using ((hc c).1 x hx).2

/-- Only the cell `c` and the references to it have changed. -/
theorem Counted.update (hc : Counted h R) {R' : Multiset ℕ} (o : Option (Cell V))
    (hcount : ∀ d, d ≠ c → R'.count d = R.count d)
    (hsome : ∀ x, o = some x → x.refcount = R'.count c ∧ c ∈ R') (hnone : o = none → c ∉ R') :
    Counted (Function.update h c o) R' := by
  intro d
  by_cases hd : d = c
  · subst hd
    rw [Function.update_self]
    exact ⟨hsome, hnone⟩
  · rw [Function.update_of_ne hd]
    have hmem : d ∈ R' ↔ d ∈ R := by
      rw [← count_pos, ← count_pos, hcount d hd]
    rw [hcount d hd, hmem]
    exact hc d

theorem val_update_of_ne {d : ℕ} (hd : d ≠ c) (o : Option (Cell V)) : val (Function.update h c o) d = h.val d := by
  rw [val, Function.update_of_ne hd, val]

theorem val_update_self (o : Option (Cell V)) : val (Function.update h c o) c = o.map Cell.val := by
  rw [val, Function.update_self]

theorem val_write {v : V} {h' : Cells V} (hw : write c v h = some h') : h'.val c = some v := by
  cases hx : h c with
  | none => simp [write, hx] at hw
  | some x =>
    rw [write, hx] at hw
    rw [← some.inj hw, val_update_self]
    rfl

theorem counted_new (hc : Counted h R) (hn : c ∉ R) (v : V) :
    Counted (new c v h) (c ::ₘ R) ∧ val (new c v h) c = some v ∧
      ∀ d, d ≠ c → val (new c v h) d = h.val d := by
  refine ⟨hc.update _ (fun d hd => count_cons_of_ne hd R) ?_ (fun hx => by cases hx), ?_, ?_⟩
  · intro x hx
    cases hx
    simp [count_eq_zero_of_notMem hn]
  · rw [new, val_update_self]
    rfl
  · intro d hd
    exact val_update_of_ne hd _

theorem counted_write (hc : Counted h R) (hm : c ∈ R) (v : V) :
    ∃ h', write c v h = some h' ∧ Counted h' R ∧ h'.val c = some v ∧
      ∀ d, d ≠ c → h'.val d = h.val d := by
  obtain ⟨x, hx⟩ := isSome_iff_exists.mp (hc.isSome_iff.mpr hm)
  refine ⟨_, by rw [write, hx]; rfl, hc.update _ (fun _ _ => rfl) ?_ (fun hn => by cases hn), ?_, ?_⟩
  · intro y hy
    cases hy
    exact (hc c).1 x hx
  · rw [val_update_self]
    rfl
  · intro d hd
    exact val_update_of_ne hd _

theorem counted_reference (hc : Counted h R) (hm : c ∈ R) :
    ∃ h', reference c h = some h' ∧ Counted h' (c ::ₘ R) ∧ h'.val = h.val := by
  obtain ⟨x, hx⟩ := isSome_iff_exists.mp (hc.isSome_iff.mpr hm)
  refine ⟨_, by rw [reference, hx]; rfl,
    hc.update _ (fun d hd => count_cons_of_ne hd R) ?_ (fun hn => by cases hn), ?_⟩
  · intro y hy
    cases hy
    have hcount := ((hc c).1 x hx).1
    simp [hcount]
  · funext d
    by_cases hd : d = c
    · subst hd
      rw [val_update_self, val, hx]
      rfl
    · exact val_update_of_ne hd _

/-- Dropping a reference: what others refer to stays. -/
theorem counted_put (hc : Counted h (c ::ₘ R)) :
    ∃ r h', put c h = some (r, h') ∧ Counted h' R ∧ (r = if c ∈ R then none else h.val c) ∧
      ∀ d ∈ R, h'.val d = h.val d := by
  obtain ⟨x, hx⟩ := isSome_iff_exists.mp (hc.isSome_iff.mpr (mem_cons_self c R))
  have hcount : x.refcount = R.count c + 1 := by
    have h1 := ((hc c).1 x hx).1
    rw [count_cons_self] at h1
    exact_mod_cast h1
  have hother : ∀ d, d ≠ c → R.count d = (c ::ₘ R).count d :=
    fun d hd => (count_cons_of_ne hd R).symm
  by_cases hm : c ∈ R
  · have hpos : 0 < R.count c := count_pos.mpr hm
    have hne : x.refcount - 1 ≠ 0 := by omega
    refine ⟨none, _, by rw [put, hx, map_some, if_neg hne],
      hc.update _ hother ?_ (fun hn => by cases hn), by rw [if_pos hm], ?_⟩
    · intro y hy
      cases hy
      exact ⟨by simp only; omega, hm⟩
    · intro d _
      by_cases hd : d = c
      · subst hd
        rw [val_update_self, val, hx]
        rfl
      · exact val_update_of_ne hd _
  · have h0 : x.refcount - 1 = 0 := by
      rw [hcount, count_eq_zero_of_notMem hm]
      rfl
    refine ⟨some x.val, _, by rw [put, hx, map_some, if_pos h0],
      hc.update _ hother (fun y hy => by cases hy) (fun _ => hm), ?_, ?_⟩
    · rw [if_neg hm, val, hx]
      rfl
    · intro d hd
      have hdc : d ≠ c := fun he => hm (he ▸ hd)
      exact val_update_of_ne hdc _

end Cells

end Anoubis.Lib

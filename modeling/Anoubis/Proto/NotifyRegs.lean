import Anoubis.Proto.NotifyRuns

/-! The registrations of a group (`anoubis_notify_register` and `anoubis_notify_unregister`).

    `reg_match` serves two masters. For a message it asks whether a registration covers it, and there
    uid -1, rule 0 and subsystem 0 of the registration are wildcards. `anoubis_notify_unregister` asks
    the same question with the triple it is given, walks from the newest registration to the oldest and
    takes the first that matches.

        register (1000, 5, 7)   regs = [(1000, 5, 7)]
        register (1000, 0, 0)   regs = [(1000, 0, 0), (1000, 5, 7)]
        unregister (1000, 5, 7) regs = [(1000, 5, 7)]

    The manual page has it that only the exact parameters of an earlier registration unregister. -/

namespace Anoubis.Proto.Notify

open Multiset

open List

open Anoubis.Lib Option

/-- A call that changes the registrations of a group; `stat` is ANOUBIS_SOURCE_STAT. -/
inductive RegCall where
  | register (reg : Reg)
  | unregister (reg : Reg)
  deriving DecidableEq

def RegCall.call (stat : U32) (g : ℕ) : RegCall → M ℤ
  | .register reg => anoubisNotifyRegister stat g reg.uid reg.ruleid reg.subsystem
  | .unregister reg => anoubisNotifyUnregister g reg.uid reg.ruleid reg.subsystem

/-- What a sequence of calls goes through: the memory, and the calls so far with what they returned. -/
structure RegState where
  store : Store
  log : List (RegCall × ℤ)

def regStep (stat : U32) (g : ℕ) (st : RegState) (c : RegCall) : Option RegState :=
  ((c.call stat g).run st.store).map (fun x => ⟨x.2, st.log ++ [(c, x.1)]⟩)

/-- The registrations of the group, in no order. -/
def regsOf (s : Store) (g : ℕ) : Multiset Reg :=
  match s.groups g with
  | none => 0
  | some ng => (ng.regs : Multiset Reg)

/-- What the successful calls of the one kind registered. -/
def registered (log : List (RegCall × ℤ)) : Multiset Reg :=
  (log.filterMap fun x =>
    match x.1, x.2 with
    | .register reg, 0 => some reg
    | _, _ => none : List Reg)

/-- What the successful calls of the other kind took back. -/
def unregistered (log : List (RegCall × ℤ)) : Multiset Reg :=
  (log.filterMap fun x =>
    match x.1, x.2 with
    | .unregister reg, 0 => some reg
    | _, _ => none : List Reg)

/-- The call returns, a success adds or removes the one registration of its triple, a refusal changes
    nothing, and -ESRCH says that there is no such registration. -/
def Exact (stat : U32) (g : ℕ) (st : RegState) (c : RegCall) : Prop :=
  ∃ ret s', (c.call stat g).run st.store = some (ret, s') ∧
    match c with
    | .register reg =>
      (ret = 0 ∧ regsOf s' g = reg ::ₘ regsOf st.store g) ∨ (ret = -eperm ∧ s' = st.store)
    | .unregister reg =>
      ((ret = 0 ∧ reg ::ₘ regsOf s' g = regsOf st.store g) ∨ (ret = -esrch ∧ s' = st.store)) ∧
        (ret = -esrch ↔ reg ∉ regsOf st.store g)

/-- The newest registration that matches the triple, if there is one, is equal to it. -/
def FirstEqual (g : ℕ) (st : RegState) (c : RegCall) : Prop :=
  match c with
  | .register _ => True
  | .unregister reg => ∀ ng, st.store.groups g = some ng →
      ∀ r, ng.regs.find? (regMatch reg.uid reg.ruleid reg.subsystem) = some r → r = reg

/-- Every call of the sequence is exact, and behind every prefix of it the group has what it had
    and what was registered, less what was unregistered. -/
def ExactRun (stat : U32) (g : ℕ) (s : Store) (calls : List RegCall) : Prop :=
  Along (regStep stat g) (Exact stat g) ⟨s, []⟩ calls ∧
    ∀ pre, pre <+: calls → ∃ st, runs (regStep stat g) ⟨s, []⟩ pre = some st ∧
      regsOf st.store g + unregistered st.log = regsOf s g + registered st.log

/-! ### One call -/

variable {stat : U32} {g : ℕ} {st : RegState} {s : Store} {ng : Group}

/-- The triple of a registration matches the registration. -/
theorem regMatch_self (reg : Reg) : regMatch reg.uid reg.ruleid reg.subsystem reg = true := by
  simp [regMatch]

theorem regsOf_some (hng : s.groups g = some ng) : regsOf s g = (ng.regs : Multiset Reg) := by
  rw [regsOf, hng]

/-- The memory with other registrations of the group. -/
def setRegs (s : Store) (g : ℕ) (ng : Group) (regs : List Reg) : Store :=
  { s with groups := Function.update s.groups g (some { ng with regs := regs }) }

theorem setRegs_self (s : Store) (g : ℕ) (ng : Group) (regs : List Reg) :
    (setRegs s g ng regs).groups g = some { ng with regs := regs } := Function.update_self ..

theorem regsOf_setRegs (s : Store) (g : ℕ) (ng : Group) (regs : List Reg) :
    regsOf (setRegs s g ng regs) g = (regs : Multiset Reg) := regsOf_some (setRegs_self s g ng regs)

theorem register_run (stat : U32) (hng : s.groups g = some ng) (reg : Reg) :
    (RegCall.call stat g (.register reg)).run s =
      if anoubisRegisterOk stat ng reg.uid reg.ruleid reg.subsystem then
        some (0, setRegs s g ng (reg :: ng.regs))
      else some ((-eperm : ℤ), s) := by
  rw [RegCall.call, anoubisNotifyRegister, run_bind (run_readGroup hng)]
  cases anoubisRegisterOk stat ng reg.uid reg.ruleid reg.subsystem <;> rfl

theorem unregister_run (stat : U32) (hng : s.groups g = some ng) (reg : Reg) :
    (RegCall.call stat g (.unregister reg)).run s =
      if regMatchAll ng reg.uid reg.ruleid reg.subsystem then
        some (0, setRegs s g ng (ng.regs.eraseP (regMatch reg.uid reg.ruleid reg.subsystem)))
      else some ((-esrch : ℤ), s) := by
  rw [RegCall.call, anoubisNotifyUnregister, run_bind (run_readGroup hng)]
  cases regMatchAll ng reg.uid reg.ruleid reg.subsystem <;> rfl

/-- The call that removes takes the first match, and nothing else. -/
theorem cons_eraseP {l : List Reg} {p : Reg → Bool} {r : Reg} (h : l.find? p = some r) :
    r ::ₘ (l.eraseP p : Multiset Reg) = (l : Multiset Reg) := by
  obtain ⟨hp, as, bs, rfl, has⟩ := find?_eq_some_iff_append.mp h
  have hnot : ∀ b ∈ as, ¬ p b = true := fun b hb => by simpa using has b hb
  rw [eraseP_append_right _ hnot, eraseP_cons_of_pos hp, cons_coe, coe_eq_coe]
  exact perm_middle.symm

theorem register_exact (hng : st.store.groups g = some ng) (reg : Reg) : Exact stat g st (.register reg) := by
  have hrun := register_run stat hng reg
  cases hok : anoubisRegisterOk stat ng reg.uid reg.ruleid reg.subsystem with
  | false =>
    rw [hok] at hrun
    exact ⟨-eperm, st.store, hrun, .inr ⟨rfl, rfl⟩⟩
  | true =>
    rw [hok] at hrun
    refine ⟨0, _, hrun, .inl ⟨rfl, ?_⟩⟩
    rw [regsOf_setRegs, regsOf_some hng]
    rfl

/-- Without a match there is no equal registration; with one, the first match is what goes away. -/
theorem unregister_exact_iff (hng : st.store.groups g = some ng) (reg : Reg) :
    Exact stat g st (.unregister reg) ↔ FirstEqual g st (.unregister reg) := by
  have hrun := unregister_run stat hng reg
  cases hfind : ng.regs.find? (regMatch reg.uid reg.ruleid reg.subsystem) with
  | none =>
    have hnone : ∀ r ∈ ng.regs, ¬ regMatch reg.uid reg.ruleid reg.subsystem r = true :=
      find?_eq_none.mp hfind
    have hall : regMatchAll ng reg.uid reg.ruleid reg.subsystem = false := by
      simpa [regMatchAll] using hnone
    have hnot : reg ∉ regsOf st.store g := by
      rw [regsOf_some hng, mem_coe]
      exact fun hmem => hnone reg hmem (regMatch_self reg)
    rw [hall] at hrun
    refine ⟨fun _ ng' hng' r hr => ?_, fun _ => ⟨-esrch, st.store, hrun, .inr ⟨rfl, rfl⟩, ?_⟩⟩
    · cases hng.symm.trans hng'
      cases hfind.symm.trans hr
    · exact iff_of_true rfl hnot
  | some r =>
    have hall : regMatchAll ng reg.uid reg.ruleid reg.subsystem = true :=
      any_eq_true.mpr ⟨r, mem_of_find?_eq_some hfind, find?_some hfind⟩
    rw [hall] at hrun
    have hgone : r ::ₘ regsOf (setRegs st.store g ng
        (ng.regs.eraseP (regMatch reg.uid reg.ruleid reg.subsystem))) g = regsOf st.store g := by
      rw [regsOf_setRegs, regsOf_some hng]
      exact cons_eraseP hfind
    constructor
    · rintro ⟨ret, s', hrun', hret, -⟩ ng' hng' r' hr'
      cases hng.symm.trans hng'
      cases hfind.symm.trans hr'
      cases hrun.symm.trans hrun'
      rcases hret with ⟨-, heq⟩ | ⟨hret, -⟩
      · exact cons_inj_left _ |>.mp (hgone.trans heq.symm)
      · exact absurd hret (by decide)
    · intro hfirst
      obtain rfl := hfirst ng hng r hfind
      refine ⟨0, _, hrun, .inl ⟨rfl, hgone⟩, iff_of_false (by decide) (fun hnot => hnot ?_)⟩
      rw [← hgone]
      exact mem_cons_self r _

theorem exact_iff (hg : (st.store.groups g).isSome) (c : RegCall) : Exact stat g st c ↔ FirstEqual g st c := by
  obtain ⟨ng, hng⟩ := isSome_iff_exists.mp hg
  cases c with
  | register reg => exact iff_of_true (register_exact hng reg) trivial
  | unregister reg => exact unregister_exact_iff hng reg

/-! ### Whole sequences -/

/-- No call fails on a group that exists, and the group goes on to exist. -/
theorem regStep_live (stat : U32) (hg : (st.store.groups g).isSome) (c : RegCall) :
    ∃ st', regStep stat g st c = some st' ∧ (st'.store.groups g).isSome := by
  obtain ⟨ng, hng⟩ := isSome_iff_exists.mp hg
  cases c with
  | register reg =>
    rw [regStep, register_run stat hng]
    cases anoubisRegisterOk stat ng reg.uid reg.ruleid reg.subsystem with
    | false => exact ⟨_, rfl, hg⟩
    | true => exact ⟨_, rfl, isSome_iff_exists.mpr ⟨_, setRegs_self ..⟩⟩
  | unregister reg =>
    rw [regStep, unregister_run stat hng]
    cases regMatchAll ng reg.uid reg.ruleid reg.subsystem with
    | false => exact ⟨_, rfl, hg⟩
    | true => exact ⟨_, rfl, isSome_iff_exists.mpr ⟨_, setRegs_self ..⟩⟩

theorem live_of_regStep {st' : RegState} {c : RegCall} (hg : (st.store.groups g).isSome)
    (h : regStep stat g st c = some st') : (st'.store.groups g).isSome := by
  obtain ⟨st₁, h₁, hg₁⟩ := regStep_live stat hg c
  rwa [some.inj (h.symm.trans h₁)]

theorem runs_live (stat : U32) (hg : (st.store.groups g).isSome) (calls : List RegCall) :
    ∃ st', runs (regStep stat g) st calls = some st' := by
  induction calls generalizing st with
  | nil => exact ⟨st, rfl⟩
  | cons c calls ih =>
    obtain ⟨st₁, h₁, hg₁⟩ := regStep_live stat hg c
    rw [runs, h₁]
    exact ih hg₁

/-- The books of a group that had `m` when the log began. -/
def Balanced (g : ℕ) (m : Multiset Reg) (st : RegState) : Prop :=
  regsOf st.store g + unregistered st.log = m + registered st.log

theorem registered_concat (log log' : List (RegCall × ℤ)) :
    registered (log ++ log') = registered log + registered log' := by
  simp [registered]

theorem unregistered_concat (log log' : List (RegCall × ℤ)) :
    unregistered (log ++ log') = unregistered log + unregistered log' := by
  simp [unregistered]

/-- An exact call keeps the books balanced. -/
theorem balanced_step {m : Multiset Reg} {st' : RegState} {c : RegCall} (hb : Balanced g m st)
    (he : Exact stat g st c) (h : regStep stat g st c = some st') : Balanced g m st' := by
  obtain ⟨ret, s', hrun, hret⟩ := he
  rw [regStep, hrun] at h
  cases h
  rw [Balanced] at hb ⊢
  rw [registered_concat, unregistered_concat]
  cases c with
  | register reg =>
    rcases hret with ⟨rfl, hadd⟩ | ⟨rfl, rfl⟩
    · change regsOf s' g + (_ + 0) = m + (_ + reg ::ₘ 0)
      rw [hadd, Multiset.add_zero, Multiset.cons_add, Multiset.add_cons, Multiset.add_cons, Multiset.add_zero, hb]
    · change regsOf st.store g + (_ + 0) = m + (_ + 0)
      rw [Multiset.add_zero, Multiset.add_zero]
      exact hb
  | unregister reg =>
    rcases hret.1 with ⟨rfl, hgone⟩ | ⟨rfl, rfl⟩
    · change regsOf s' g + (_ + reg ::ₘ 0) = m + (_ + 0)
      rw [Multiset.add_cons, Multiset.add_cons, ← Multiset.cons_add, hgone, Multiset.add_zero,
        Multiset.add_zero, hb]
    · change regsOf st.store g + (_ + 0) = m + (_ + 0)
      rw [Multiset.add_zero, Multiset.add_zero]
      exact hb

/-- The registrations are exact in a sequence of calls if and only if every `unregister` of it, when
    it is made, finds as its first match a registration equal to its triple, or no match at all. -/
theorem exactRun_iff (stat : U32) (hg : (s.groups g).isSome) (calls : List RegCall) :
    ExactRun stat g s calls ↔ Along (regStep stat g) (FirstEqual g) ⟨s, []⟩ calls := by
  have hiff : Along (regStep stat g) (Exact stat g) ⟨s, []⟩ calls ↔
      Along (regStep stat g) (FirstEqual g) ⟨s, []⟩ calls :=
    along_iff (I := fun st => (st.store.groups g).isSome) (fun st c hlive => exact_iff hlive c)
      (fun st c st' hlive _ h => live_of_regStep hlive h) hg calls
  refine ⟨fun h => hiff.mp h.1, fun h => ⟨hiff.mpr h, ?_⟩⟩
  rintro pre ⟨post, rfl⟩
  have hpre : Along (regStep stat g) (Exact stat g) ⟨s, []⟩ pre := (along_append.mp (hiff.mpr h)).1
  obtain ⟨st, hst⟩ : ∃ st, runs (regStep stat g) ⟨s, []⟩ pre = some st := runs_live stat hg pre
  have hstart : Balanced g (regsOf s g) ⟨s, []⟩ := rfl
  exact ⟨st, hst, runs_invariant (I := Balanced g (regsOf s g)) (fun _ _ _ hb he => balanced_step hb he)
    hstart hpre hst⟩

/-- A group of the user 1000 that asks for everything of its own, and then for one rule. -/
def oneGroup : Store :=
  ⟨fun g => if g = 0 then some ⟨1000, [], []⟩ else none, fun _ => none, fun _ => none, 1, [], []⟩

/-- Made in this order, the wildcard stands behind the exact registration. -/
theorem exactRun_newest : ExactRun 40 0 oneGroup
    [.register ⟨0, 1000, 0⟩, .register ⟨5, 1000, 7⟩, .unregister ⟨5, 1000, 7⟩] := by
  refine (exactRun_iff 40 rfl _).mpr ⟨trivial, fun st h => ⟨trivial, fun st' h' => ⟨?_, fun _ _ => trivial⟩⟩⟩
  obtain rfl := Option.some.inj h
  obtain rfl := Option.some.inj h'
  intro ng hng r hr
  obtain rfl := Option.some.inj hng
  exact (Option.some.inj hr).symm

/-- Made in the other order, the wildcard goes away in place of the registration that was named. -/
theorem wildcard_removed : ¬ ∀ (stat : U32) (g : ℕ) (s : Store) (calls : List RegCall),
    (s.groups g).isSome → ExactRun stat g s calls := by
  intro h
  have hrun := (h 40 0 oneGroup [.register ⟨5, 1000, 7⟩, .register ⟨0, 1000, 0⟩, .unregister ⟨5, 1000, 7⟩]
    rfl).1
  have hexact := ((hrun.2 _ rfl).2 _ rfl).1
  obtain ⟨ret, s', hcall, hret, -⟩ := hexact
  obtain ⟨rfl, rfl⟩ := Prod.mk.inj (Option.some.inj hcall)
  rcases hret with ⟨-, hgone⟩ | ⟨hret, -⟩
  · exact absurd hgone (by decide)
  · exact absurd hret (by decide)

end Anoubis.Proto.Notify

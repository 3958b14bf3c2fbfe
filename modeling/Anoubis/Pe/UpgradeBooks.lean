import Anoubis.Pe.Upgrade
import Mathlib.Tactic.Linarith

/-! The bookkeeping of upgrades.

    `upgrade_counter` is meant to be the number of upgrade parents. The books are right behind every
    event as long as a lock comes from a tracked process and the upgrade process reports the end only
    after it was started:

        counter = number of parents      counter > 0 ⟹ tree allocated      counter = 0 ⟹ no marks

    An untracked process leaves a count behind that no process carries. -/

namespace Anoubis.Pe.Upgrade

open Option

open Anoubis.Apn Anoubis.Lib List

/-- The number of processes with PE_PROC_FLAGS_UPGRADE_PARENT. -/
def parents (ps : List Task) : ℕ := ps.countP (·.upgradeParent)

/-- The books are right. -/
structure Books (st : State) : Prop where
  counter : st.g.upgradeCounter = parents st.tracker
  tree : 0 < st.g.upgradeCounter → st.g.upgradeTree.isSome
  idle : st.g.upgradeCounter = 0 → ∀ p ∈ st.tracker, p.upgrade = false

/-- `send_upgrade_start` is called once if the last parent ends, and not otherwise. -/
def EndsWithLast (st st' : State) : Prop :=
  st'.g.started = st.g.started + if 0 < parents st.tracker ∧ parents st'.tracker = 0 then 1 else 0

/-- A lock event that makes the process, tracked or not, a new upgrade parent. -/
def Enters (conf : Config) (st : State) (msgUid : ℕ) : Prop :=
  msgUid = 0 ∧ (conf.upgradeMode = .strictLock ∨ conf.upgradeMode = .looseLock) ∧
    (st.g.upgradeOk ∨ st.g.upgradeCounter ≠ 0) ∧ (st.g.upgradeTree = none ∨ st.g.upgradeCounter ≠ 0)

/-- What keeps the books right: a lock that starts an upgrade comes from a tracked process, and the
    end of the checksum update is reported while no upgrade is in progress. -/
def Regular (st : State) : Config × Event → Prop
  | (conf, .lock cookie msgUid) => Enters conf st msgUid → (st.get cookie).isSome
  | (_, .finish) => st.g.upgradeCounter = 0
  | _ => True

instance (conf : Config) (st : State) (msgUid : ℕ) : Decidable (Enters conf st msgUid) :=
  inferInstanceAs (Decidable (_ ∧ _ ∧ _ ∧ _))

instance (st : State) (e : Config × Event) : Decidable (Regular st e) :=
  match e with
  | (conf, .lock cookie msgUid) =>
    inferInstanceAs (Decidable (Enters conf st msgUid → (st.get cookie).isSome))
  | (_, .finish) => inferInstanceAs (Decidable (st.g.upgradeCounter = 0))
  | (_, .unlock ..) | (_, .fork ..) | (_, .exec ..) | (_, .exit ..) | (_, .replace ..)
  | (_, .create ..) | (_, .destroy ..) | (_, .openFile ..) | (_, .setUpgradeOk ..) => isTrue trivial

/-! ### The invariant -/

/-- The three upgrade flags of a process. -/
def Task.flags (p : Task) : Bool × Bool × Bool := (p.upgrade, p.upgradeParent, p.hold)

/-- The books, where `b` parents have lost their mark and are still counted. A process on hold waits
    for the end of the checksum update. -/
structure Kept (b : ℕ) (st : State) : Prop where
  counter : st.g.upgradeCounter = parents st.tracker + b
  tree : 0 < st.g.upgradeCounter → st.g.upgradeTree.isSome
  idle : st.g.upgradeCounter = 0 → ∀ p ∈ st.tracker, p.upgrade = false
  held : ∀ p ∈ st.tracker, p.hold → st.g.upgradeCounter = 0 ∧ st.g.upgradeTree.isSome

variable {st st' : State} {ps : List Task} {b cookie : ℕ} {p : Task}

theorem Kept.books (h : Kept 0 st) : Books st :=
  ⟨by simpa using h.counter, h.tree, h.idle⟩

theorem parents_perm {qs : List Task} (h : ps.Perm qs) : parents ps = parents qs := h.countP_eq _

theorem parents_map_flags (ps : List Task) : parents ps = (ps.map Task.flags).countP (fun f => f.2.1) := by
  rw [countP_map]
  rfl

/-- The processes in another order, with the globals that the books do not mention. -/
theorem Kept.perm (h : Kept b st) (hp : st'.tracker.Perm st.tracker)
    (hc : st'.g.upgradeCounter = st.g.upgradeCounter) (ht : st'.g.upgradeTree.isSome = st.g.upgradeTree.isSome) :
    Kept b st' where
  counter := by rw [hc, h.counter, parents_perm hp]
  tree := by
    rw [hc, ht]
    exact h.tree
  idle := by
    intro h0 p hm
    exact h.idle (hc ▸ h0) p (hp.mem_iff.mp hm)
  held := by
    intro p hm hh
    rw [hc, ht]
    exact h.held p (hp.mem_iff.mp hm) hh

/-- An event that changes no flag. -/
theorem Kept.quiet (h : Kept b st) (hf : st'.tracker.map Task.flags = st.tracker.map Task.flags)
    (hc : st'.g.upgradeCounter = st.g.upgradeCounter) (ht : st'.g.upgradeTree.isSome = st.g.upgradeTree.isSome) :
    Kept b st' := by
  have hback : ∀ p ∈ st'.tracker, ∃ q ∈ st.tracker, q.flags = p.flags := by
    intro p hp
    have hm : p.flags ∈ st.tracker.map Task.flags := hf ▸ mem_map_of_mem hp
    exact mem_map.mp hm
  constructor
  · rw [hc, h.counter, parents_map_flags, parents_map_flags, hf]
  · rw [hc, ht]
    exact h.tree
  · intro h0 p hp
    obtain ⟨q, hq, he⟩ := hback p hp
    have hu : q.upgrade = p.upgrade := congrArg (·.1) he
    rw [← hu]
    exact h.idle (hc ▸ h0) q hq
  · intro p hp hh
    obtain ⟨q, hq, he⟩ := hback p hp
    have hhold : q.hold = p.hold := congrArg (·.2.2) he
    rw [hc, ht]
    exact h.held q hq (hhold.trans hh)

theorem Kept.nonneg (h : Kept b st) : 0 ≤ st.g.upgradeCounter := by
  rw [h.counter]
  positivity

/-- A step that keeps the books and ends an upgrade where it should. -/
structure Good (st st' : State) : Prop where
  kept : Kept 0 st'
  ends : EndsWithLast st st'

theorem endsWithLast_of_le (hs : st'.g.started = st.g.started) (hp : parents st.tracker ≤ parents st'.tracker) :
    EndsWithLast st st' := by
  have hn : ¬ (0 < parents st.tracker ∧ parents st'.tracker = 0) := by omega
  rw [EndsWithLast, if_neg hn, hs, add_zero]

theorem Good.quiet (h : Kept 0 st) (hf : st'.tracker.map Task.flags = st.tracker.map Task.flags)
    (hc : st'.g.upgradeCounter = st.g.upgradeCounter) (ht : st'.g.upgradeTree.isSome = st.g.upgradeTree.isSome)
    (hs : st'.g.started = st.g.started) : Good st st' :=
  ⟨h.quiet hf hc ht, endsWithLast_of_le hs (by rw [parents_map_flags, parents_map_flags, hf])⟩

variable {st₁ : State} {g : Globals} {f : Task → Task} {e : Config × Event}

/-- Two steps in a row of which the first ends nothing. -/
theorem Good.after (h : Good st₁ st') (hs : st₁.g.started = st.g.started)
    (hp : parents st₁.tracker = parents st.tracker) : Good st st' := by
  refine ⟨h.kept, ?_⟩
  have he := h.ends
  rw [EndsWithLast, hs, hp] at he
  exact he

/-! ### The events -/

/-- A new process that is no parent. -/
theorem good_track (h : Kept 0 st) (hp : p.upgradeParent = false) (hh : p.hold = false)
    (hu : p.upgrade → ∃ q ∈ st.tracker, q.upgrade) : Good st { st with tracker := st.tracker ++ [p] } := by
  have hcount : parents (st.tracker ++ [p]) = parents st.tracker := by
    simp [parents, countP_append, hp]
  constructor
  · constructor
    · simpa [hcount] using h.counter
    · exact h.tree
    · intro h0 q hq
      rcases mem_append.mp hq with hq | hq
      · exact h.idle h0 q hq
      · obtain rfl := mem_singleton.mp hq
        by_contra hne
        obtain ⟨r, hr, hru⟩ := hu (by simpa using hne)
        rw [h.idle h0 r hr] at hru
        cases hru
    · intro q hq hqh
      rcases mem_append.mp hq with hq | hq
      · exact h.held q hq hqh
      · obtain rfl := mem_singleton.mp hq
        rw [hh] at hqh
        cases hqh
  · exact endsWithLast_of_le rfl hcount.ge

/-- The process that `pe_proc_get` returns, and the others. -/
theorem exists_modify (h : st.get cookie = some p) (f : Task → Task) :
    ∃ rest, st.tracker.Perm (p :: rest) ∧ (st.modify cookie f).tracker.Perm (f p :: rest) :=
  exists_modifyFirst h f

theorem modify_of_none (h : st.get cookie = none) (f : Task → Task) : st.modify cookie f = st := by
  rw [State.modify, modifyFirst_eq_self h]

@[simp] theorem parents_cons (p : Task) (ps : List Task) :
    parents (p :: ps) = parents ps + if p.upgradeParent then 1 else 0 := by
  simp [parents, countP_cons]

/-- What `pe_upgrade_start` does: nothing, hold, or a new parent. -/
theorem peUpgradeStart_cases (g : Globals) (proc : Option Task) :
    (proc.any (·.upgradeParent) = true ∧ peUpgradeStart g proc = (g, id)) ∨
    (proc.any (·.upgradeParent) = false ∧ g.upgradeTree.isSome ∧ g.upgradeCounter = 0 ∧
      peUpgradeStart g proc = (g, Task.setHold)) ∨
    (proc.any (·.upgradeParent) = false ∧ (g.upgradeTree = none ∨ g.upgradeCounter ≠ 0) ∧
      peUpgradeStart g proc = ({ g with upgradeTree := some (g.upgradeTree.getD []),
                                        upgradeCounter := g.upgradeCounter + 1 }, Task.addmark)) := by
  rw [peUpgradeStart]
  cases hp : proc.any (·.upgradeParent) with
  | true => exact .inl ⟨rfl, rfl⟩
  | false =>
    rw [if_neg Bool.false_ne_true]
    cases ht : g.upgradeTree with
    | none => exact .inr (.inr ⟨rfl, .inl rfl, rfl⟩)
    | some t =>
      by_cases h0 : g.upgradeCounter = 0
      · exact .inr (.inl ⟨rfl, rfl, h0, by simp [h0]⟩)
      · refine .inr (.inr ⟨rfl, .inr h0, ?_⟩)
        simp only [if_neg h0, getD_some]

/-- `pe_upgrade_start` of the first process of the list. -/
theorem kept_start (h : Kept 0 ⟨p :: ps, g⟩) :
    Good ⟨p :: ps, g⟩ ⟨(peUpgradeStart g (some p)).2 p :: ps, (peUpgradeStart g (some p)).1⟩ := by
  rcases peUpgradeStart_cases g (some p) with ⟨-, he⟩ | ⟨hnp, ht, h0, he⟩ | ⟨hnp, hopen, he⟩
  · rw [he]
    exact Good.quiet h rfl rfl rfl rfl
  · rw [he]
    refine ⟨⟨?_, h.tree, ?_, ?_⟩, endsWithLast_of_le rfl ?_⟩
    · simpa [Task.setHold] using h.counter
    · intro _ q hq
      rcases mem_cons.mp hq with rfl | hq
      · exact h.idle h0 p mem_cons_self
      · exact h.idle h0 q (mem_cons_of_mem p hq)
    · intro q _ _
      exact ⟨h0, ht⟩
    · simp [Task.setHold]
  · rw [he]
    have hnp : p.upgradeParent = false := by simpa using hnp
    have hcount : parents (p.addmark :: ps) = parents (p :: ps) + 1 := by simp [Task.addmark, hnp]
    have hpos : (g.upgradeCounter + 1) > 0 := by
      have := h.nonneg
      simp only at this
      omega
    refine ⟨⟨?_, fun _ => rfl, ?_, ?_⟩, endsWithLast_of_le rfl (by simp only [hcount]; omega)⟩
    · have hc := h.counter
      simp only at hc ⊢
      rw [hcount, hc]
      omega
    · intro h0
      exact absurd h0 hpos.ne'
    · -- a process on hold would have kept this one from starting
      intro q hq hh
      have hold : ∃ r ∈ p :: ps, r.hold = true := by
        rcases mem_cons.mp hq with rfl | hq
        · exact ⟨p, mem_cons_self, hh⟩
        · exact ⟨q, mem_cons_of_mem p hq, hh⟩
      obtain ⟨r, hr, hrh⟩ := hold
      obtain ⟨h0, hs⟩ := h.held r hr hrh
      rcases hopen with hnone | hne
      · rw [hnone] at hs
        cases hs
      · exact absurd h0 hne

/-- Steps on permuted trackers. -/
theorem Good.perm {ps' : List Task} (hp : st.tracker.Perm ps) (hp' : st'.tracker.Perm ps')
    (h : Good ⟨ps, st.g⟩ ⟨ps', st'.g⟩) : Good st st' := by
  refine ⟨h.kept.perm hp' rfl rfl, ?_⟩
  have he := h.ends
  rw [EndsWithLast, ← parents_perm hp, ← parents_perm hp'] at he
  exact he

/-- `pe_upgrade_start` of a tracked process, or while a new upgrade has to wait. -/
theorem good_start (h : Kept 0 st)
    (ht : (st.get cookie).isSome ∨ (st.g.upgradeTree.isSome ∧ st.g.upgradeCounter = 0)) :
    Good st (st.start cookie) := by
  cases hp : st.get cookie with
  | some p =>
    obtain ⟨rest, hl, hm⟩ := exists_modify hp (peUpgradeStart st.g (some p)).2
    have hk : Kept 0 ⟨p :: rest, st.g⟩ := h.perm hl.symm rfl rfl
    rw [State.start, hp]
    exact Good.perm hl hm (kept_start hk)
  | none =>
    rw [hp] at ht
    obtain ⟨hs, h0⟩ := ht.resolve_left (by simp)
    have he : st.start cookie = st := by
      rw [State.start, hp]
      rcases peUpgradeStart_cases st.g none with ⟨hf, -⟩ | ⟨-, -, -, he⟩ | ⟨-, hopen, -⟩
      · cases hf
      · simp only [he, modify_of_none hp]
      · rcases hopen with hn | hn
        · rw [hn] at hs
          cases hs
        · exact absurd h0 hn
    rw [he]
    exact Good.quiet h rfl rfl rfl rfl

/-- The end of a process that was a parent (`b = true`) or not. -/
theorem kept_endTail {b : Bool} (h : Kept b.toNat st) :
    Kept 0 (endTail st b) ∧ parents (endTail st b).tracker = parents st.tracker ∧
      (endTail st b).g.started = st.g.started + if b ∧ parents st.tracker = 0 then 1 else 0 := by
  rw [endTail]
  cases b with
  | false => exact ⟨h, rfl, by simp⟩
  | true =>
    have hc : st.g.upgradeCounter - 1 = parents st.tracker := by
      rw [h.counter]
      simp
    simp only [Bool.not_true, Bool.false_eq_true, if_false]
    -- nobody is on hold while a parent is still counted
    have hheld : ∀ p ∈ st.tracker, ¬ p.hold = true := by
      intro p hp hh
      have h0 := (h.held p hp hh).1
      omega
    by_cases hpos : 0 < st.g.upgradeCounter - 1
    · rw [if_pos hpos]
      refine ⟨⟨by simpa using hc, fun _ => h.tree (by omega), ?_, ?_⟩, rfl, ?_⟩
      · intro h0
        exact absurd h0 hpos.ne'
      · intro p hp hh
        exact absurd hh (hheld p hp)
      · have hne : parents st.tracker ≠ 0 := by omega
        simp [hne]
    · rw [if_neg hpos]
      have h0 : parents st.tracker = 0 := by omega
      have hclr : parents (st.tracker.map Task.clrmark) = 0 := by
        simp [parents, Task.clrmark]
      refine ⟨⟨?_, ?_, ?_, ?_⟩, ?_, ?_⟩
      · simp only [hclr]
        omega
      · intro hp
        exact absurd hp hpos
      · intro _ p hp
        obtain ⟨q, -, rfl⟩ := mem_map.mp hp
        rfl
      · intro p hp hh
        obtain ⟨q, hq, rfl⟩ := mem_map.mp hp
        exact absurd hh (hheld q hq)
      · simp only [hclr, h0]
      · simp [h0]

/-- `pe_upgrade_end`, once the process has lost its marks. -/
theorem good_endTail {b : Bool} (hs : st₁.g.started = st.g.started)
    (hp : parents st.tracker = parents st₁.tracker + b.toNat) (h : Kept b.toNat st₁) : Good st (endTail st₁ b) := by
  obtain ⟨hk, hpar, hst⟩ := kept_endTail h
  refine ⟨hk, ?_⟩
  rw [EndsWithLast, hpar, hst, hs, hp]
  cases b with
  | false =>
    have hn : ¬ (0 < parents st₁.tracker ∧ parents st₁.tracker = 0) := by omega
    simp [hn]
  | true => simp

/-- A process less. -/
theorem kept_tail (h : Kept 0 ⟨p :: ps, g⟩) :
    Kept p.upgradeParent.toNat ⟨ps, g⟩ where
  counter := by
    have hc := h.counter
    cases hp : p.upgradeParent <;> simp_all
  tree := h.tree
  idle := fun h0 q hq => h.idle h0 q (mem_cons_of_mem p hq)
  held := fun q hq hh => h.held q (mem_cons_of_mem p hq) hh

/-- A process without marks more. -/
theorem kept_cons (h : Kept b ⟨ps, g⟩) (hu : p.upgrade = false) (hp : p.upgradeParent = false)
    (hh : p.hold → g.upgradeCounter = 0 ∧ g.upgradeTree.isSome) : Kept b ⟨p :: ps, g⟩ where
  counter := by simpa [hp] using h.counter
  tree := h.tree
  idle := by
    intro h0 q hq
    rcases mem_cons.mp hq with rfl | hq
    · exact hu
    · exact h.idle h0 q hq
  held := by
    intro q hq hqh
    rcases mem_cons.mp hq with rfl | hq
    · exact hh hqh
    · exact h.held q hq hqh

theorem parents_eq_tail (h : st.tracker.Perm (p :: ps)) :
    parents st.tracker = parents ps + p.upgradeParent.toNat := by
  rw [parents_perm h, parents_cons]
  cases p.upgradeParent <;> rfl

/-- `pe_upgrade_end` of a tracked process. -/
theorem good_end (h : Kept 0 st) (cookie : ℕ) : Good st (st.end cookie) := by
  rw [State.end]
  cases hp : st.get cookie with
  | none =>
    rw [modify_of_none hp]
    exact Good.quiet h rfl rfl rfl rfl
  | some p =>
    obtain ⟨rest, hl, hm⟩ := exists_modify hp Task.clrmark
    have hk : Kept 0 ⟨p :: rest, st.g⟩ := h.perm hl.symm rfl rfl
    have hclr : Kept p.upgradeParent.toNat ⟨p.clrmark :: rest, st.g⟩ :=
      kept_cons (kept_tail hk) rfl rfl (hk.held p mem_cons_self)
    refine good_endTail rfl ?_ (hclr.perm hm rfl rfl)
    rw [parents_perm hm, parents_eq_tail hl, parents_cons]
    simp [Task.clrmark]

/-- A change of one process that leaves its flags alone. -/
theorem good_modify (h : Kept 0 st) (cookie : ℕ) (hf : ∀ p, (f p).flags = p.flags) : Good st (st.modify cookie f) :=
  Good.quiet h (map_modifyFirst hf _ _) rfl rfl rfl

theorem parents_modify (cookie : ℕ) (hf : ∀ p, (f p).flags = p.flags) :
    parents (st.modify cookie f).tracker = parents st.tracker := by
  rw [parents_map_flags, parents_map_flags]
  exact congrArg _ (map_modifyFirst hf _ _)

theorem good_exit (h : Kept 0 st) (cookie : ℕ) : Good st (peProcExit st cookie) := by
  rw [peProcExit]
  cases hp : st.get cookie with
  | none => exact Good.quiet h rfl rfl rfl rfl
  | some p =>
    simp only
    by_cases hi : p.instances - 1 ≠ 0
    · rw [if_pos hi]
      exact good_modify h cookie fun _ => rfl
    · rw [if_neg hi]
      have hl : st.tracker.Perm (p :: st.tracker.eraseP (hasCookie cookie)) := exists_eraseP hp
      have hk : Kept 0 ⟨p :: st.tracker.eraseP (hasCookie cookie), st.g⟩ := h.perm hl.symm rfl rfl
      exact good_endTail rfl (parents_eq_tail hl) (kept_tail hk)

theorem good_tracking (h : Kept 0 st) : Good st st.tracking := Good.quiet h rfl rfl rfl rfl

theorem good_removeThread (h : Kept 0 st) (cookie : ℕ) : Good st (peProcRemoveThread st cookie) := by
  rw [peProcRemoveThread]
  cases st.get cookie with
  | none => exact good_tracking h
  | some p =>
    simp only
    by_cases h0 : p.threads = 0
    · rw [if_pos h0]
      exact good_tracking h
    · rw [if_neg h0]
      have hm : Good st.tracking
          (st.tracking.modify cookie (fun p => { p with threads := p.threads - 1 })) :=
        good_modify (good_tracking h).kept cookie fun _ => rfl
      by_cases h1 : p.threads - 1 = 0
      · rw [if_pos h1]
        exact (good_end hm.kept cookie).after rfl (parents_modify cookie fun _ => rfl)
      · rw [if_neg h1]
        exact hm.after rfl rfl

/-! ### The end of the checksum update -/

/-- `pe_proc_release` after `pe_upgrade_finish`. The tree is allocated with the first process that was
    on hold; every one of them becomes a parent. -/
theorem release_spec (ps : List Task) : ∀ g : Globals, 0 ≤ g.upgradeCounter →
    (g.upgradeTree.isSome ↔ 0 < g.upgradeCounter) →
    (∀ p ∈ ps, p.upgrade = false ∧ p.upgradeParent = false) →
    let r := peProcRelease g ps
    r.1.upgradeCounter = g.upgradeCounter + parents r.2 ∧
      (r.1.upgradeTree.isSome ↔ 0 < r.1.upgradeCounter) ∧
      (∀ t, g.upgradeTree = some t → r.1.upgradeTree = some t) ∧
      (g.upgradeTree = none → ∀ t, r.1.upgradeTree = some t → t = []) ∧
      r.1.started = g.started ∧
      ∀ p ∈ r.2, p.hold = false ∧ p.upgrade = p.upgradeParent := by
  induction ps with
  | nil =>
    intro g _ hg _
    refine ⟨by simp [peProcRelease, parents], hg, fun _ h => h, ?_, rfl, ?_⟩
    · intro hn t ht
      rw [peProcRelease, hn] at ht
      cases ht
    · intro p hp
      cases hp
  | cons p ps ih =>
    intro g h0 hg hps
    have hp := hps p mem_cons_self
    have hps' : ∀ q ∈ ps, q.upgrade = false ∧ q.upgradeParent = false :=
      fun q hq => hps q (mem_cons_of_mem p hq)
    cases hh : p.hold with
    | false =>
      obtain ⟨hc, ht, hsome, hnone, hs, hall⟩ := ih g h0 hg hps'
      simp only [peProcRelease, hh, Bool.false_eq_true, if_false]
      refine ⟨by simpa [hp.2] using hc, ht, hsome, hnone, hs, ?_⟩
      intro q hq
      rcases mem_cons.mp hq with rfl | hq
      · exact ⟨hh, hp.1.trans hp.2.symm⟩
      · exact hall q hq
    | true =>
      -- not a parent, and the tree and the counter agree: the process becomes a parent
      have hst : peUpgradeStart g (some { p with hold := false }) =
          ({ g with upgradeTree := some (g.upgradeTree.getD []),
                    upgradeCounter := g.upgradeCounter + 1 }, Task.addmark) := by
        rcases peUpgradeStart_cases g (some { p with hold := false }) with
          ⟨hpar, -⟩ | ⟨-, hsome, hz, -⟩ | ⟨-, -, he⟩
        · simp [hp.2] at hpar
        · have := hg.mp hsome
          omega
        · exact he
      obtain ⟨hc, ht, hsome, -, hs, hall⟩ := ih { g with
        upgradeTree := some (g.upgradeTree.getD []), upgradeCounter := g.upgradeCounter + 1 }
        (by simp only; omega) (by simp only [isSome_some, true_iff]; omega) hps'
      simp only [peProcRelease, hh, if_true, hst]
      have htree := hsome _ rfl
      refine ⟨?_, ht, ?_, ?_, hs, ?_⟩
      · rw [hc, parents_cons]
        simp [Task.addmark]
        omega
      · intro t hgt
        rw [htree, hgt]
        rfl
      · intro hn t hrt
        rw [htree, hn] at hrt
        exact (some.inj hrt).symm
      · intro q hq
        rcases mem_cons.mp hq with rfl | hq
        · exact ⟨rfl, rfl⟩
        · exact hall q hq

/-- The end of the checksum update, where no upgrade is in progress. -/
theorem finish_spec (h : Kept 0 st) (h0 : st.g.upgradeCounter = 0) :
    st.finish.g.upgradeCounter = parents st.finish.tracker ∧
      (st.finish.g.upgradeTree.isSome ↔ 0 < st.finish.g.upgradeCounter) ∧
      (∀ t, st.finish.g.upgradeTree = some t → t = []) ∧ st.finish.g.started = st.g.started ∧
      ∀ p ∈ st.finish.tracker, p.hold = false ∧ p.upgrade = p.upgradeParent := by
  have hnp : parents st.tracker = 0 := by
    have hc := h.counter
    omega
  have hnone : ∀ p ∈ st.tracker, p.upgrade = false ∧ p.upgradeParent = false := by
    intro p hp
    refine ⟨h.idle h0 p hp, ?_⟩
    simpa using countP_eq_zero.mp hnp p hp
  obtain ⟨hc, ht, -, hnil, hs, hall⟩ := release_spec st.tracker { st.g with upgradeTree := none }
    (by simp [h0]) (by simp [h0]) hnone
  rw [h0, Int.zero_add] at hc
  exact ⟨hc, ht, hnil rfl, hs, hall⟩

theorem good_finish (h : Kept 0 st) (h0 : st.g.upgradeCounter = 0) : Good st st.finish := by
  obtain ⟨hc, ht, -, hs, hall⟩ := finish_spec h h0
  have hle : parents st.tracker ≤ parents st.finish.tracker := by
    have hc' := h.counter
    omega
  refine ⟨⟨by simpa using hc, ht.mpr, ?_, ?_⟩, endsWithLast_of_le hs hle⟩
  · intro hz p hp
    have hpar : parents st.finish.tracker = 0 := by omega
    rw [(hall p hp).2]
    simpa using countP_eq_zero.mp hpar p hp
  · intro p hp hh
    rw [(hall p hp).1] at hh
    cases hh

/-! ### Runs -/

/-- A lock either starts an upgrade for the process or leaves the state alone. -/
theorem lock_cases (conf : Config) (st : State) (cookie msgUid : ℕ) : (lock conf st cookie msgUid).1 = st ∨
    ((lock conf st cookie msgUid).1 = st.start cookie ∧ (Enters conf st msgUid ∨
      (st.g.upgradeTree.isSome ∧ st.g.upgradeCounter = 0))) := by
  rw [lock]
  by_cases hr : msgUid = 0 ∧ (conf.upgradeMode = .strictLock ∨ conf.upgradeMode = .looseLock)
  · rw [if_pos hr]
    by_cases ho : st.g.upgradeOk ∨ st.g.upgradeCounter ≠ 0
    · rw [if_pos ho]
      refine .inr ⟨rfl, ?_⟩
      by_cases hw : st.g.upgradeTree.isSome ∧ st.g.upgradeCounter = 0
      · exact .inr hw
      · refine .inl ⟨hr.1, hr.2, ho, ?_⟩
        rw [not_and_or, not_isSome_iff_eq_none] at hw
        exact hw
    · rw [if_neg ho]
      exact .inl rfl
  · rw [if_neg hr]
    exact .inl rfl

theorem insertWrite_isSome (f : Option FileTree) (x : Write) : (insertWrite f x).isSome = f.isSome := by
  cases f <;> rfl

/-- Every regular event keeps the books. -/
theorem good_step (h : Kept 0 st) (e : Config × Event) (hr : Regular st e) : Good st (step st e) := by
  have hsame : Good st st := Good.quiet h rfl rfl rfl rfl
  obtain ⟨conf, e⟩ := e
  cases e with
  | lock cookie msgUid =>
    rcases lock_cases conf st cookie msgUid with he | ⟨he, hent | hw⟩
    · rw [step, he]
      exact hsame
    · rw [step, he]
      exact good_start h (.inl (hr hent))
    · rw [step, he]
      exact good_start h (.inr hw)
  | unlock cookie msgUid =>
    rw [step, unlock]
    simp only
    split
    · exact good_end h cookie
    · exact hsame
  | fork child parent =>
    refine good_track h rfl rfl fun hu => ?_
    obtain ⟨p, hp, hpu⟩ := (any_eq_true _ _).mp hu
    exact ⟨p, mem_of_find?_eq_some hp, hpu⟩
  | exec cookie uid pathhint =>
    rw [step, peProcExec]
    cases hg : (st.get cookie).isSome with
    | true =>
      simp only [if_true]
      split
      · exact good_start h (.inl hg)
      · exact hsame
    | false =>
      simp only [Bool.false_eq_true, if_false]
      have ht : Good st { st with tracker := st.tracker ++ [newTask cookie] } :=
        good_track h rfl rfl fun hu => by cases hu
      split
      · refine (good_start ht.kept (.inl ?_)).after rfl ?_
        · simp [State.get, hasCookie, newTask]
        · simp [parents, newTask, countP_append]
      · exact ht
  | exit cookie => exact good_exit h cookie
  | replace keep gone =>
    have hadd : Good st (peProcAddinstance st keep) := good_modify h keep fun _ => rfl
    exact (good_exit hadd.kept gone).after rfl (parents_modify keep fun _ => rfl)
  | create cookie =>
    have hadd : Good st.tracking (peProcAddThread st cookie) :=
      good_modify (good_tracking h).kept cookie fun _ => rfl
    exact hadd.after rfl rfl
  | destroy cookie => exact good_removeThread h cookie
  | openFile cookie path amask haschecksum =>
    rw [step, peHandleSfs]
    simp only
    split
    · exact Good.quiet h rfl rfl (insertWrite_isSome _ _) rfl
    · exact hsame
  | finish => exact good_finish h hr
  | setUpgradeOk value => exact Good.quiet h rfl rfl rfl rfl

/-- Nobody is on hold: nothing to release. -/
theorem peProcRelease_eq_self (h : ∀ p ∈ ps, p.hold = false) (g : Globals) : peProcRelease g ps = (g, ps) := by
  induction ps with
  | nil => rfl
  | cons p ps ih =>
    rw [peProcRelease, h p mem_cons_self, ih fun q hq => h q (mem_cons_of_mem p hq)]
    rfl

/-- An irregular event breaks the books. -/
theorem regular_of_books (h : Kept 0 st) (hb : Books (step st e)) : Regular st e := by
  obtain ⟨conf, e⟩ := e
  cases e with
  | lock cookie msgUid =>
    intro hent
    by_contra hnone
    rw [not_isSome_iff_eq_none] at hnone
    have he : step st (conf, .lock cookie msgUid) = st.start cookie := by
      rw [step, lock, if_pos ⟨hent.1, hent.2.1⟩, if_pos hent.2.2.1]
    have hst : st.start cookie = ⟨st.tracker, { st.g with
        upgradeTree := some (st.g.upgradeTree.getD []), upgradeCounter := st.g.upgradeCounter + 1 }⟩ := by
      rw [State.start, hnone]
      rcases peUpgradeStart_cases st.g none with ⟨hf, -⟩ | ⟨-, hs, h0, -⟩ | ⟨-, -, he⟩
      · cases hf
      · rcases hent.2.2.2 with hn | hn
        · rw [hn] at hs
          cases hs
        · exact absurd h0 hn
      · simp only [he, modify_of_none hnone]
    -- the count goes up, and no process got the mark
    rw [he, hst] at hb
    have hc := hb.counter
    have hc' := h.counter
    simp only at hc
    omega
  | finish =>
    by_contra h0
    have hne : st.g.upgradeCounter ≠ 0 := h0
    have hpos : 0 < st.g.upgradeCounter := lt_of_le_of_ne h.nonneg (Ne.symm hne)
    have hheld : ∀ p ∈ st.tracker, p.hold = false := by
      intro p hp
      by_contra hh
      exact hne (h.held p hp (by simpa using hh)).1
    rw [step, State.finish, peProcRelease_eq_self hheld] at hb
    have ht := hb.tree hpos
    cases ht
  | _ => trivial

/-- The books are right behind every event, and every upgrade ends with its last parent. -/
def RightBooks (st : State) (es : List (Config × Event)) : Prop :=
  ∀ pre post, es = pre ++ post → Books (run st pre) ∧
    ∀ e post', post = e :: post' → EndsWithLast (run st pre) (run st (pre ++ [e]))

theorem rightBooks_cons {es : List (Config × Event)} : RightBooks st (e :: es) ↔
      Books st ∧ EndsWithLast st (step st e) ∧ RightBooks (step st e) es := by
  constructor
  · intro h
    refine ⟨(h [] (e :: es) rfl).1, (h [] (e :: es) rfl).2 e es rfl, fun pre post he => ?_⟩
    exact h (e :: pre) post (by rw [he, cons_append])
  · rintro ⟨hb, he, h⟩ pre post heq
    cases pre with
    | nil =>
      obtain rfl : post = e :: es := heq.symm
      refine ⟨hb, fun e' post' hp => ?_⟩
      obtain ⟨rfl, -⟩ := List.cons.inj hp
      exact he
    | cons x pre =>
      rw [cons_append] at heq
      obtain ⟨rfl, htail⟩ := List.cons.inj heq
      exact h pre post htail

theorem rightBooks_iff (h : Kept 0 st) (es : List (Config × Event)) :
    RightBooks st es ↔ Along (fun st e => some (step st e)) Regular st es := by
  induction es generalizing st with
  | nil =>
    refine ⟨fun _ => trivial, fun _ pre post he => ?_⟩
    obtain ⟨rfl, rfl⟩ := append_eq_nil_iff.mp he.symm
    refine ⟨h.books, fun e post' hp => ?_⟩
    cases hp
  | cons e es ih =>
    rw [rightBooks_cons, Along]
    constructor
    · rintro ⟨-, -, hr⟩
      have hreg : Regular st e := regular_of_books h (hr [] es rfl).1
      refine ⟨hreg, fun st' hst => ?_⟩
      cases hst
      exact (ih (good_step h e hreg).kept).mp hr
    · rintro ⟨hreg, hr⟩
      have hg := good_step h e hreg
      exact ⟨h.books, hg.ends, (ih hg.kept).mpr (hr _ rfl)⟩

theorem kept_init : Kept 0 State.init := by
  refine ⟨rfl, fun h => absurd h (by decide), fun _ p hp => ?_, fun p hp => ?_⟩ <;> cases hp

/-- The bookkeeping invariant of upgrades holds along a run exactly if every event of it is regular. -/
theorem upgrade_books (es : List (Config × Event)) :
    RightBooks State.init es ↔ Along (fun st e => some (step st e)) Regular State.init es :=
  rightBooks_iff kept_init es

/-- A lock of a process that is not tracked is counted, but no process is a parent. -/
theorem upgrade_books_fail :
    ¬ ∀ es : List (Config × Event), RightBooks State.init es := by
  intro h
  have hb := (h [(⟨.strictLock, []⟩, .lock 7 0)] [(⟨.strictLock, []⟩, .lock 7 0)] [] rfl).1
  exact absurd hb.counter (by decide)

end Anoubis.Pe.Upgrade

import Anoubis.Pe.Context

/-! No context outlives its ruleset.

    When a policy is replaced the old ruleset is freed, so no active or saved context may still refer
    to it. `pe_proc_update_db_one` looks at the active context only: it refreshes the saved one
    along with it. That is enough as long as both belong to the ruleset that the uid of the process
    resolves to (`SlotOk`).

        saved ≠ NULL  ⟹  active ≠ NULL, and both are of the ruleset of p.uid (or without rules)

    An open event whose `msg_uid` is not the uid of the process can give it an active context of a
    foreign ruleset; `StepOk` excludes the two steps that let such a context meet a saved one. -/

namespace Anoubis.Pe

open List

open Anoubis.Apn Option

/-- The context refers to `rs` and its blocks belong to it. -/
structure CtxOf (rs : Ruleset) (c : Ctx) : Prop where
  ruleset : c.ruleset = some rs.ptr
  alf : ∀ b, c.alfrule = some b → b ∈ rs.alfQueue
  sb : ∀ b, c.sbrule = some b → b ∈ rs.sbQueue
  ctx : ∀ b, c.ctxrule = some b → b ∈ rs.ctxQueue

/-- The ruleset of the context is NULL or stored in the database. -/
def Live (db : PolicyDb) (prio : Prio) (c : Ctx) : Prop :=
  c.NoRules ∨ ∃ uid rs, storedRuleset uid prio db = some rs ∧ CtxOf rs c

/-- The ruleset of the context is NULL or the one that `uid` resolves to. -/
def Own (db : PolicyDb) (prio : Prio) (uid : ℕ) (c : Ctx) : Prop :=
  c.NoRules ∨ ∃ rs, peUserGetRuleset uid prio db = some rs ∧ CtxOf rs c

/-- After every event: no active and no saved context refers to a ruleset outside the database. -/
def NoStale (st : PeState) : Prop :=
  ∀ p ∈ st.tracker, ∀ prio c, p.context.get prio = some c ∨ p.savedCtx.get prio = some c →
    Live st.db prio c

/-! ### Rulesets of users -/

variable {prio : Prio} {rs : Ruleset} {st : PeState} {cookie : ℕ} {f : Proc → Proc} {ps : List Proc}

theorem peUserGetRuleset_cases {uid : ℕ} {db : PolicyDb} (h : peUserGetRuleset uid prio db = some rs) :
    storedRuleset uid prio db = some rs ∨
      storedRuleset uid prio db = none ∧ storedRuleset uidDefault prio db = some rs := by
  rw [peUserGetRuleset] at h
  cases hs : storedRuleset uid prio db with
  | some rs' =>
    rw [hs] at h
    exact .inl h
  | none =>
    rw [hs] at h
    exact .inr ⟨rfl, h⟩

theorem Own.live {db : PolicyDb} {uid : ℕ} {c : Ctx} (h : Own db prio uid c) : Live db prio c := by
  rcases h with h | ⟨rs, hrs, hc⟩
  · exact .inl h
  · rcases peUserGetRuleset_cases hrs with hs | ⟨-, hs⟩
    · exact .inr ⟨_, rs, hs, hc⟩
    · exact .inr ⟨_, rs, hs, hc⟩

/-- Installing a ruleset at another priority changes nothing here. -/
theorem peUserGetRuleset_insertRs_ne (rs : Ruleset) (uid u : ℕ) {q : Prio} (h : q ≠ prio) (db : PolicyDb) :
    peUserGetRuleset u q (insertRs rs uid prio db) = peUserGetRuleset u q db := by
  simp only [peUserGetRuleset, storedRuleset_insertRs, h, and_false, if_false]

/-- A user keeps its ruleset unless that is the one being replaced, or it had none of its own. -/
theorem peUserGetRuleset_insertRs {r : Ruleset} {uid u : ℕ} {db : PolicyDb}
    (h : peUserGetRuleset u prio db = some r) (hne : storedRuleset uid prio db ≠ some r)
    (hown : u = uid → storedRuleset uid prio db ≠ none) :
    peUserGetRuleset u prio (insertRs rs uid prio db) = some r := by
  simp only [peUserGetRuleset, storedRuleset_insertRs, and_true]
  rcases peUserGetRuleset_cases h with hs | ⟨hs, hd⟩
  · have hu : u ≠ uid := fun hu => hne (hu ▸ hs)
    rw [if_neg hu, hs]
  · have hu : u ≠ uid := fun hu => hown hu (hu ▸ hs)
    have hdu : uidDefault ≠ uid := fun hdu => hne (hdu ▸ hd)
    rw [if_neg hu, hs, if_neg hdu, hd]

/-! ### Slots of a process -/

/-- The active and the saved context of a process at one priority. -/
structure SlotOk (db : PolicyDb) (prio : Prio) (uid : ℕ) (active saved : Option Ctx) : Prop where
  live : ∀ c, active = some c → Live db prio c
  own : ∀ s, saved = some s → Own db prio uid s ∧ ∃ c, active = some c ∧ Own db prio uid c

def ProcOk (db : PolicyDb) (prio : Prio) (p : Proc) : Prop :=
  SlotOk db prio p.uid (p.context.get prio) (p.savedCtx.get prio)

theorem SlotOk.of_noSaved {db : PolicyDb} {uid : ℕ} {active : Option Ctx}
    (h : ∀ c, active = some c → Live db prio c) : SlotOk db prio uid active none :=
  ⟨h, by simp⟩

theorem SlotOk.of_own {db : PolicyDb} {uid : ℕ} {active saved : Option Ctx}
    (ha : ∀ c, active = some c → Own db prio uid c) (hs : ∀ c, saved = some c → Own db prio uid c)
    (hsome : saved.isSome → active.isSome) : SlotOk db prio uid active saved := by
  refine ⟨fun c hc => (ha c hc).live, fun s hsv => ⟨hs s hsv, ?_⟩⟩
  obtain ⟨c, hc⟩ := isSome_iff_exists.mp (hsome (by simp [hsv]))
  exact ⟨c, hc, ha c hc⟩

theorem noRules_of_norules {a : Option Ctx} {c : Ctx} (h : norules a = some c) : c.NoRules := by
  cases a with
  | none => simp [norules] at h
  | some d =>
    rw [norules] at h
    split at h
    · rename_i hd
      exact some.inj h ▸ hd
    · exact some.inj h ▸ ⟨rfl, rfl, rfl, rfl⟩

theorem isSome_norules (a : Option Ctx) : (norules a).isSome = a.isSome := by
  cases a with
  | none => rfl
  | some c => rw [norules]; split <;> rfl

theorem mem_of_peContextSearchChain {w : World} {chain : List Block} {pident : Ident} {uid : ℕ}
    {ispg : Bool} {b : Block} (h : peContextSearchChain w chain pident uid ispg = some b) : b ∈ chain :=
  mem_of_find?_eq_some h

/-- The search builds a context of the ruleset it is given. -/
theorem ctxOf_search (w : World) (rs : Ruleset) (pident : Ident) (uid : ℕ) (ispg : Bool) :
    CtxOf rs (peContextSearch w rs pident uid ispg) :=
  ⟨rfl, fun _ h => mem_of_peContextSearchChain h, fun _ h => mem_of_peContextSearchChain h,
    fun _ h => mem_of_peContextSearchChain h⟩

/-! ### One operation at one priority -/

section Ops

variable {w : World} {db : PolicyDb} {p : Proc} {i : Prio}

/-- A switch leads to the ruleset of the uid it is made for. -/
theorem own_switch {pident : Ident} {uid : ℕ} {c : Ctx}
    (h : (peContextSwitch w db p i pident uid).context.get i = some c) : Own db i uid c := by
  rw [peContextSwitch] at h
  cases hrs : peUserGetRuleset uid i db with
  | none =>
    simp only [hrs, Proc.setContext, ByPrio.get_set_self] at h
    exact .inl (noRules_of_norules h)
  | some rs =>
    simp only [hrs, Proc.setContext, ByPrio.get_set_self, Option.some.injEq] at h
    exact .inr ⟨rs, hrs, h ▸ ctxOf_search ..⟩

theorem isSome_switch (w : World) (pident : Ident) {uid : ℕ}
    (h : (p.context.get i).isSome ∨ (peUserGetRuleset uid i db).isSome) :
    ((peContextSwitch w db p i pident uid).context.get i).isSome := by
  rw [peContextSwitch]
  cases hrs : peUserGetRuleset uid i db with
  | none =>
    simp only [hrs, isSome_none, Bool.false_eq_true, or_false] at h
    simpa [Proc.setContext, isSome_norules] using h
  | some rs => simp [Proc.setContext]

@[simp] theorem uid_switch (pident : Ident) (uid : ℕ) : (peContextSwitch w db p i pident uid).uid = p.uid := by
  rw [peContextSwitch]; split <;> rfl

@[simp] theorem savedCtx_switch (pident : Ident) (uid : ℕ) :
    (peContextSwitch w db p i pident uid).savedCtx = p.savedCtx := by
  rw [peContextSwitch]; split <;> rfl

theorem context_switch_ne (pident : Ident) (uid : ℕ) {q : Prio} (h : q ≠ i) :
    (peContextSwitch w db p i pident uid).context.get q = p.context.get q := by
  rw [peContextSwitch]; split <;> simp [Proc.setContext, h]

/-- What a round of one of the loops over the priorities leaves alone. -/
structure Frame (q : Prio) (p p' : Proc) : Prop where
  uid : p'.uid = p.uid
  context : p'.context.get q = p.context.get q
  saved : p'.savedCtx.get q = p.savedCtx.get q

theorem Frame.refl (q : Prio) (p : Proc) : Frame q p p := ⟨rfl, rfl, rfl⟩

theorem Frame.procOk {q : Prio} {p' : Proc} (h : Frame q p p') (hp : ProcOk db q p) : ProcOk db q p' := by
  rw [ProcOk, h.uid, h.context, h.saved]
  exact hp

/-- Decisions at a priority look at this priority only. -/
theorem Frame.decide {q : Prio} {p' : Proc} (h : Frame q p p') (type : CtxType) (pident : Ident)
    (uid : ℕ) : peContextDecide w p' type q pident uid = peContextDecide w p type q pident uid := by
  simp only [peContextDecide, h.context, h.uid]

theorem Frame.borrows {q : Prio} {p' : Proc} (h : Frame q p p') (proc : Proc) :
    borrows w proc p' q = borrows w proc p q := by
  simp only [Pe.borrows, h.decide, h.context]

theorem frame_switch (pident : Ident) (uid : ℕ) {q : Prio} (h : q ≠ i) :
    Frame q p (peContextSwitch w db p i pident uid) :=
  ⟨uid_switch _ _, context_switch_ne _ _ h, by rw [savedCtx_switch]⟩

theorem Frame.setSaved {q : Prio} {p' : Proc} (h : Frame q p p') (hq : q ≠ i) (s : Option Ctx) :
    Frame q p (p'.setSaved i s) :=
  ⟨h.uid, h.context, by simp [Proc.setSaved, hq, h.saved]⟩

end Ops

/-- Loops over the priorities: what a round establishes for its own priority survives the other
    rounds. `P` and `Q` look at one priority only. -/
theorem foldl_prio {f : Proc → Prio → Proc} {P Q : Prio → Proc → Prop} (hframe : ∀ p i q, q ≠ i → Frame q p (f p i))
    (hP : ∀ q p p', Frame q p p' → P q p → P q p') (hQ : ∀ q p p', Frame q p p' → Q q p → Q q p')
    (hstep : ∀ p i, P i p → Q i (f p i)) {p : Proc} (h : ∀ i, P i p) (i : Prio) : Q i (Prio.all.foldl f p) := by
  have hadm := hstep p .admin (h .admin)
  have huser := hP .user1 _ _ (hframe p .admin .user1 (by decide)) (h .user1)
  cases i with
  | admin => exact hQ .admin _ _ (hframe (f p .admin) .user1 .admin (by decide)) hadm
  | user1 => exact hstep _ .user1 huser

/-! ### Events on one process -/

section Events

variable {w : World} {db : PolicyDb}

theorem frame_execPrio (uid : ℕ) (pident : Ident) (p : Proc) (i q : Prio) (h : q ≠ i) :
    Frame q p (execPrio w db uid pident p i) := by
  rw [execPrio]
  split
  · exact (frame_switch pident uid h).setSaved h none
  · exact Frame.refl q p

/-- Exec: either the context is switched and nothing is saved, or the uid does not change. -/
theorem execPrio_ok {uid : ℕ} {pident : Ident} {p : Proc} {i : Prio} (hp : ProcOk db i p) :
    SlotOk db i (if uid ≠ uidDefault then uid else p.uid) ((execPrio w db uid pident p i).context.get i)
      ((execPrio w db uid pident p i).savedCtx.get i) := by
  rw [execPrio]
  by_cases hdec : peContextDecide w p .new i pident uid = true
  · simp only [if_pos hdec, Proc.setSaved, ByPrio.get_set_self]
    exact SlotOk.of_noSaved fun c hc => (own_switch hc).live
  · rw [if_neg hdec]
    have huid : (if uid ≠ uidDefault then uid else p.uid) = p.uid := by
      rw [peContextDecide] at hdec
      cases hc : p.context.get i with
      | none => simp [hc] at hdec
      | some c =>
        by_cases hu : p.uid = uid
        · simp [hu]
        · simp [hc, hu] at hdec
    rw [huid]
    exact hp

theorem peContextExec_ok {uid : ℕ} {pident : Ident} {p : Proc} (hp : ∀ i, ProcOk db i p) (i : Prio) :
    ProcOk db i (peContextExec w db p uid pident) := by
  have hslot : ∀ i, (Prio.all.foldl (execPrio w db uid pident) p).uid = p.uid ∧
      SlotOk db i (if uid ≠ uidDefault then uid else p.uid)
        ((Prio.all.foldl (execPrio w db uid pident) p).context.get i)
        ((Prio.all.foldl (execPrio w db uid pident) p).savedCtx.get i) :=
    foldl_prio (P := fun i q => q.uid = p.uid ∧ ProcOk db i q)
      (Q := fun i q => q.uid = p.uid ∧ SlotOk db i (if uid ≠ uidDefault then uid else p.uid)
        (q.context.get i) (q.savedCtx.get i))
      (fun p i q h => frame_execPrio uid pident p i q h)
      (fun q p p' hf h => ⟨hf.uid.trans h.1, hf.procOk h.2⟩)
      (fun q p p' hf h => ⟨hf.uid.trans h.1, by rw [hf.context, hf.saved]; exact h.2⟩)
      (fun q i h => ⟨(by
          rw [execPrio]
          split
          · simp [Proc.setSaved, h.1]
          · exact h.1), h.1 ▸ execPrio_ok h.2⟩)
      (fun i => ⟨rfl, hp i⟩)
  obtain ⟨huid, hs⟩ := hslot i
  rw [peContextExec, ProcOk]
  by_cases hu : uid ≠ uidDefault
  · simpa [hu] using hs
  · simpa [hu, huid] using hs

/-- Fork: the child has no saved context and either shares a live one or gets its own. -/
theorem peContextFork_ok {parent : Option Proc} (hpar : ∀ q, parent = some q → ∀ i, ProcOk db i q)
    {p : Proc} (hp : p.savedCtx = ⟨none, none⟩) (i : Prio) : ProcOk db i (peContextFork w db p parent) := by
  refine foldl_prio (P := fun i q => q.savedCtx.get i = none) (Q := fun i q => ProcOk db i q)
    ?_ (fun q p p' hf h => hf.saved.trans h) (fun q p p' hf h => hf.procOk h) ?_
    (fun i => by rw [hp]; cases i <;> rfl) i
  · intro p i q h
    rw [forkPrio]
    split
    · exact ⟨rfl, by simp [Proc.setContext, h], rfl⟩
    · exact (frame_switch _ _ h).setSaved h none
  · intro q i h
    rw [forkPrio, ProcOk]
    split
    · rename_i c hc
      simp only [Proc.setContext, ByPrio.get_set_self, h]
      refine SlotOk.of_noSaved fun d hd => ?_
      obtain ⟨r, hr, hctx⟩ := bind_eq_some_iff.mp hc
      rw [ite_none_right_eq_some] at hctx
      exact (hpar r hr i).live d (hctx.2.trans hd)
    · simp only [Proc.setSaved, ByPrio.get_set_self]
      exact SlotOk.of_noSaved fun c hc => (own_switch hc).live

/-- An open event is harmless if no context is saved or `msg_uid` resolves like the own uid. -/
def OpenOk (w : World) (db : PolicyDb) (msgUid : ℕ) (pident : Ident) (p : Proc) (i : Prio) : Prop :=
  (p.savedCtx.get i).isSome → peContextDecide w p .openFile i pident p.uid = true →
    peUserGetRuleset msgUid i db = peUserGetRuleset p.uid i db

theorem peContextOpen_ok {msgUid : ℕ} {pident : Ident} {p : Proc} (hp : ∀ i, ProcOk db i p)
    (ho : ∀ i, OpenOk w db msgUid pident p i) (i : Prio) : ProcOk db i (peContextOpen w db p msgUid pident) := by
  refine foldl_prio (P := fun i q => ProcOk db i q ∧ OpenOk w db msgUid pident q i)
    (Q := fun i q => ProcOk db i q) ?_ ?_ (fun q p p' hf h => hf.procOk h) ?_
    (fun i => ⟨hp i, ho i⟩) i
  · intro p i q h
    rw [openPrio]
    split
    · exact frame_switch pident msgUid h
    · exact Frame.refl q p
  · intro q p p' hf h
    refine ⟨hf.procOk h.1, ?_⟩
    rw [OpenOk, hf.uid, hf.decide, hf.saved]
    exact h.2
  · rintro q i ⟨hq, hop⟩
    rw [openPrio]
    split
    · rename_i hdec
      rw [ProcOk, uid_switch, savedCtx_switch]
      refine ⟨fun c hc => (own_switch hc).live, fun s hs => ?_⟩
      obtain ⟨hown, c, hc, -⟩ := hq.own s hs
      have hsome : ((peContextSwitch w db q i pident msgUid).context.get i).isSome :=
        isSome_switch w pident (.inl (by rw [hc]; rfl))
      obtain ⟨d, hd⟩ := isSome_iff_exists.mp hsome
      have hdown := own_switch hd
      rw [Own, hop (by rw [hs]; rfl) hdec] at hdown
      exact ⟨hown, d, hd, hdown⟩
    · exact hq

/-- A connection is harmless if a context that gets saved belongs to the ruleset of the own uid. -/
def BorrowOk (w : World) (db : PolicyDb) (proc procp : Proc) (i : Prio) : Prop :=
  ∀ c, borrows w proc procp i = some c → procp.savedCtx.get i = none →
    c.ruleset = (peUserGetRuleset procp.uid i db).map (·.ptr)

/-- Addresses tell rulesets apart. -/
def PtrInj (db : PolicyDb) : Prop :=
  ∀ u q rs u' q' rs', storedRuleset u q db = some rs → storedRuleset u' q' db = some rs' →
    rs.ptr = rs'.ptr → rs = rs'

theorem own_of_ptr (hinj : PtrInj db) {i : Prio} {uid : ℕ} {c : Ctx} (hc : Live db i c)
    (h : c.ruleset = (peUserGetRuleset uid i db).map (·.ptr)) : Own db i uid c := by
  rcases hc with hc | ⟨u, rs, hs, hof⟩
  · exact .inl hc
  · rw [hof.ruleset] at h
    cases hrs : peUserGetRuleset uid i db with
    | none => simp [hrs] at h
    | some rs' =>
      rw [hrs, map_some, Option.some.injEq] at h
      have heq : rs = rs' := by
        rcases peUserGetRuleset_cases hrs with hs' | ⟨-, hs'⟩
        · exact hinj _ _ _ _ _ _ hs hs' h
        · exact hinj _ _ _ _ _ _ hs hs' h
      exact .inr ⟨rs', hrs, heq ▸ hof⟩

/-- The borrower has a context with context rules. -/
theorem borrows_context {proc procp : Proc} {i : Prio} {c : Ctx} (h : borrows w proc procp i = some c) :
    ∃ d, procp.context.get i = some d ∧ d.ruleset = c.ruleset ∧ d.ctxrule ≠ none := by
  rw [borrows] at h
  cases hc : proc.context.get i with
  | none => simp [hc] at h
  | some c' =>
    rw [hc] at h
    simp only [ite_none_right_eq_some, Option.some.injEq] at h
    obtain ⟨⟨hdec, hrs⟩, rfl⟩ := h
    cases hd : procp.context.get i with
    | none => simp [hd] at hrs
    | some d =>
      refine ⟨d, rfl, by simpa [hd] using hrs.symm, fun hnone => ?_⟩
      simp [peContextDecide, hd, hnone] at hdec

theorem frame_saveCtx (p : Proc) (cookie : ℕ) {i q : Prio} (h : q ≠ i) : Frame q p (peProcSaveCtx p i cookie) := by
  rw [peProcSaveCtx]
  split
  · exact Frame.refl q p
  · exact ⟨rfl, by simp [Proc.setContext, Proc.setSaved, h], by simp [Proc.setContext, Proc.setSaved, h]⟩

theorem uid_saveCtx (p : Proc) (i : Prio) (cookie : ℕ) : (peProcSaveCtx p i cookie).uid = p.uid := by
  rw [peProcSaveCtx]; split <;> rfl

theorem frame_borrowPrio (proc : Proc) (cookie : ℕ) (p : Proc) (i q : Prio) (h : q ≠ i) :
    Frame q p (borrowPrio w db proc cookie p i) := by
  rw [borrowPrio]
  split
  · exact Frame.refl q p
  · have h1 := frame_saveCtx p cookie h
    rename_i c _
    have h2 : Frame q _ (peContextSwitch w db (peProcSaveCtx p i cookie) i c.ident p.uid) :=
      frame_switch c.ident p.uid h
    exact ⟨h2.uid.trans h1.uid, h2.context.trans h1.context, h2.saved.trans h1.saved⟩

/-- Borrowing: the context that is saved and the one that replaces it are of the same ruleset. -/
theorem borrowPrio_ok (hinj : PtrInj db) {proc : Proc} {cookie : ℕ} {p : Proc} {i : Prio}
    (hp : ProcOk db i p) (hb : BorrowOk w db proc p i) : ProcOk db i (borrowPrio w db proc cookie p i) := by
  rw [borrowPrio]
  cases hbor : borrows w proc p i with
  | none => exact hp
  | some c =>
    obtain ⟨d, hd, hdrs, hdctx⟩ := borrows_context hbor
    simp only
    rw [ProcOk, uid_switch, savedCtx_switch, uid_saveCtx]
    cases hsv : p.savedCtx.get i with
    | some s =>
      have hsave : peProcSaveCtx p i cookie = p := by simp [peProcSaveCtx, hsv]
      rw [hsave, hsv]
      refine SlotOk.of_own (fun e he => own_switch he) (fun e he => ?_) (fun _ => ?_)
      · exact some.inj he ▸ (hp.own s hsv).1
      · exact isSome_switch w c.ident (.inl (by rw [hd]; rfl))
    | none =>
      have hown : Own db i p.uid d :=
        own_of_ptr hinj (hp.live d hd) (hdrs.trans (hb c hbor hsv))
      have hsaved : (peProcSaveCtx p i cookie).savedCtx.get i = some d := by
        simp [peProcSaveCtx, hsv, Proc.setContext, Proc.setSaved, hd]
      rw [hsaved]
      refine SlotOk.of_own (fun e he => own_switch he) (fun e he => ?_) (fun _ => ?_)
      · exact some.inj he ▸ hown
      · refine isSome_switch w c.ident (.inr ?_)
        rcases hown with hno | ⟨rs, hrs, -⟩
        · exact absurd hno.2.2.2 hdctx
        · rw [hrs]; rfl

theorem peContextBorrow_ok (hinj : PtrInj db) {proc p : Proc} {cookie : ℕ} (hp : ∀ i, ProcOk db i p)
    (hb : ∀ i, BorrowOk w db proc p i) (i : Prio) : ProcOk db i (peContextBorrow w db proc p cookie) := by
  refine foldl_prio (P := fun i q => ProcOk db i q ∧ BorrowOk w db proc q i)
    (Q := fun i q => ProcOk db i q) (frame_borrowPrio proc cookie) ?_
    (fun q p p' hf h => hf.procOk h) (fun q i h => borrowPrio_ok hinj h.1 h.2)
    (fun i => ⟨hp i, hb i⟩) i
  intro q p p' hf h
  refine ⟨hf.procOk h.1, ?_⟩
  rw [BorrowOk, hf.borrows, hf.saved, hf.uid]
  exact h.2

/-- Restoring: the saved context becomes the active one. -/
theorem peContextRestore_ok {p : Proc} {cookie : ℕ} (hp : ∀ i, ProcOk db i p) (i : Prio) :
    ProcOk db i (peContextRestore p cookie) := by
  refine foldl_prio (P := fun i q => ProcOk db i q) (Q := fun i q => ProcOk db i q) ?_
    (fun q p p' hf h => hf.procOk h) (fun q p p' hf h => hf.procOk h) ?_ hp i
  · intro p i q h
    rw [peProcRestoreCtx]
    repeat' split
    · exact Frame.refl q p
    · exact Frame.refl q p
    · exact ⟨rfl, by simp [Proc.setContext, Proc.setSaved, h], by
        simp [Proc.setContext, Proc.setSaved, h]⟩
  · intro q i hq
    rw [peProcRestoreCtx]
    split
    · exact hq
    · rename_i c hc
      split
      · exact hq
      · rw [ProcOk]
        simp only [Proc.setContext, Proc.setSaved, ByPrio.get_set_self]
        exact SlotOk.of_noSaved fun d hd => some.inj hd ▸ (hq.own c hc).1.live

theorem frame_refresh (p : Proc) (i q : Prio) (h : q ≠ i) : Frame q p (peContextRefresh w db p i) := by
  rw [peContextRefresh]
  repeat' split
  · exact ⟨rfl, by simp [Proc.setContext, Proc.setSaved, h], by
      simp [Proc.setContext, Proc.setSaved, h]⟩
  · exact ⟨rfl, by simp [Proc.setContext, h], by simp [Proc.setContext]⟩
  · exact ⟨rfl, by simp [Proc.setContext, Proc.setSaved, h], by
      simp [Proc.setContext, Proc.setSaved, h]⟩

/-- A refresh leaves contexts of the own ruleset only. -/
theorem refresh_ok {p : Proc} {i : Prio} (hsome : (p.savedCtx.get i).isSome → (p.context.get i).isSome) :
    ProcOk db i (peContextRefresh w db p i) := by
  rw [peContextRefresh]
  cases hrs : peUserGetRuleset p.uid i db with
  | none =>
    simp only [ProcOk, Proc.setContext, Proc.setSaved, ByPrio.get_set_self]
    refine SlotOk.of_own (fun c hc => .inl (noRules_of_norules hc))
      (fun c hc => .inl (noRules_of_norules hc)) ?_
    rw [isSome_norules, isSome_norules]
    exact hsome
  | some rs =>
    have hown : ∀ pident c, some (peContextSearch w rs pident p.uid (p.pgid ≠ 0)) = some c →
        Own db i p.uid c := fun pident c hc =>
      .inr ⟨rs, hrs, some.inj hc ▸ ctxOf_search ..⟩
    cases hs : p.savedCtx.get i with
    | none =>
      simp only [ProcOk, Proc.setContext, ByPrio.get_set_self, hs]
      exact SlotOk.of_own (hown _) (by simp) (by simp)
    | some c =>
      simp only [ProcOk, Proc.setContext, Proc.setSaved, ByPrio.get_set_self]
      exact SlotOk.of_own (hown _) (hown _) (by simp)

theorem SlotOk.isSome {i : Prio} {uid : ℕ} {a s : Option Ctx} (h : SlotOk db i uid a s)
    (hs : s.isSome) : a.isSome := by
  obtain ⟨d, hd⟩ := isSome_iff_exists.mp hs
  obtain ⟨-, c, hc, -⟩ := h.own d hd
  rw [hc]
  rfl

theorem refreshAll_ok {p : Proc} (hp : ∀ i, ProcOk db i p) (i : Prio) :
    ProcOk db i (Prio.all.foldl (peContextRefresh w db) p) :=
  foldl_prio (P := fun i q => ProcOk db i q) (Q := fun i q => ProcOk db i q) frame_refresh
    (fun _ _ _ hf h => hf.procOk h) (fun _ _ _ hf h => hf.procOk h)
    (fun _ _ hq => refresh_ok hq.isSome) hp i

/-! ### Installing a policy -/

theorem live_insertRs_ne {rs : Ruleset} {uid : ℕ} {prio i : Prio} (h : i ≠ prio) {c : Ctx}
    (hc : Live db i c) : Live (insertRs rs uid prio db) i c := by
  rcases hc with hc | ⟨u, r, hs, hof⟩
  · exact .inl hc
  · exact .inr ⟨u, r, by rw [storedRuleset_insertRs, if_neg (by simp [h]), hs], hof⟩

theorem own_insertRs_ne {rs : Ruleset} {uid u : ℕ} {prio i : Prio} (h : i ≠ prio) {c : Ctx}
    (hc : Own db i u c) : Own (insertRs rs uid prio db) i u c := by
  rw [Own, peUserGetRuleset_insertRs_ne rs uid u h]
  exact hc

/-- A process that is not selected keeps contexts that are still in the database. -/
theorem unselected_ok {rs : Ruleset} {uid : ℕ} {prio : Prio} {p : Proc} (hp : ProcOk db prio p)
    (hsel : selected (storedRuleset uid prio db) prio uid p = false) : ProcOk (insertRs rs uid prio db) prio p := by
  rw [selected] at hsel
  cases hc : p.context.get prio with
  | none =>
    have hs : p.savedCtx.get prio = none := by
      cases hs : p.savedCtx.get prio with
      | none => rfl
      | some s => simpa [hc] using hp.isSome (by rw [hs]; rfl)
    rw [ProcOk, hc, hs]
    exact SlotOk.of_noSaved (by simp)
  | some c =>
    -- the ruleset of a context that was not selected is not the one being replaced
    have hkeep : ∀ r, c.ruleset = some r.ptr → storedRuleset uid prio db ≠ some r := by
      intro r hr hold
      simp [hc, hold, peContextUsesRs, hr] at hsel
    have hlive : Live (insertRs rs uid prio db) prio c := by
      rcases hp.live c hc with hno | ⟨u, r, hs, hof⟩
      · exact .inl hno
      · refine .inr ⟨u, r, ?_, hof⟩
        have hu : u ≠ uid := fun hu => hkeep r hof.ruleset (hu ▸ hs)
        rw [storedRuleset_insertRs, if_neg (by simp [hu]), hs]
    have hown : ∀ d, Own db prio p.uid d → Own db prio p.uid c →
        Own (insertRs rs uid prio db) prio p.uid d := by
      rintro d (hno | ⟨r, hr, hof⟩) hown
      · exact .inl hno
      · refine .inr ⟨r, ?_, hof⟩
        rcases hown with hno | ⟨r', hr', hof'⟩
        · -- an active context without rules is selected unless there was no old ruleset
          have hnone : storedRuleset uid prio db = none := by
            cases ho : storedRuleset uid prio db with
            | none => rfl
            | some o => simp [hc, ho, peContextUsesRs, hno.1] at hsel
          have hu : p.uid ≠ uid := by simpa [hc, hnone, peContextUsesRs] using hsel
          exact peUserGetRuleset_insertRs hr (by simp [hnone]) (fun h => absurd h hu)
        · obtain rfl : r' = r := some.inj (hr'.symm.trans hr)
          refine peUserGetRuleset_insertRs hr (hkeep r' hof'.ruleset) (fun h hnone => ?_)
          simp [hc, hnone, peContextUsesRs, h] at hsel
    rw [ProcOk, hc]
    refine ⟨fun d hd => some.inj hd ▸ hlive, fun s hs => ?_⟩
    obtain ⟨hs1, c', hc', hs2⟩ := hp.own s hs
    obtain rfl : c' = c := some.inj (hc'.symm.trans hc)
    exact ⟨hown s hs1 hs2, c', rfl, hown c' hs2 hs2⟩

end Events

/-! ### Runs -/

/-- The invariant of the tracker. -/
structure StateOk (st : PeState) : Prop where
  inj : PtrInj st.db
  proc : ∀ p ∈ st.tracker, ∀ i, ProcOk st.db i p

theorem StateOk.noStale (h : StateOk st) : NoStale st := by
  rintro p hp i c (hc | hc)
  · exact (h.proc p hp i).live c hc
  · exact ((h.proc p hp i).own c hc).1.live

/-- The steps that keep foreign contexts away from saved ones. -/
def StepOk (w : World) (st : PeState) : Event → Prop
  | .openFile cookie msgUid ident =>
    ∀ p, peProcGet cookie st.tracker = some p → ∀ i, OpenOk w st.db msgUid ident p i
  | .connect source dest _ =>
    ∀ proc procp, peProcGet source st.tracker = some proc → peProcGet dest st.tracker = some procp →
      ∀ i, BorrowOk w st.db proc procp i
  | _ => True

/-- A new ruleset does not have the address of one that is in use. -/
def Fresh (st : PeState) : Event → Prop
  | .upload rs _ _ => ∀ u q r, storedRuleset u q st.db = some r → r.ptr ≠ rs.ptr
  | _ => True

theorem mem_modifyProc {p : Proc} (h : p ∈ modifyProc cookie f ps) :
    p ∈ ps ∨ ∃ q, peProcGet cookie ps = some q ∧ p = f q := by
  induction ps with
  | nil => simp [modifyProc] at h
  | cons a ps ih =>
    rw [modifyProc] at h
    by_cases ha : a.taskCookie = cookie
    · rw [if_pos ha] at h
      rcases mem_cons.mp h with rfl | h
      · exact .inr ⟨a, by simp [peProcGet, ha], rfl⟩
      · exact .inl (mem_cons_of_mem _ h)
    · rw [if_neg ha] at h
      rcases mem_cons.mp h with rfl | h
      · exact .inl mem_cons_self
      · rcases ih h with h | ⟨q, hq, rfl⟩
        · exact .inl (mem_cons_of_mem _ h)
        · exact .inr ⟨q, by simpa [peProcGet, ha] using hq, rfl⟩

theorem mem_untrackProc {p : Proc} (h : p ∈ untrackProc cookie ps) : p ∈ ps := by
  induction ps with
  | nil => simp [untrackProc] at h
  | cons a ps ih =>
    rw [untrackProc] at h
    split at h
    · exact mem_cons_of_mem _ h
    · rcases mem_cons.mp h with rfl | h
      · exact mem_cons_self
      · exact mem_cons_of_mem _ (ih h)

theorem mem_of_peProcGet {p : Proc} (h : peProcGet cookie ps = some p) : p ∈ ps :=
  mem_of_find?_eq_some h

/-- An operation on one process that keeps its slots in order keeps the invariant. -/
theorem StateOk.modify (h : StateOk st) (hf : ∀ p, peProcGet cookie st.tracker = some p → ∀ i, ProcOk st.db i (f p)) :
    StateOk (st.modify cookie f) := by
  refine ⟨h.inj, fun p hp i => ?_⟩
  rcases mem_modifyProc hp with hp | ⟨q, hq, rfl⟩
  · exact h.proc p hp i
  · exact hf q hq i

theorem StateOk.get (h : StateOk st) {p : Proc} (hp : peProcGet cookie st.tracker = some p) (i : Prio) :
    ProcOk st.db i p :=
  h.proc p (mem_of_peProcGet hp) i

/-- Counting instances and threads does not touch the slots. -/
theorem StateOk.modify_counts (h : StateOk st) (cookie : ℕ)
    (hf : ∀ p, (f p).uid = p.uid ∧ (f p).context = p.context ∧ (f p).savedCtx = p.savedCtx) :
    StateOk (st.modify cookie f) := by
  refine h.modify fun p hp i => ?_
  obtain ⟨hu, hc, hs⟩ := hf p
  rw [ProcOk, hu, hc, hs]
  exact h.get hp i

theorem procOk_newProc (db : PolicyDb) (uid cookie pgid : ℕ) (ident : Ident) (i : Prio) :
    ProcOk db i (newProc uid cookie pgid ident) := by
  cases i <;> exact SlotOk.of_noSaved (by simp [newProc, ByPrio.get])

theorem fork_ok {w : World} (h : StateOk st) (uid child parent pgid : ℕ) :
    StateOk (peProcFork w st uid child parent pgid) := by
  refine ⟨h.inj, fun p hp i => ?_⟩
  rcases mem_append.mp hp with hp | hp
  · exact h.proc p hp i
  · rw [mem_singleton.mp hp]
    exact peContextFork_ok (fun q hq j => h.get hq j) rfl i

theorem exec_ok {w : World} (h : StateOk st) (cookie uid : ℕ) (ident : Ident) (pgid : ℕ) (secure : Bool) :
    StateOk (peProcExec w st cookie uid ident pgid secure) := by
  have htracked : ∀ tracker : List Proc, (∀ p ∈ tracker, ∀ i, ProcOk st.db i p) →
      StateOk ⟨modifyProc cookie (execProc w st.db uid ident secure) tracker, st.db⟩ := by
    intro tracker ht
    have hst : StateOk ⟨tracker, st.db⟩ := ⟨h.inj, ht⟩
    refine hst.modify fun p hp i => ?_
    have hp' : ∀ j, ProcOk st.db j { p with ident := ident } := fun j => hst.get hp j
    have hexec : ProcOk st.db i (peContextExec w st.db { p with ident := ident } uid ident) :=
      peContextExec_ok hp' i
    exact hexec
  rw [peProcExec]
  refine htracked _ ?_
  cases peProcGet cookie st.tracker with
  | some q => exact h.proc
  | none =>
    intro p hp i
    rcases mem_append.mp hp with hp | hp
    · exact h.proc p hp i
    · rw [mem_singleton.mp hp]
      exact procOk_newProc st.db uid cookie pgid noIdent i

theorem exit_ok (h : StateOk st) (cookie : ℕ) : StateOk (peProcExit st cookie) := by
  rw [peProcExit]
  split
  · exact h
  · split
    · exact h.modify_counts cookie fun _ => ⟨rfl, rfl, rfl⟩
    · exact ⟨h.inj, fun p hp => h.proc p (mem_untrackProc hp)⟩

/-- Installing a ruleset under a fresh address keeps the invariant. -/
theorem upload_ok {w : World} (h : StateOk st) {uid : ℕ}
    (hf : ∀ u q r, storedRuleset u q st.db = some r → r.ptr ≠ rs.ptr) :
    StateOk (peUserInsertRs w st rs uid prio) := by
  constructor
  · intro u q r u' q' r' hr hr' hptr
    simp only [peUserInsertRs, storedRuleset_insertRs] at hr hr'
    split at hr <;> split at hr'
    · exact (some.inj hr).symm.trans (some.inj hr')
    · exact absurd (some.inj hr ▸ hptr.symm) (hf _ _ _ hr')
    · exact absurd (some.inj hr' ▸ hptr) (hf _ _ _ hr)
    · exact h.inj _ _ _ _ _ _ hr hr' hptr
  · intro p hp i
    simp only [peUserInsertRs, peProcUpdateDbOne, List.mem_map] at hp
    obtain ⟨q, hq, rfl⟩ := hp
    have hqok := h.proc q hq
    have hother : i ≠ prio → ProcOk (insertRs rs uid prio st.db) i q := fun hi =>
      ⟨fun c hc => live_insertRs_ne hi ((hqok i).live c hc), fun s hs => by
        obtain ⟨h1, c, hc, h2⟩ := (hqok i).own s hs
        exact ⟨own_insertRs_ne hi h1, c, hc, own_insertRs_ne hi h2⟩⟩
    by_cases hsel : selected (storedRuleset uid prio st.db) prio uid q = true
    · rw [if_pos hsel]
      by_cases hi : i = prio
      · subst hi
        exact refresh_ok (hqok i).isSome
      · exact (frame_refresh q prio i hi).procOk (hother hi)
    · rw [if_neg hsel]
      by_cases hi : i = prio
      · subst hi
        exact unselected_ok (hqok i) (by simpa using hsel)
      · exact hother hi

/-- One event. -/
theorem step_ok {w : World} (h : StateOk st) {e : Event} (hs : StepOk w st e) (hf : Fresh st e) :
    StateOk (step w st e) := by
  cases e with
  | fork uid child parent pgid => exact fork_ok h uid child parent pgid
  | exec cookie uid ident pgid secure => exact exec_ok h cookie uid ident pgid secure
  | exit cookie => exact exit_ok h cookie
  | replace keep gone =>
    have hkeep : StateOk (st.modify keep fun p => { p with instances := p.instances + 1 }) :=
      h.modify_counts keep fun _ => ⟨rfl, rfl, rfl⟩
    exact exit_ok hkeep gone
  | create cookie => exact h.modify_counts cookie fun _ => ⟨rfl, rfl, rfl⟩
  | destroy cookie => exact h.modify_counts cookie fun _ => ⟨rfl, rfl, rfl⟩
  | openFile cookie msgUid ident =>
    exact h.modify fun p hp => peContextOpen_ok (h.get hp) (hs p hp)
  | connect source dest conn =>
    simp only [step]
    split
    · exact h
    · rename_i proc hproc
      exact h.modify fun p hp => peContextBorrow_ok h.inj (h.get hp) (hs proc p hproc hp)
  | disconnect source conn => exact h.modify fun p hp => peContextRestore_ok (h.get hp)
  | playground cookie pgid =>
    refine h.modify fun p hp => refreshAll_ok fun i => ?_
    exact h.get hp i
  | upload rs uid prio => exact upload_ok h hf

/-- A run all of whose steps meet the condition. -/
def RunOk : PeState → List (World × Event) → Prop
  | _, [] => True
  | st, (w, e) :: es => StepOk w st e ∧ Fresh st e ∧ RunOk (step w st e) es

/-- The invariant along a run. -/
theorem run_ok {es : List (World × Event)} : ∀ {st : PeState}, StateOk st → RunOk st es → StateOk (run st es) := by
  induction es with
  | nil => intro st h _; exact h
  | cons we es ih =>
    intro st h hr
    exact ih (step_ok h hr.1 hr.2.1) hr.2.2

/-- From an empty tracker and any database, no run whose steps keep foreign contexts away from saved
    ones leads to a context of a ruleset that is not in the database. -/
theorem no_stale_ruleset (db : PolicyDb) (hinj : PtrInj db) (es : List (World × Event))
    (hr : RunOk ⟨[], db⟩ es) : NoStale (run ⟨[], db⟩ es) :=
  (run_ok ⟨hinj, by simp⟩ hr).noStale

/-! ### A run with a foreign context -/

theorem mem_of_storedRuleset {uid : ℕ} {db : PolicyDb} (h : storedRuleset uid prio db = some rs) :
    ∃ u ∈ db, u.prio.get prio = some rs := by
  obtain ⟨u, hu, hrs⟩ := bind_eq_some_iff.mp h
  exact ⟨u, mem_of_find?_eq_some hu, hrs⟩

/-- A ruleset whose processes may switch their context on open and lend it to anybody. -/
def openBorrow (ptr : ℕ) : Ruleset :=
  { ptr := ptr, flags := 0, version := 0, maxid := 0, idtree := [], alfQueue := [], sfsQueue := []
    sbQueue := []
    ctxQueue := [⟨0, 1, .ctx, [], Flags.none,
      [⟨0, 2, none, .ctxRule [] .openFile⟩, ⟨0, 3, none, .ctxRule [] .borrow⟩]⟩] }

/-- Two users with one ruleset each. -/
def twoUsers : PolicyDb :=
  [⟨1000, ⟨none, some (openBorrow 1)⟩⟩, ⟨1001, ⟨none, some (openBorrow 2)⟩⟩]

/-- No checksums and no certificates. -/
def emptyWorld : World := ⟨fun _ _ => [], fun _ _ => [], fun _ => none⟩

theorem twoUsers_inj : PtrInj twoUsers := by
  have hall : ∀ v ∈ twoUsers, ∀ v' ∈ twoUsers, ∀ q q', ∀ r ∈ v.prio.get q, ∀ r' ∈ v'.prio.get q',
      r.ptr = r'.ptr → r = r' := by
    simp only [twoUsers, mem_cons, not_mem_nil, or_false]
    rintro v (rfl | rfl) v' (rfl | rfl) (- | -) (- | -) <;> simp [ByPrio.get, openBorrow]
  intro u q r u' q' r' hr hr' hptr
  obtain ⟨v, hv, hvr⟩ := mem_of_storedRuleset hr
  obtain ⟨v', hv', hvr'⟩ := mem_of_storedRuleset hr'
  exact hall v hv v' hv' q q' r hvr r' hvr' hptr

/-- Process 1 of user 1000 opens a file for user 1001 and then accepts a connection of process 2 of
    user 1001: the context it saves belongs to the ruleset of user 1001. -/
def foreignRun : List (World × Event) :=
  [(emptyWorld, .exec 1 1000 noIdent 0 false), (emptyWorld, .exec 2 1001 noIdent 0 false),
    (emptyWorld, .openFile 1 1001 noIdent), (emptyWorld, .connect 2 1 7),
    (emptyWorld, .upload (openBorrow 3) 1001 .user1)]

/-- The new ruleset of user 1001 leaves process 1 with a saved context of the freed one. -/
theorem foreign_context_stale : PtrInj twoUsers ∧ ¬ NoStale (run ⟨[], twoUsers⟩ foreignRun) := by
  refine ⟨twoUsers_inj, fun h => ?_⟩
  have hsaved : ∃ p ∈ (run ⟨[], twoUsers⟩ foreignRun).tracker, ∃ c,
      p.savedCtx.get .user1 = some c ∧ c.ruleset = some 2 :=
    ⟨_, List.mem_cons_self, _, rfl, rfl⟩
  obtain ⟨p, hp, c, hc, hrs⟩ := hsaved
  rcases h p hp .user1 c (.inr hc) with hno | ⟨u, rs, hs, hof⟩
  · exact absurd (hrs.symm.trans hno.1) (by simp)
  · have hdb : ∀ v ∈ (run ⟨[], twoUsers⟩ foreignRun).db, ∀ r ∈ v.prio.get .user1, r.ptr ≠ 2 := by
      decide
    obtain ⟨v, hv, hvr⟩ := mem_of_storedRuleset hs
    exact hdb v hv rs hvr (Option.some.inj (hof.ruleset.symm.trans hrs))

/-- Both processes belong to user 1000, which also gets the new ruleset. -/
def ownRun : List (World × Event) :=
  [(emptyWorld, .exec 1 1000 noIdent 0 false), (emptyWorld, .exec 2 1000 noIdent 0 false),
    (emptyWorld, .openFile 1 1000 noIdent), (emptyWorld, .connect 2 1 7),
    (emptyWorld, .upload (openBorrow 3) 1000 .user1)]

theorem ownRun_ok : RunOk ⟨[], twoUsers⟩ ownRun := by
  refine ⟨trivial, trivial, trivial, trivial, ?_, trivial, ?_, trivial, trivial, ?_, trivial⟩
  · intro p hp i _ _
    cases hp
    rfl
  · intro proc procp hproc hprocp i c hb _
    cases hproc
    cases hprocp
    cases i with
    | admin =>
      have hnone : (none : Option Ctx) = some c := hb
      exact absurd hnone (by simp)
    | user1 => exact some.inj hb ▸ rfl
  · intro u q r hr
    have hall : ∀ v ∈ twoUsers, ∀ q, ∀ r ∈ v.prio.get q, r.ptr ≠ 3 := by
      simp only [twoUsers, mem_cons, not_mem_nil, or_false]
      rintro v (rfl | rfl) (- | -) <;> simp [ByPrio.get, openBorrow]
    obtain ⟨v, hv, hvr⟩ := mem_of_storedRuleset hr
    exact hall v hv q r hvr

/-- The saved context of process 1 follows its ruleset. -/
theorem no_stale_ruleset_own : RunOk ⟨[], twoUsers⟩ ownRun ∧ NoStale (run ⟨[], twoUsers⟩ ownRun) :=
  ⟨ownRun_ok, no_stale_ruleset twoUsers twoUsers_inj ownRun ownRun_ok⟩

end Anoubis.Pe

import Anoubis.Pe.Stale

/-! Incremental and full reload.

    `pe_user_insert_rs` refreshes the processes that `pe_proc_update_db_one` selects, a full reload
    refreshes all of them. Both leave the same contexts if and only if every process that is not
    selected is up to date already.

        incremental:  p ↦ if selected p then refresh p else p
        full:         p ↦ refresh p                                     -/

namespace Anoubis.Pe

open Anoubis.Apn

/-- The context has the ruleset that the uid of the process resolves to and the first matching block
    of each of its queues. -/
def UpToDate (w : World) (db : PolicyDb) (prio : Prio) (p : Proc) (c : Ctx) : Prop :=
  match peUserGetRuleset p.uid prio db with
  | none => c.NoRules
  | some r =>
    c.ruleset = some r.ptr ∧
    c.alfrule = peContextSearchChain w r.alfQueue c.ident p.uid (p.pgid ≠ 0) ∧
    c.sbrule = peContextSearchChain w r.sbQueue c.ident p.uid (p.pgid ≠ 0) ∧
    c.ctxrule = peContextSearchChain w r.ctxQueue c.ident p.uid (p.pgid ≠ 0)

/-- What has to hold of a process when `rs` is installed for `uid`. -/
def ReloadOk (w : World) (db : PolicyDb) (rs : Ruleset) (uid : ℕ) (prio : Prio) (p : Proc) : Prop :=
  match p.context.get prio with
  | none => p.uid ≠ uid ∧ uid ≠ uidDefault ∧ peUserGetRuleset p.uid prio db = none
  | some c =>
    match storedRuleset uid prio db with
    | none => p.uid = uid ∨ UpToDate w (insertRs rs uid prio db) prio p c
    | some old =>
      c.ruleset = some old.ptr ∨ c.ruleset = none ∨ UpToDate w (insertRs rs uid prio db) prio p c

/-! ### One process -/

variable (w : World)
variable (db : PolicyDb)

theorem peContextRefresh_context (p : Proc) (prio : Prio) :
    (peContextRefresh w db p prio).context.get prio =
      match peUserGetRuleset p.uid prio db with
      | none => norules (p.context.get prio)
      | some r => some (peContextSearch w r (((p.context.get prio).map (·.ident)).getD p.ident) p.uid
          (p.pgid ≠ 0)) := by
  rw [peContextRefresh]
  cases peUserGetRuleset p.uid prio db with
  | none => simp [Proc.setContext, Proc.setSaved]
  | some r => cases p.savedCtx.get prio <;> simp [Proc.setContext, Proc.setSaved]

/-- The other rounds of a full reload do not matter. -/
theorem refreshAll_context (p : Proc) (prio : Prio) : (Prio.all.foldl (peContextRefresh w db) p).context.get prio =
      (peContextRefresh w db p prio).context.get prio := by
  have hfst : Frame .user1 p (peContextRefresh w db p .admin) := frame_refresh p .admin .user1 (by decide)
  have hpg : (peContextRefresh w db p .admin).pgid = p.pgid ∧
      (peContextRefresh w db p .admin).ident = p.ident := by
    rw [peContextRefresh]
    repeat' split
    · exact ⟨rfl, rfl⟩
    · exact ⟨rfl, rfl⟩
    · exact ⟨rfl, rfl⟩
  cases prio with
  | admin =>
    exact (frame_refresh (peContextRefresh w db p .admin) .user1 .admin (by decide)).context
  | user1 =>
    change (peContextRefresh w db (peContextRefresh w db p .admin) .user1).context.get .user1 = _
    rw [peContextRefresh_context, peContextRefresh_context, hfst.context, hfst.uid, hpg.1, hpg.2]

theorem norules_eq_self_iff (c : Ctx) : norules (some c) = some c ↔ c.NoRules := by
  rw [norules]
  by_cases h : c.NoRules
  · simp [h]
  · rw [if_neg h]
    constructor
    · intro heq
      rw [← Option.some.inj heq]
      exact ⟨rfl, rfl, rfl, rfl⟩
    · intro hno
      exact absurd hno h

theorem search_eq_self_iff (r : Ruleset) (p : Proc) (c : Ctx) :
    c = peContextSearch w r c.ident p.uid (p.pgid ≠ 0) ↔ c.ruleset = some r.ptr ∧
      c.alfrule = peContextSearchChain w r.alfQueue c.ident p.uid (p.pgid ≠ 0) ∧
      c.sbrule = peContextSearchChain w r.sbQueue c.ident p.uid (p.pgid ≠ 0) ∧
      c.ctxrule = peContextSearchChain w r.ctxQueue c.ident p.uid (p.pgid ≠ 0) := by
  obtain ⟨cr, ca, cs, cc, ci⟩ := c
  simp [peContextSearch]

/-- A refresh keeps exactly the contexts that are up to date. -/
theorem refresh_keeps_iff {p : Proc} {prio : Prio} {c : Ctx}
    (hc : p.context.get prio = some c) : p.context.get prio = (peContextRefresh w db p prio).context.get prio ↔
      UpToDate w db prio p c := by
  rw [peContextRefresh_context, hc, UpToDate]
  cases peUserGetRuleset p.uid prio db with
  | none =>
    rw [eq_comm]
    exact norules_eq_self_iff c
  | some r => simpa using search_eq_self_iff w r p c

/-- A process without a context stays without one unless its uid resolves to a ruleset. -/
theorem refresh_keeps_none_iff {p : Proc} {prio : Prio} (hc : p.context.get prio = none) :
    p.context.get prio = (peContextRefresh w db p prio).context.get prio ↔ peUserGetRuleset p.uid prio db = none := by
  rw [peContextRefresh_context, hc]
  cases peUserGetRuleset p.uid prio db with
  | none => simp [norules]
  | some r => simp

/-- Who resolves to nothing after the installation. -/
theorem peUserGetRuleset_insertRs_eq_none (rs : Ruleset) (uid u : ℕ) (prio : Prio) (db : PolicyDb) :
    peUserGetRuleset u prio (insertRs rs uid prio db) = none ↔
      u ≠ uid ∧ uid ≠ uidDefault ∧ peUserGetRuleset u prio db = none := by
  simp only [peUserGetRuleset, storedRuleset_insertRs, and_true]
  by_cases hu : u = uid
  · simp [hu]
  · rw [if_neg hu]
    cases storedRuleset u prio db with
    | some r => simp
    | none =>
      by_cases hd : uidDefault = uid
      · simp [hd]
      · simp [hu, hd, Ne.symm hd]

/-- The incremental reload of one process agrees with the full one. -/
theorem reloadOk_iff (rs : Ruleset) (uid : ℕ) (prio : Prio) (p : Proc) :
    (if selected (storedRuleset uid prio db) prio uid p
      then peContextRefresh w (insertRs rs uid prio db) p prio else p).context.get prio =
      (peContextRefresh w (insertRs rs uid prio db) p prio).context.get prio ↔ ReloadOk w db rs uid prio p := by
  rw [ReloadOk]
  cases hc : p.context.get prio with
  | none =>
    have hsel : selected (storedRuleset uid prio db) prio uid p = false := by simp [selected, hc]
    simp only [hsel, Bool.false_eq_true, if_false]
    rw [refresh_keeps_none_iff _ _ hc, peUserGetRuleset_insertRs_eq_none]
  | some c =>
    have hkeep := refresh_keeps_iff w (insertRs rs uid prio db) hc
    cases ho : storedRuleset uid prio db with
    | none =>
      by_cases hu : p.uid = uid
      · simp [selected, hc, peContextUsesRs, hu]
      · simpa [selected, hc, peContextUsesRs, hu] using hkeep
    | some old =>
      by_cases hr : c.ruleset = some old.ptr ∨ c.ruleset = none
      · have hsel : selected (some old) prio uid p = true := by
          simpa [selected, hc, peContextUsesRs] using hr
        simp only [hsel, if_true, true_iff, ← or_assoc]
        exact .inl hr
      · have hsel : selected (some old) prio uid p = false := by
          simpa [selected, hc, peContextUsesRs] using hr
        simp only [hsel, Bool.false_eq_true, if_false, ← or_assoc]
        rw [or_iff_right hr]
        exact hkeep

/-! ### All processes -/

/-- Installing a ruleset leaves every process with the context of a full reload if and only if every
    process is selected or up to date. -/
theorem reload_agrees_iff (w : World) (st : PeState) (rs : Ruleset) (uid : ℕ) (prio : Prio) :
    (peUserInsertRs w st rs uid prio).tracker.map (fun p => p.context.get prio) =
      (peProcUpdateDb w (insertRs rs uid prio st.db) st.tracker).map (fun p => p.context.get prio) ↔
    ∀ p ∈ st.tracker, ReloadOk w st.db rs uid prio p := by
  simp only [peUserInsertRs, peProcUpdateDbOne, peProcUpdateDb, List.map_map, List.map_inj_left,
    Function.comp_apply, refreshAll_context, reloadOk_iff]

/-- A process that was started before there was any policy stays without context when its user gets
    one; a full reload gives it one. -/
theorem first_policy_missed :
    (peUserInsertRs emptyWorld (run ⟨[], []⟩ [(emptyWorld, .exec 1 1000 noIdent 0 false)])
        (openBorrow 1) 1000 .user1).tracker.map (fun p => p.context.get .user1) ≠
      (peProcUpdateDb emptyWorld (insertRs (openBorrow 1) 1000 .user1 [])
        (run ⟨[], []⟩ [(emptyWorld, .exec 1 1000 noIdent 0 false)]).tracker).map
          (fun p => p.context.get .user1) := by
  decide

end Anoubis.Pe

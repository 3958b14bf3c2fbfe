import Anoubis.Pe.Scope

/-! Admin rules before user rules.

    The evaluators ask the admin ruleset first. What it denies stays denied, and what it wants to be
    logged stays logged, whatever ruleset the user installs. `adminDb` and `adminProc` delete the
    user's side of the database and of a process, which leaves the verdict of the admin ruleset alone;
    `SameAdmin` relates two systems that differ in the user's side only.

        (db, proc)  -->  (adminDb db, adminProc proc)  <--  (db', proc')                       -/

namespace Anoubis.Pe

open Anoubis.Apn Anoubis.Lib Option

/-- Delete the rulesets of the user priority. -/
def adminDb (db : PolicyDb) : PolicyDb := db.map (fun u => { u with prio := ⟨u.prio.admin, none⟩ })

/-- Delete the contexts of the user priority. -/
def adminProc (p : Proc) : Proc :=
  { p with context := ⟨p.context.admin, none⟩, savedCtx := ⟨p.savedCtx.admin, none⟩ }

/-- Two systems with the same admin rulesets, and processes that agree but for their contexts at the
    user priority. -/
structure SameAdmin (db db' : PolicyDb) (proc proc' : Option Proc) : Prop where
  rulesets : ∀ uid, peUserGetRuleset uid .admin db = peUserGetRuleset uid .admin db'
  procs : proc.map adminProc = proc'.map adminProc

/-! ### Lookups -/

theorem storedRuleset_admin (uid : ℕ) (db : PolicyDb) :
    storedRuleset uid .admin (adminDb db) = storedRuleset uid .admin db := by
  rw [storedRuleset, storedRuleset, peUserGet, peUserGet, adminDb, List.find?_map]
  have hp : (fun u : User => decide (u.uid = uid)) ∘
      (fun u : User => { u with prio := ⟨u.prio.admin, none⟩ }) = fun u => decide (u.uid = uid) := rfl
  rw [hp]
  cases db.find? (fun u => decide (u.uid = uid)) <;> rfl

theorem storedRuleset_user (uid : ℕ) (db : PolicyDb) : storedRuleset uid .user1 (adminDb db) = none := by
  rw [storedRuleset, peUserGet, adminDb, List.find?_map]
  cases db.find? _ <;> rfl

theorem sameAdmin_alone (db : PolicyDb) (proc : Option Proc) :
    SameAdmin (adminDb db) db (proc.map adminProc) proc where
  rulesets uid := by
    rw [peUserGetRuleset, peUserGetRuleset, storedRuleset_admin, storedRuleset_admin]
  procs := by
    rw [map_map]
    cases proc <;> rfl

theorem peUserGetRuleset_user (uid : ℕ) (db : PolicyDb) : peUserGetRuleset uid .user1 (adminDb db) = none := by
  rw [peUserGetRuleset, storedRuleset_user, storedRuleset_user]

theorem peProcGetContext_user (proc : Option Proc) : peProcGetContext (proc.map adminProc) .user1 = none := by
  cases proc <;> rfl

namespace SameAdmin

variable {db db' : PolicyDb} {proc proc' : Option Proc}

section

variable (h : SameAdmin db db' proc proc')
include h

/-- What does not depend on the user's contexts agrees. -/
theorem view {β : Type} (f : Option Proc → β) (hf : ∀ p, f (p.map adminProc) = f p) : f proc = f proc' := by
  rw [← hf proc, h.procs, hf proc']

theorem context : peProcGetContext proc .admin = peProcGetContext proc' .admin :=
  h.view (fun p => peProcGetContext p .admin) (fun p => by cases p <;> rfl)

theorem uid (uid : ℕ) : proc.any (fun p => p.uid = uid) = proc'.any (fun p => p.uid = uid) :=
  h.view (fun p => p.any (fun p => p.uid = uid)) (fun p => by cases p <;> rfl)

theorem playground : inPlayground proc = inPlayground proc' :=
  h.view inPlayground (fun p => by cases p <;> rfl)

theorem nosfs : isNosfs proc .admin = isNosfs proc' .admin := by
  have hsec := h.view (fun p => p.any (fun p => p.secureexec)) (fun p => by cases p <;> rfl)
  rw [isNosfs, isNosfs, h.context, hsec]

theorem alfBlock_eq (msg : AlfEvent) : alfBlock db proc .admin msg = alfBlock db' proc' .admin msg := by
  rw [alfBlock, alfBlock, h.uid, h.context, h.rulesets]

theorem alfEvaluate_eq (msg : AlfEvent) (ruleId now : ℕ) :
    peAlfEvaluate db proc .admin msg ruleId now = peAlfEvaluate db' proc' .admin msg ruleId now := by
  rw [peAlfEvaluate, peAlfEvaluate, h.alfBlock_eq]

theorem sfsGetrules_eq (hash : Text → ℕ) (uid : ℕ) (path : Option Text) :
    peSfsGetrules hash db uid .admin path = peSfsGetrules hash db' uid .admin path := by
  rw [peSfsGetrules, peSfsGetrules, h.rulesets]

theorem sbGetrules_eq (hash : Text → ℕ) (uid : ℕ) (path : Option Text) :
    peSbGetrules hash db proc uid .admin path = peSbGetrules hash db' proc' uid .admin path := by
  rw [peSbGetrules, peSbGetrules, sbBlock, sbBlock, h.uid, h.context, h.rulesets, h.playground]

end

end SameAdmin

/-! ### Log levels -/

theorem Log.le_raise (a b : Log) : a.num ≤ (a.raise b).num := by
  rw [Log.raise]
  split
  · rename_i h
    exact le_of_lt h
  · exact le_rfl

theorem Log.none_raise (a : Log) : Log.none.raise a = a := by
  cases a <;> rfl

theorem Log.raise_mono {a a' b b' : Log} (ha : a.num ≤ a'.num) (hb : b.num ≤ b'.num) :
    (a.raise b).num ≤ (a'.raise b').num := by
  cases a <;> cases a' <;> cases b <;> cases b' <;> revert ha hb <;> decide

/-- The reply denies the event in the name of an admin rule. -/
def AdminDenies (r : Reply) : Prop := r.reply = eperm ∧ r.prio = some .admin

/-- The reply denies the event under the same rule. -/
def SameDeny (alone r : Reply) : Prop :=
  r.reply = eperm ∧ r.ask = false ∧ r.ruleId = alone.ruleId ∧ r.prio = alone.prio

theorem reply_decisionReply {proc : Option Proc} {d : Action} {log : Log} {ruleId : ℕ}
    {prio : Option Prio} {m : SfsMatch} : (decisionReply proc d log ruleId prio m).reply = eperm ↔ d = .deny := by
  rw [decisionReply]
  split
  · rename_i h
    simp [h]
  · rename_i h
    simp [h, eperm]

theorem sameDeny_decisionReply (proc proc' : Option Proc) (log log' : Log) (ruleId : ℕ)
    (prio : Option Prio) (m m' : SfsMatch) :
    SameDeny (decisionReply proc .deny log ruleId prio m) (decisionReply proc' .deny log' ruleId prio m') :=
  ⟨rfl, rfl, rfl, rfl⟩

/-! ### ALF -/

section Alf

variable (db : PolicyDb) (proc : Option Proc) (msg : AlfEvent) (now : ℕ)

/-- The state of `pe_decide_alf` behind the admin priority. -/
def adminAlf : AlfState :=
  let ret := peAlfEvaluate db proc .admin msg 0 now
  if ret.decision ≠ none then ⟨ret.decision, ret.log, ret.ruleId, some .admin⟩
  else ⟨none, .none, ret.ruleId, none⟩

/-- The reply at the end of `pe_decide_alf`. -/
def alfReply (proc : Option Proc) (st : AlfState) : Reply :=
  match st.decision with
  | none => decisionReply proc .deny .alert st.ruleId st.prio .none
  | some d => decisionReply proc d st.log st.ruleId st.prio .none

theorem peDecideAlf_eq : peDecideAlf db proc msg now = alfReply proc
    (if (adminAlf db proc msg now).decision = some .deny then adminAlf db proc msg now
    else alfPrioLoop (fun i ruleId => peAlfEvaluate db proc i msg ruleId now) [.user1]
      (adminAlf db proc msg now)) := by
  have hreply : peDecideAlf db proc msg now = alfReply proc
      (alfPrioLoop (fun i ruleId => peAlfEvaluate db proc i msg ruleId now) Prio.all
        ⟨none, .none, 0, none⟩) := by
    unfold peDecideAlf alfReply
    split <;> rename_i h <;> simp [h]
  rw [hreply, Prio.all, alfPrioLoop, adminAlf]
  cases hd : (peAlfEvaluate db proc .admin msg 0 now).decision with
  | none => simp
  | some d => cases d <;> simp [Log.none_raise]

/-- The user priority raises the log level or leaves it. -/
theorem alfUser_log (st : AlfState) : st.log.num ≤
    (alfPrioLoop (fun i ruleId => peAlfEvaluate db proc i msg ruleId now) [.user1] st).log.num := by
  rw [alfPrioLoop]
  cases hd : (peAlfEvaluate db proc .user1 msg st.ruleId now).decision with
  | none => simp [alfPrioLoop]
  | some d =>
    simp only [ne_eq, reduceCtorEq, not_false_eq_true, if_true]
    split
    · exact Log.le_raise _ _
    · exact Log.le_raise _ _

theorem alfUser_decides {st : AlfState} (h : st.decision ≠ none) :
    (alfPrioLoop (fun i ruleId => peAlfEvaluate db proc i msg ruleId now) [.user1] st).decision ≠ none := by
  rw [alfPrioLoop]
  cases hd : (peAlfEvaluate db proc .user1 msg st.ruleId now).decision with
  | none => simpa [alfPrioLoop] using h
  | some d =>
    simp only [ne_eq, reduceCtorEq, not_false_eq_true, if_true]
    split
    · simp
    · simp [alfPrioLoop]

/-- Without a user ruleset the admin ruleset decides alone. -/
theorem peDecideAlf_alone : peDecideAlf (adminDb db) (proc.map adminProc) msg now =
    alfReply (proc.map adminProc) (adminAlf db proc msg now) := by
  have hadmin : adminAlf (adminDb db) (proc.map adminProc) msg now = adminAlf db proc msg now := by
    rw [adminAlf, adminAlf, (sameAdmin_alone db proc).alfEvaluate_eq]
  have huser : ∀ ruleId, peAlfEvaluate (adminDb db) (proc.map adminProc) .user1 msg ruleId now =
      ⟨none, .none, ruleId⟩ := by
    intro ruleId
    have hb : alfBlock (adminDb db) (proc.map adminProc) .user1 msg = none := by
      rw [alfBlock, peProcGetContext_user, peUserGetRuleset_user]
      split <;> rfl
    rw [peAlfEvaluate, hb]
  rw [peDecideAlf_eq, hadmin]
  split
  · rfl
  · simp [alfPrioLoop, huser]

end Alf

/-- ALF: a deny of the admin ruleset stands. -/
theorem alf_admin_deny {db db' : PolicyDb} {proc proc' : Option Proc}
    (h : SameAdmin db db' proc proc') (msg : AlfEvent) (now : ℕ)
    (hd : AdminDenies (peDecideAlf (adminDb db) (proc.map adminProc) msg now)) :
    SameDeny (peDecideAlf (adminDb db) (proc.map adminProc) msg now) (peDecideAlf db' proc' msg now) := by
  rw [peDecideAlf_alone] at hd ⊢
  have hadmin : adminAlf db' proc' msg now = adminAlf db proc msg now := by
    rw [adminAlf, adminAlf, h.alfEvaluate_eq]
  rw [peDecideAlf_eq, hadmin]
  obtain ⟨hrep, hprio⟩ := hd
  rw [alfReply] at hrep hprio
  cases hdec : (adminAlf db proc msg now).decision with
  | none =>
    -- nothing was decided, so no rule of the admin is named
    rw [hdec] at hprio
    rw [adminAlf] at hdec hprio
    split at hdec
    · rename_i hne
      exact absurd hdec hne
    · rename_i hne
      simp [hne, decisionReply] at hprio
  | some d =>
    rw [hdec] at hrep
    obtain rfl := reply_decisionReply.mp hrep
    rw [if_pos rfl, alfReply, alfReply, hdec]
    exact sameDeny_decisionReply _ _ _ _ _ _ _ _

/-- ALF: the log level of the admin ruleset is a lower bound. -/
theorem alf_admin_log {db db' : PolicyDb} {proc proc' : Option Proc}
    (h : SameAdmin db db' proc proc') (msg : AlfEvent) (now : ℕ)
    (hp : (peDecideAlf (adminDb db) (proc.map adminProc) msg now).prio = some .admin) :
    (peDecideAlf (adminDb db) (proc.map adminProc) msg now).log.num ≤ (peDecideAlf db' proc' msg now).log.num := by
  rw [peDecideAlf_alone] at hp ⊢
  have hadmin : adminAlf db' proc' msg now = adminAlf db proc msg now := by
    rw [adminAlf, adminAlf, h.alfEvaluate_eq]
  rw [peDecideAlf_eq, hadmin]
  have hdec : (adminAlf db proc msg now).decision ≠ none := by
    intro hnone
    rw [alfReply, hnone] at hp
    rw [adminAlf] at hnone hp
    split at hnone
    · rename_i hne
      exact hne hnone
    · rename_i hne
      simp [hne, decisionReply] at hp
  have hlog : ∀ (p : Option Proc) (st : AlfState), st.decision ≠ none → (alfReply p st).log = st.log := by
    intro p st hne
    rw [alfReply]
    cases hst : st.decision with
    | none => exact absurd hst hne
    | some d => rfl
  rw [hlog _ _ hdec]
  split
  · rw [hlog _ _ hdec]
  · rw [hlog _ _ (alfUser_decides db' proc' msg now hdec)]
    exact alfUser_log db' proc' msg now _

/-! ### SFS -/

section Sfs

variable (hash : Text → ℕ) (w : World)

theorem sfsRules_log (ev : FileEvent) (now : ℕ) (i : Prio) (rules : List Rule) :
    ∀ st : SfsState, st.log.num ≤ (sfsRules w ev now i st rules).log.num := by
  induction rules with
  | nil => intro st; exact le_rfl
  | cons r rules ih =>
    intro st
    rw [sfsRules]
    cases peSfsMatchOne w ev now r with
    | none => exact ih st
    | some dm =>
      dsimp only
      have hle := Log.le_raise st.log dm.1.log
      split
      · exact hle.trans (ih { st with log := st.log.raise dm.1.log })
      · exact hle

theorem sfsLoop_log (nosfs : Prio → Bool) (cands : Prio → Except ℕ (List Rule)) (ev : FileEvent)
    (now : ℕ) (is : List Prio) :
    ∀ st : SfsState, st.log.num ≤ (sfsLoop w nosfs cands ev now is st).log.num := by
  induction is with
  | nil => intro st; exact le_rfl
  | cons i is ih =>
    intro st
    rw [sfsLoop]
    split
    · exact ih st
    · cases cands i with
      | error e => exact le_rfl
      | ok rules =>
        dsimp only
        have hle := sfsRules_log w ev now i rules st
        split
        · exact hle
        · exact hle.trans (ih _)

/-- The state of `pe_decide_sfs` behind the admin priority. -/
def adminSfs (db : PolicyDb) (proc : Option Proc) (ev : FileEvent) (now : ℕ) : SfsState :=
  sfsLoop w (isNosfs proc) (fun i => peSfsGetrules hash db ev.uid i ev.path) ev now [.admin]
    SfsState.init

theorem sfsLoop_one (nosfs : Prio → Bool) (cands : Prio → Except ℕ (List Rule)) (ev : FileEvent)
    (now : ℕ) (i : Prio) (st : SfsState) : sfsLoop w nosfs cands ev now [i] st =
      if nosfs i then st
      else match cands i with
        | .error _ => { st with decision := some .deny }
        | .ok rules => sfsRules w ev now i st rules := by
  rw [sfsLoop]
  split
  · rfl
  · cases cands i with
    | error e => rfl
    | ok rules => simp [sfsLoop]

/-- The priorities after the first one run if it has not stopped the search. -/
theorem sfsLoop_cons (nosfs : Prio → Bool) (cands : Prio → Except ℕ (List Rule)) (ev : FileEvent)
    (now : ℕ) (i : Prio) (is : List Prio) {st : SfsState} (hst : st.decision = none) :
    sfsLoop w nosfs cands ev now (i :: is) st =
      if (sfsLoop w nosfs cands ev now [i] st).decision ≠ none ∧
        (sfsLoop w nosfs cands ev now [i] st).decision ≠ some .allow then
        sfsLoop w nosfs cands ev now [i] st
      else sfsLoop w nosfs cands ev now is (sfsLoop w nosfs cands ev now [i] st) := by
  rw [sfsLoop_one, sfsLoop]
  split
  · rw [if_neg (by simp [hst])]
  · cases cands i with
    | error e => simp
    | ok rules => rfl

theorem sfsReply_eq (db : PolicyDb) (proc : Option Proc) (ev : FileEvent) (now : ℕ) :
    ∃ st : SfsState, (adminSfs hash w db proc ev now).log.num ≤ st.log.num ∧
      ((adminSfs hash w db proc ev now).decision = some .deny → st = adminSfs hash w db proc ev now) ∧
      peDecideSfs hash w db proc ev now =
        decisionReply proc (st.decision.getD .allow) st.log st.ruleId (some st.prio) st.sfsmatch := by
  refine ⟨_, ?_, ?_, rfl⟩
  · rw [Prio.all, sfsLoop_cons w _ _ ev now _ _ rfl]
    split
    · exact le_rfl
    · exact sfsLoop_log w _ _ ev now _ _
  · intro hdeny
    rw [Prio.all, sfsLoop_cons w _ _ ev now _ _ rfl]
    refine if_pos ?_
    rw [adminSfs] at hdeny
    simp [hdeny]

theorem adminSfs_eq {db db' : PolicyDb} {proc proc' : Option Proc} (h : SameAdmin db db' proc proc')
    (ev : FileEvent) (now : ℕ) : adminSfs hash w db proc ev now = adminSfs hash w db' proc' ev now := by
  rw [adminSfs, adminSfs, sfsLoop_one, sfsLoop_one, h.nosfs, h.sfsGetrules_eq]

/-- Without a user ruleset the admin ruleset decides alone. -/
theorem peDecideSfs_alone (db : PolicyDb) (proc : Option Proc) (ev : FileEvent) (now : ℕ) :
    peDecideSfs hash w (adminDb db) (proc.map adminProc) ev now =
      decisionReply (proc.map adminProc) ((adminSfs hash w db proc ev now).decision.getD .allow)
        (adminSfs hash w db proc ev now).log (adminSfs hash w db proc ev now).ruleId
        (some (adminSfs hash w db proc ev now).prio) (adminSfs hash w db proc ev now).sfsmatch := by
  have hadmin := adminSfs_eq hash w (sameAdmin_alone db proc) ev now
  have huser : ∀ st, sfsLoop w (isNosfs (proc.map adminProc))
      (fun i => peSfsGetrules hash (adminDb db) ev.uid i ev.path) ev now [.user1] st = st := by
    intro st
    have hn : isNosfs (proc.map adminProc) .user1 = false := by
      rw [isNosfs, peProcGetContext_user]
      simp
    rw [sfsLoop_one, hn, peSfsGetrules, peUserGetRuleset_user]
    rfl
  have hst : sfsLoop w (isNosfs (proc.map adminProc))
      (fun i => peSfsGetrules hash (adminDb db) ev.uid i ev.path) ev now Prio.all SfsState.init =
      adminSfs hash w db proc ev now := by
    rw [Prio.all, sfsLoop_cons w _ _ ev now _ _ rfl, huser, ← hadmin]
    split <;> rfl
  rw [peDecideSfs, hst]

variable {db db' : PolicyDb} {proc proc' : Option Proc}

/-- SFS: a deny of the admin ruleset stands. -/
theorem sfs_admin_deny (h : SameAdmin db db' proc proc') (ev : FileEvent) (now : ℕ)
    (hd : AdminDenies (peDecideSfs hash w (adminDb db) (proc.map adminProc) ev now)) :
    SameDeny (peDecideSfs hash w (adminDb db) (proc.map adminProc) ev now) (peDecideSfs hash w db' proc' ev now) := by
  obtain ⟨st, -, hst, heq⟩ := sfsReply_eq hash w db' proc' ev now
  rw [← adminSfs_eq hash w h] at hst
  rw [heq, peDecideSfs_alone]
  have hdeny : (adminSfs hash w db proc ev now).decision = some .deny := by
    have hrep := hd.1
    rw [peDecideSfs_alone, reply_decisionReply] at hrep
    cases hdec : (adminSfs hash w db proc ev now).decision with
    | none => simp [hdec] at hrep
    | some d => simpa [hdec] using hrep
  rw [hst hdeny, hdeny]
  exact sameDeny_decisionReply _ _ _ _ _ _ _ _

/-- SFS: the log level of the admin ruleset is a lower bound. -/
theorem sfs_admin_log (h : SameAdmin db db' proc proc') (ev : FileEvent) (now : ℕ) :
    (peDecideSfs hash w (adminDb db) (proc.map adminProc) ev now).log.num ≤
      (peDecideSfs hash w db' proc' ev now).log.num := by
  obtain ⟨st, hlog, -, heq⟩ := sfsReply_eq hash w db' proc' ev now
  rw [← adminSfs_eq hash w h] at hlog
  rw [heq, peDecideSfs_alone]
  exact hlog

end Sfs

/-! ### Sandbox -/

section Sandbox

variable (hash : Text → ℕ) (w : World)

/-- Only default and access rules are ever a match. -/
theorem sbMatch_body (ev : FileEvent) (now atype : ℕ) (rules : List Rule) :
    ∀ (m : Option Rule) (r : Rule), (∀ x, m = some x → ∃ d, x.body = .default d) →
      sbMatch w ev now atype m rules = some r →
      (∃ d, r.body = .default d) ∨ ∃ path cs amask log action, r.body = .sbAccess path cs amask log action := by
  induction rules with
  | nil => intro m r hm h; exact .inl (hm r h)
  | cons x rules ih =>
    intro m r hm h
    rw [sbMatch] at h
    cases hb : x.body with
    | default d =>
      simp only [hb] at h
      refine ih _ r (fun y hy => ?_) h
      cases m with
      | none =>
        cases hy
        exact ⟨d, hb⟩
      | some z => exact hm y hy
    | sbAccess path cs amask log action =>
      simp only [hb] at h
      split at h
      · exact ih m r hm h
      · split at h
        · cases h
          exact .inr ⟨path, cs, amask, log, action, hb⟩
        · exact ih m r hm h
    | _ =>
      simp only [hb] at h
      exact ih m r hm h

theorem peSbEvaluate_log (rules : List Rule) (ev : FileEvent) (now : ℕ) (res : Result) (atype : ℕ)
    (prio : Prio) : res.log.num ≤ (peSbEvaluate w rules ev now res atype prio).log.num := by
  rw [peSbEvaluate]
  split
  · exact le_rfl
  · cases hm : sbMatch w ev now atype none rules with
    | none => exact le_rfl
    | some r =>
      have hle := fun l => Log.le_raise res.log l
      rcases sbMatch_body w ev now atype rules none r (by simp) hm with
        ⟨d, hb⟩ | ⟨path, cs, amask, log, action, hb⟩
      · simpa [applyMatch, hb] using hle d.log
      · simpa [applyMatch, hb] using hle log

theorem maxLog_mono {res res' : Results} (h : ∀ m, (res.get m).log.num ≤ (res'.get m).log.num) :
    (maxLog res).num ≤ (maxLog res').num :=
  Log.raise_mono (Log.raise_mono (Log.raise_mono le_rfl (h .read)) (h .write)) (h .exec)

theorem evaluateAll_log (rules : List Rule) (ev : FileEvent) (now : ℕ) (res : Results) (i : Prio) :
    (maxLog res).num ≤ (maxLog (evaluateAll w rules ev now res i)).num := by
  refine maxLog_mono fun m => ?_
  rw [get_evaluateAll]
  exact peSbEvaluate_log w rules ev now _ _ i

/-- The log level of an outcome of the loop. -/
def sbLog (x : Results × Option Action) : Log := if x.2 = none then .none else maxLog x.1

theorem log_sbReply (proc : Option Proc) (x : Results × Option Action) : (sbReply proc x).log = sbLog x := by
  obtain ⟨res, final⟩ := x
  cases final <;> rfl

/-- The remaining priorities keep a verdict and raise the log level. -/
theorem sbLoop_log (cands : Prio → Except ℕ (List Rule)) (ev : FileEvent) (now : ℕ) (is : List Prio) :
    ∀ (res : Results) (final : Option Action), final ≠ none → (sbLoop w cands ev now is res final).2 ≠ none ∧
        (maxLog res).num ≤ (maxLog (sbLoop w cands ev now is res final).1).num := by
  induction is with
  | nil => intro res final h; exact ⟨h, le_rfl⟩
  | cons i is ih =>
    intro res final h
    rw [sbLoop]
    cases cands i with
    | error e => exact ⟨by simp, le_rfl⟩
    | ok rules =>
      dsimp only
      split
      · exact ih res final h
      · have hle := evaluateAll_log w rules ev now res i
        split
        · rename_i hstop
          exact ⟨hstop.1, hle⟩
        · have hmerge : mergeDecisions final (evaluateAll w rules ev now res i).decisions ≠ none := by
            obtain ⟨d, rfl⟩ := ne_none_iff_exists'.mp h
            by_cases hd : d = .deny
            · subst hd
              intro hc
              simp only [Results.decisions, mergeDecisions] at hc
              split_ifs at hc
            · rw [mergeDecisions_eq _ d hd]
              simp
          obtain ⟨h1, h2⟩ := ih _ _ hmerge
          exact ⟨h1, hle.trans h2⟩

/-- The outcome of the loop of `pe_decide_sandbox` behind the admin priority. -/
def adminSb (db : PolicyDb) (proc : Option Proc) (ev : FileEvent) (now : ℕ) : Results × Option Action :=
  sbLoop w (fun i => peSbGetrules hash db proc ev.uid i ev.path) ev now [.admin] Results.init none

theorem sbLoop_one (cands : Prio → Except ℕ (List Rule)) (ev : FileEvent) (now : ℕ) (i : Prio)
    (res : Results) (final : Option Action) : sbLoop w cands ev now [i] res final =
      match cands i with
      | .error _ => (res, some .deny)
      | .ok rules =>
        if rules.isEmpty then (res, final)
        else (evaluateAll w rules ev now res i,
          mergeDecisions final (evaluateAll w rules ev now res i).decisions) := by
  rw [sbLoop]
  cases cands i with
  | error e => rfl
  | ok rules => simp [sbLoop]

/-- The priorities after the first one run if it has not stopped the search. -/
theorem sbLoop_cons (cands : Prio → Except ℕ (List Rule)) (ev : FileEvent) (now : ℕ) (i : Prio)
    (is : List Prio) (res : Results) : sbLoop w cands ev now (i :: is) res none =
      if (sbLoop w cands ev now [i] res none).2 ≠ none ∧
        (sbLoop w cands ev now [i] res none).2 ≠ some .allow then sbLoop w cands ev now [i] res none
      else sbLoop w cands ev now is (sbLoop w cands ev now [i] res none).1
        (sbLoop w cands ev now [i] res none).2 := by
  rw [sbLoop_one, sbLoop]
  cases cands i with
  | error e => simp
  | ok rules =>
    dsimp only
    split
    · simp
    · rfl

theorem adminSb_eq {db db' : PolicyDb} {proc proc' : Option Proc} (h : SameAdmin db db' proc proc')
    (ev : FileEvent) (now : ℕ) : adminSb hash w db proc ev now = adminSb hash w db' proc' ev now := by
  rw [adminSb, adminSb, sbLoop_one, sbLoop_one, h.sbGetrules_eq]

/-- Without a user ruleset the admin ruleset decides alone. -/
theorem peDecideSandbox_alone (db : PolicyDb) (proc : Option Proc) (ev : FileEvent) (now : ℕ) :
    peDecideSandbox hash w (adminDb db) (proc.map adminProc) ev now =
      sbReply (proc.map adminProc) (adminSb hash w db proc ev now) := by
  have hadmin := adminSb_eq hash w (sameAdmin_alone db proc) ev now
  have huser : ∀ res final, sbLoop w
      (fun i => peSbGetrules hash (adminDb db) (proc.map adminProc) ev.uid i ev.path) ev now [.user1]
      res final = (res, final) := by
    intro res final
    have hb : sbBlock (adminDb db) (proc.map adminProc) ev.uid .user1 = none := by
      rw [sbBlock, peProcGetContext_user, peUserGetRuleset_user]
      split <;> rfl
    rw [sbLoop_one, peSbGetrules, hb]
    rfl
  rw [peDecideSandbox, Prio.all, sbLoop_cons, huser, ← hadmin]
  split <;> rfl

variable {db db' : PolicyDb} {proc proc' : Option Proc}

/-- Sandbox: a deny of the admin ruleset stands. -/
theorem sandbox_admin_deny (h : SameAdmin db db' proc proc') (ev : FileEvent) (now : ℕ)
    (hd : AdminDenies (peDecideSandbox hash w (adminDb db) (proc.map adminProc) ev now)) :
    SameDeny (peDecideSandbox hash w (adminDb db) (proc.map adminProc) ev now)
      (peDecideSandbox hash w db' proc' ev now) := by
  have hadmin := adminSb_eq hash w h ev now
  have hrep := hd.1
  rw [peDecideSandbox_alone] at hrep ⊢
  have hdeny : (adminSb hash w db proc ev now).2 = some .deny := by
    cases hf : adminSb hash w db proc ev now with
    | mk res final =>
      rw [hf] at hrep
      cases final with
      | none => simp [sbReply, decisionReply, eperm] at hrep
      | some d => rw [reply_decisionReply.mp hrep]
  have hfull : peDecideSandbox hash w db' proc' ev now = sbReply proc' (adminSb hash w db proc ev now) := by
    rw [peDecideSandbox, Prio.all, sbLoop_cons, hadmin]
    rw [hadmin, adminSb] at hdeny
    rw [if_pos (by simp [hdeny]), adminSb]
  rw [hfull]
  generalize adminSb hash w db proc ev now = x at hdeny
  obtain ⟨res, final⟩ := x
  obtain rfl : final = some .deny := hdeny
  exact sameDeny_decisionReply _ _ _ _ _ _ _ _

/-- Sandbox: the log level of the admin ruleset is a lower bound. -/
theorem sandbox_admin_log (h : SameAdmin db db' proc proc') (ev : FileEvent) (now : ℕ) :
    (peDecideSandbox hash w (adminDb db) (proc.map adminProc) ev now).log.num ≤
      (peDecideSandbox hash w db' proc' ev now).log.num := by
  rw [peDecideSandbox_alone, adminSb_eq hash w h, peDecideSandbox, Prio.all, sbLoop_cons, log_sbReply,
    log_sbReply, ← adminSb]
  split
  · exact le_rfl
  · by_cases hnone : (adminSb hash w db' proc' ev now).2 = none
    · rw [sbLog, if_pos hnone]
      exact Nat.zero_le _
    · obtain ⟨h1, h2⟩ := sbLoop_log w (fun i => peSbGetrules hash db' proc' ev.uid i ev.path) ev now
        [.user1] (adminSb hash w db' proc' ev now).1 (adminSb hash w db' proc' ev now).2 hnone
      rw [sbLog, sbLog, if_neg hnone, if_neg h1]
      exact h2

end Sandbox

/-! ### The user cannot weaken the admin -/

/-- For two systems that differ in the user's side only, with any admin rulesets: an event that the
    admin ruleset alone denies is denied in both under the same rule and priority, and both log at
    least at the level that the admin ruleset alone asks for. ALF denies an event that no rule decides;
    such a reply carries no priority and is not the admin's. -/
theorem admin_verdict_stands (hash : Text → ℕ) (w : World) {db db' : PolicyDb}
    {proc proc' : Option Proc} (h : SameAdmin db db' proc proc') (now : ℕ) :
    (∀ msg, AdminDenies (peDecideAlf (adminDb db) (proc.map adminProc) msg now) →
      SameDeny (peDecideAlf (adminDb db) (proc.map adminProc) msg now) (peDecideAlf db proc msg now) ∧
      SameDeny (peDecideAlf (adminDb db) (proc.map adminProc) msg now)
        (peDecideAlf db' proc' msg now)) ∧
    (∀ ev, AdminDenies (peDecideSfs hash w (adminDb db) (proc.map adminProc) ev now) →
      SameDeny (peDecideSfs hash w (adminDb db) (proc.map adminProc) ev now)
        (peDecideSfs hash w db proc ev now) ∧
      SameDeny (peDecideSfs hash w (adminDb db) (proc.map adminProc) ev now)
        (peDecideSfs hash w db' proc' ev now)) ∧
    (∀ ev, AdminDenies (peDecideSandbox hash w (adminDb db) (proc.map adminProc) ev now) →
      SameDeny (peDecideSandbox hash w (adminDb db) (proc.map adminProc) ev now)
        (peDecideSandbox hash w db proc ev now) ∧
      SameDeny (peDecideSandbox hash w (adminDb db) (proc.map adminProc) ev now)
        (peDecideSandbox hash w db' proc' ev now)) ∧
    (∀ msg, (peDecideAlf (adminDb db) (proc.map adminProc) msg now).prio = some .admin →
      (peDecideAlf (adminDb db) (proc.map adminProc) msg now).log.num ≤
        (peDecideAlf db' proc' msg now).log.num) ∧
    (∀ ev, (peDecideSfs hash w (adminDb db) (proc.map adminProc) ev now).log.num ≤
      (peDecideSfs hash w db' proc' ev now).log.num) ∧
    ∀ ev, (peDecideSandbox hash w (adminDb db) (proc.map adminProc) ev now).log.num ≤
      (peDecideSandbox hash w db' proc' ev now).log.num := by
  have hself : SameAdmin db db proc proc := ⟨fun _ => rfl, rfl⟩
  refine ⟨fun msg hd => ⟨?_, ?_⟩, fun ev hd => ⟨?_, ?_⟩, fun ev hd => ⟨?_, ?_⟩, fun msg hp => ?_,
    fun ev => ?_, fun ev => ?_⟩
  · exact alf_admin_deny hself msg now hd
  · exact alf_admin_deny h msg now hd
  · exact sfs_admin_deny hash w hself ev now hd
  · exact sfs_admin_deny hash w h ev now hd
  · exact sandbox_admin_deny hash w hself ev now hd
  · exact sandbox_admin_deny hash w h ev now hd
  · exact alf_admin_log h msg now hp
  · exact sfs_admin_log hash w h ev now
  · exact sandbox_admin_log hash w h ev now

/-! The admin denies every connection of user 1000, who then installs a ruleset that allows all. -/

/-- A ruleset whose only rule is an ALF default rule. -/
def alfDefaultRs (ptr : ℕ) (a : Action) (log : Log) : Ruleset :=
  { ptr := ptr, flags := 0, version := 0, maxid := 2, idtree := [⟨1, 2⟩, ⟨2, 3⟩],
    alfQueue := [⟨2, 1, .alf, [], Flags.none, [⟨3, 2, none, .default ⟨a, log⟩⟩]⟩], sfsQueue := [],
    sbQueue := [], ctxQueue := [] }

def guardedDb : PolicyDb := [⟨1000, ⟨some (alfDefaultRs 1 .deny .alert), none⟩⟩]

def guardedDb' : PolicyDb := insertRs (alfDefaultRs 5 .allow .none) 1000 .user1 guardedDb

theorem admin_verdict_stands_allow_all :
    SameDeny (peDecideAlf (adminDb guardedDb) none demoMsg 0) (peDecideAlf guardedDb' none demoMsg 0) := by
  have hsame : SameAdmin guardedDb guardedDb' none none := by
    refine ⟨fun uid => ?_, rfl⟩
    rw [peUserGetRuleset, peUserGetRuleset, guardedDb', storedRuleset_insertRs, storedRuleset_insertRs,
      if_neg (by simp), if_neg (by simp)]
  have hdeny : AdminDenies (peDecideAlf (adminDb guardedDb) none demoMsg 0) := ⟨rfl, rfl⟩
  exact ((admin_verdict_stands hashFn demoWorld hsame 0).1 demoMsg hdeny).2

end Anoubis.Pe

import Anoubis.Pe.RefsCount

/-! The reference counts of processes and contexts: context switches and lookups.

    Every function of `pe_context.c` returns all references that it takes, and changes the process as
    its counterpart on values does. -/

namespace Anoubis.Pe.Refs

open Anoubis.Apn Anoubis.Lib Option

variable {db : PolicyDb} {tr : List ℕ} {pr cr : Multiset ℕ} {v : ℕ → Proc} {a : ℕ}

/-! ### Switching -/

theorem readDb_spec : Does (Acc db tr pr cr v) readDb (fun d st => d = db ∧ Acc db tr pr cr v st) :=
  fun st h => ⟨st.db, st, rfl, h.db, h⟩

variable (w : World)

theorem peContextSearch_spec (ha : a ∈ liveProcs tr pr) (rs : Ruleset) (pident : Ident) (uid : ℕ) :
    Does (Acc db tr pr cr v) (peContextSearch w a rs pident uid) (fun c st => Acc db tr pr (c ::ₘ cr) v st ∧
        SlotRep st.ctxs (some c) (some (Pe.peContextSearch w rs pident uid ((v a).pgid ≠ 0)))) := by
  refine (readProc_spec ha).bind fun p => ?_
  rintro st ⟨h, hp, hr⟩
  rw [hr.pgid]
  exact peContextAlloc_spec _ st h

theorem peContextSwitch_spec (ha : a ∈ liveProcs tr pr) (prio : Prio) (pident : Ident) (uid : ℕ) :
    Does (Acc db tr pr cr v) (peContextSwitch w a prio pident uid)
      (fun _ => Acc db tr pr cr (modV v a (fun p => Pe.peContextSwitch w db p prio pident uid))) := by
  refine readDb_spec.bind fun d => Does.pull fun hd => ?_
  subst hd
  cases hrs : peUserGetRuleset uid prio d with
  | none =>
    simp only [Pe.peContextSwitch, hrs]
    exact peContextNorules_spec ha prio
  | some rs =>
    simp only [Pe.peContextSwitch, hrs]
    exact assign_spec ha prio (peContextSearch_spec w ha rs pident uid)

/-- The decision depends on the user and the context of the priority only. -/
theorem peContextDecide_congr {p q : Proc} {prio : Prio}
    (hc : p.context.get prio = q.context.get prio) (hu : p.uid = q.uid) (type : CtxType) (pident : Ident)
    (uid : ℕ) : Pe.peContextDecide w p type prio pident uid = Pe.peContextDecide w q type prio pident uid := by
  rw [Pe.peContextDecide, Pe.peContextDecide, hc, hu]

theorem peContextDecide_run {st : Store} (h : Acc db tr pr cr v st)
    (ha : a ∈ liveProcs tr pr) (type : CtxType) (prio : Prio) (pident : Ident) (uid : ℕ) :
    (peContextDecide w a type prio pident uid).run st =
      some (Pe.peContextDecide w (v a) type prio pident uid, st) := by
  obtain ⟨p, -, hp, hr⟩ := h.shows ha
  rw [peContextDecide, run_bind (readProc_run hp)]
  cases hslot : p.context.get prio with
  | none =>
    have hc : (p.view prio none).context.get prio = (v a).context.get prio := by
      rw [(hr.context prio).none_eq hslot, HProc.view, ByPrio.get_set_self]
    rw [← peContextDecide_congr w hc hr.uid]
    rfl
  | some c =>
    obtain ⟨x, hv, hx⟩ := (hr.context prio).exists_eq hslot
    have hc : (p.view prio (some x)).context.get prio = (v a).context.get prio := by
      rw [hv, HProc.view, ByPrio.get_set_self]
    simp only
    rw [run_bind (readCtx_run hx), ← peContextDecide_congr w hc hr.uid]
    rfl

theorem peContextDecide_spec (ha : a ∈ liveProcs tr pr) (type : CtxType) (prio : Prio)
    (pident : Ident) (uid : ℕ) : Does (Acc db tr pr cr v) (peContextDecide w a type prio pident uid)
      (fun b st => b = Pe.peContextDecide w (v a) type prio pident uid ∧ Acc db tr pr cr v st) :=
  fun st h => ⟨_, st, peContextDecide_run w h ha type prio pident uid, rfl, h⟩

theorem dropSaved_shows (ha : a ∈ liveProcs tr pr) {prio : Prio} {p : HProc} {ctx : ℕ}
    (hctx : p.savedCtx.get prio = some ctx) : Does (Shows db tr pr cr v a p) (dropSaved a prio ctx)
      (fun _ => Acc db tr pr cr (modV v a (fun p => p.setSaved prio none))) :=
  (dropSaved_spec ha prio ctx).pre fun _ hs => ⟨p, hs, hctx⟩

theorem peProcDropSavedCtx_spec (ha : a ∈ liveProcs tr pr) (prio : Prio) :
    Does (Acc db tr pr cr v) (peProcDropSavedCtx a prio)
      (fun _ => Acc db tr pr cr (modV v a (fun p => p.setSaved prio none))) := by
  refine (readProc_spec ha).bind fun p => ?_
  cases hslot : p.savedCtx.get prio with
  | none =>
    refine Does.pure ?_
    rintro st ⟨h, hp, hr⟩
    rw [modV_eq_self]
    · exact h
    · rw [← (hr.savedCtx prio).none_eq hslot, setSaved_self]
  | some ctx => exact dropSaved_shows ha hslot

/-- Two changes of one process in a row. -/
theorem Does.modV_bind {α : Type} {P : Store → Prop} {m : M Unit} {n : Unit → M α} {f g : Proc → Proc}
    {Q : α → Store → Prop} (hm : Does P m (fun _ => Acc db tr pr cr (modV v a f)))
    (hn : Does (Acc db tr pr cr (modV v a f)) (n ()) (fun _ => Acc db tr pr cr (modV (modV v a f) a g)))
    (hq : ∀ x st, Acc db tr pr cr (modV v a (fun p => g (f p))) st → Q x st) : Does P (m >>= n) Q := by
  refine hm.bind fun _ => hn.post fun x st h => hq x st ?_
  rwa [modV_modV] at h

theorem execPrio_spec (ha : a ∈ liveProcs tr pr) (uid : ℕ) (pident : Ident) (prio : Prio) :
    Does (Acc db tr pr cr v) (execPrio w a uid pident prio)
      (fun _ => Acc db tr pr cr (modV v a (fun p => Pe.execPrio w db uid pident p prio))) := by
  refine (peContextDecide_spec w ha .new prio pident uid).bind fun ok => Does.pull fun hok => ?_
  subst hok
  refine Does.ite (fun hd => ?_) (fun hd => Does.pure fun st h => ?_)
  · refine Does.modV_bind (peContextSwitch_spec w ha prio pident uid) (peProcDropSavedCtx_spec ha prio) ?_
    intro _ st h
    rw [modV] at h ⊢
    rw [Pe.execPrio, if_pos hd]
    exact h
  · rw [modV_eq_self]
    · exact h
    · rw [Pe.execPrio, if_neg hd]

/-- The loop over both priorities. -/
theorem forPrio_spec {f : Prio → M Unit} {F : Prio → Proc → Proc}
    (h : ∀ prio v, Does (Acc db tr pr cr v) (f prio) (fun _ => Acc db tr pr cr (modV v a (F prio)))) :
    Does (Acc db tr pr cr v) (forPrio f) (fun _ => Acc db tr pr cr (modV v a (fun p => F .user1 (F .admin p)))) :=
  Does.modV_bind (h .admin v) (h .user1 _) fun _ _ hs => hs

/-- Read a process, change it and write it back; the contexts stay in the process. -/
theorem modify_spec (ha : a ∈ liveProcs tr pr) {f : HProc → HProc} {g : Proc → Proc}
    (hs : ∀ p, (f p).slots = p.slots) (hr : ∀ ctxs p, Rep ctxs p (v a) → Rep ctxs (f p) (g (v a))) :
    Does (Acc db tr pr cr v) (do
        let p ← readProc a
        writeProc a (f p))
      (fun _ => Acc db tr pr cr (modV v a g)) :=
  (readProc_spec ha).bind fun p => writeProc_spec ha (hs p) (fun ctxs => hr ctxs p)

/-- `if (uid != (uid_t)-1) pe_proc_set_uid(proc, uid);`. -/
def setUid (uid : ℕ) (p : Proc) : Proc := if uid ≠ uidDefault then { p with uid := uid } else p

theorem rep_setUid (uid : ℕ) (ctxs : Cells Ctx) (p : HProc) (w : Proc) (h : Rep ctxs p w) :
    Rep ctxs { p with uid := if uid ≠ uidDefault then uid else p.uid } (setUid uid w) := by
  rw [setUid]
  by_cases hu : uid ≠ uidDefault
  · rw [if_pos hu, if_pos hu]
    exact { h with uid := rfl }
  · rw [if_neg hu, if_neg hu]
    exact h

theorem peContextExec_spec (ha : a ∈ liveProcs tr pr) (uid : ℕ) (pident : Ident) :
    Does (Acc db tr pr cr v) (peContextExec w a uid pident)
      (fun _ => Acc db tr pr cr (modV v a (fun p => Pe.peContextExec w db p uid pident))) :=
  Does.modV_bind (forPrio_spec fun prio _ => execPrio_spec w ha uid pident prio)
    (modify_spec (g := setUid uid) ha (fun _ => rfl) fun ctxs p => rep_setUid uid ctxs p _)
    fun _ _ h => h

theorem openPrio_spec (ha : a ∈ liveProcs tr pr) (msgUid : ℕ) (pident : Ident) (prio : Prio) :
    Does (Acc db tr pr cr v) (openPrio w a msgUid pident prio)
      (fun _ => Acc db tr pr cr (modV v a (fun p => Pe.openPrio w db msgUid pident p prio))) := by
  refine (readProc_spec ha).bind fun p => ?_
  rintro st ⟨h, -, hr⟩
  rw [hr.uid]
  refine Does.bind (peContextDecide_spec w ha .openFile prio pident (v a).uid)
    (fun ok => Does.pull fun hok => ?_) st h
  subst hok
  refine Does.ite (fun hd => ?_) (fun hd => Does.pure fun st h => ?_)
  · refine (peContextSwitch_spec w ha prio pident msgUid).post fun _ st h => ?_
    rw [modV] at h ⊢
    rw [Pe.openPrio, if_pos hd]
    exact h
  · rw [modV_eq_self]
    · exact h
    · rw [Pe.openPrio, if_neg hd]

theorem peContextOpen_spec (ha : a ∈ liveProcs tr pr) (msgUid : ℕ) (pident : Ident) :
    Does (Acc db tr pr cr v) (peContextOpen w a msgUid pident)
      (fun _ => Acc db tr pr cr (modV v a (fun p => Pe.peContextOpen w db p msgUid pident))) :=
  forPrio_spec fun prio _ => openPrio_spec w ha msgUid pident prio

/-! ### Refreshing -/

theorem identOf_spec (prio : Prio) (p : HProc) : Does (Shows db tr pr cr v a p) (identOf a (p.context.get prio))
      (fun i st => i = (((v a).context.get prio).map (·.ident)).getD (v a).ident ∧ Acc db tr pr cr v st) := by
  rintro st ⟨h, hp, hr⟩
  cases hslot : p.context.get prio with
  | none =>
    refine ⟨p.ident, st, ?_, ?_, h⟩
    · rw [identOf, run_bind (readProc_run hp)]
      rfl
    · rw [(hr.context prio).none_eq hslot, hr.ident]
      rfl
  | some c =>
    obtain ⟨x, hv, hx⟩ := (hr.context prio).exists_eq hslot
    refine ⟨x.ident, st, ?_, ?_, h⟩
    · rw [identOf, run_bind (readCtx_run hx)]
      rfl
    · rw [hv]
      rfl

/-- The second half of `pe_context_refresh`, on values. -/
def refreshSavedV (w : World) (rs : Ruleset) (prio : Prio) (p : Proc) : Proc :=
  match p.savedCtx.get prio with
  | none => p
  | some c => p.setSaved prio (some (Pe.peContextSearch w rs c.ident p.uid (p.pgid ≠ 0)))

theorem refreshSaved_spec (ha : a ∈ liveProcs tr pr) (prio : Prio) (rs : Ruleset) :
    Does (Acc db tr pr cr v) (refreshSaved w a prio rs)
      (fun _ => Acc db tr pr cr (modV v a (refreshSavedV w rs prio))) := by
  refine (readProc_spec ha).bind fun p => ?_
  rintro st ⟨h, hp, hr⟩
  cases hslot : p.savedCtx.get prio with
  | none =>
    refine ⟨(), st, rfl, ?_⟩
    rw [modV_eq_self]
    · exact h
    · rw [refreshSavedV, (hr.savedCtx prio).none_eq hslot]
  | some c =>
    obtain ⟨x, hv, hx⟩ := (hr.savedCtx prio).exists_eq hslot
    simp only
    rw [run_bind (readCtx_run hx), hr.uid]
    have hgoal := assignSaved_spec ha prio (peContextSearch_spec w ha rs x.ident (v a).uid) st h
    rw [modV, refreshSavedV, hv]
    exact hgoal

theorem peContextRefresh_spec (ha : a ∈ liveProcs tr pr) (prio : Prio) :
    Does (Acc db tr pr cr v) (peContextRefresh w a prio)
      (fun _ => Acc db tr pr cr (modV v a (fun p => Pe.peContextRefresh w db p prio))) := by
  refine readDb_spec.bind fun d => Does.pull fun hd => ?_
  subst hd
  refine (readProc_spec ha).bind fun p => ?_
  intro st hshow
  have hr := hshow.2.2
  rw [hr.uid]
  cases hrs : peUserGetRuleset (v a).uid prio d with
  | none =>
    refine Does.modV_bind (peContextNorules_spec ha prio) (peSavedctxNorules_spec ha prio)
      (fun _ st h => ?_) st hshow.1
    rw [modV] at h ⊢
    rw [Pe.peContextRefresh, hrs]
    exact h
  | some rs =>
    refine Does.bind (identOf_spec prio p) (fun i => Does.pull fun hi => ?_) st hshow
    subst hi
    refine Does.bind (peContextSearch_spec w ha rs _ (v a).uid) (fun c => ?_)
    refine Does.bind (peProcSetContext_spec ha prio (some c) _) (fun _ => ?_)
    refine Does.modV_bind (peContextPut_spec c) (refreshSaved_spec w ha prio rs) fun _ st h => ?_
    rw [modV] at h ⊢
    rw [Pe.peContextRefresh, hrs]
    simp only [refreshSavedV] at h
    convert h using 2
    cases hsv : (v a).savedCtx.get prio <;> simp [Proc.setContext, hsv]

/-! ### Borrowing -/

/-- `pe_proc_save_ctx` moves a context; a context that somebody else looks at stays. -/
theorem peProcSaveCtx_spec (ha : a ∈ liveProcs tr pr) (prio : Prio) (cookie : ℕ) (F : Cells Ctx → Prop) :
    Does (fun st => Acc db tr pr cr v st ∧ F st.ctxs) (peProcSaveCtx a prio cookie)
      (fun _ st => Acc db tr pr cr (modV v a (fun p => Pe.peProcSaveCtx p prio cookie)) st ∧ F st.ctxs) := by
  rintro st ⟨h, hF⟩
  obtain ⟨p, hshow⟩ := h.shows ha
  rw [peProcSaveCtx, run_bind (readProc_run hshow.2.1)]
  have hr := hshow.2.2
  cases hslot : p.savedCtx.get prio with
  | some c =>
    obtain ⟨x, hv, -⟩ := (hr.savedCtx prio).exists_eq hslot
    refine ⟨(), st, rfl, ?_, hF⟩
    rw [modV_eq_self]
    · exact h
    · rw [Pe.peProcSaveCtx, hv]
      rfl
  | none =>
    have hv : (v a).savedCtx.get prio = none := (hr.savedCtx prio).none_eq hslot
    have hval : Pe.peProcSaveCtx (v a) prio cookie =
        { ((v a).setSaved prio ((v a).context.get prio)).setContext prio none with
          borrowCookie := (v a).borrowCookie.set prio cookie } := by
      rw [Pe.peProcSaveCtx, hv]
      rfl
    rw [modV, hval, if_neg (by simp)]
    refine writeProc_frame ha ?_ (fun ctxs hr => ?_) F st ⟨hshow, hF⟩
    · cases prio <;>
        simp only [HProc.slots, ByPrio.get, ByPrio.set] at hslot ⊢ <;>
        rw [hslot] <;> simp only [slot] <;> abel
    · have hmove := rep_setContext (rep_setSaved hr (hr.context prio) prio) slotRep_none prio
      exact { hmove with
        borrowCookie := congrArg (fun b => ByPrio.set b prio cookie) hr.borrowCookie }

theorem peProcRestoreCtx_spec (ha : a ∈ liveProcs tr pr) (cookie : ℕ) (prio : Prio) :
    Does (Acc db tr pr cr v) (peProcRestoreCtx a cookie prio)
      (fun _ => Acc db tr pr cr (modV v a (fun p => Pe.peProcRestoreCtx cookie p prio))) := by
  refine (readProc_spec ha).bind fun p => ?_
  rintro st ⟨h, hp, hr⟩
  cases hslot : p.savedCtx.get prio with
  | none =>
    refine ⟨(), st, rfl, ?_⟩
    rw [modV_eq_self]
    · exact h
    · rw [Pe.peProcRestoreCtx, (hr.savedCtx prio).none_eq hslot]
  | some c =>
    obtain ⟨x, hv, hx⟩ := (hr.savedCtx prio).exists_eq hslot
    simp only
    by_cases hb : p.borrowCookie.get prio ≠ cookie
    · rw [if_pos hb]
      refine ⟨(), st, rfl, ?_⟩
      rw [modV_eq_self]
      · exact h
      · rw [hr.borrowCookie] at hb
        rw [Pe.peProcRestoreCtx, hv]
        simp only
        rw [if_pos hb]
    · rw [if_neg hb]
      refine Does.bind (peProcSetContext_frame ha prio (some c) (some x) (fun s => s.get prio = some c))
        (fun _ => Does.post (Q := fun _ => Acc db tr pr cr (modV (modV v a (fun p =>
          p.setContext prio (some x))) a (fun p => p.setSaved prio none))) ?_ fun _ st h => ?_)
        st ⟨⟨h, hx⟩, p, hp, hslot⟩
      · refine (dropSaved_spec ha prio c).pre ?_
        rintro st ⟨h, p, hp, hs⟩
        obtain ⟨q, hshow⟩ := h.shows ha
        obtain rfl := some.inj (hp.symm.trans hshow.2.1)
        exact ⟨p, hshow, hs⟩
      · rw [modV_modV, modV] at h
        rw [hr.borrowCookie] at hb
        rw [modV, Pe.peProcRestoreCtx, hv]
        simp only
        rw [if_neg hb]
        exact h

theorem peContextRestore_spec (ha : a ∈ liveProcs tr pr) (cookie : ℕ) :
    Does (Acc db tr pr cr v) (peContextRestore a cookie)
      (fun _ => Acc db tr pr cr (modV v a (fun p => Pe.peContextRestore p cookie))) :=
  forPrio_spec fun prio _ => peProcRestoreCtx_spec ha cookie prio

/-- `pe_context_borrow` for a context `ctx` that is in use. -/
theorem borrowSwitch_spec (ha : a ∈ liveProcs tr pr) (cookie : ℕ) (prio : Prio) (ctx : ℕ)
    (x : Ctx) :
    Does (fun st => Acc db tr pr cr v st ∧ SlotRep st.ctxs (some ctx) (some x))
      (borrowSwitch w a cookie prio ctx)
      (fun _ => Acc db tr pr cr (modV v a (fun p =>
        Pe.peContextSwitch w db (Pe.peProcSaveCtx p prio cookie) prio x.ident p.uid))) := by
  refine Does.bind (peProcSaveCtx_spec ha prio cookie (fun ctxs => SlotRep ctxs (some ctx) (some x)))
    fun _ => ?_
  rintro st ⟨h, hx⟩
  rw [run_bind (readCtx_run hx)]
  obtain ⟨p, -, hp, hr⟩ := h.shows ha
  have huid : (Pe.peProcSaveCtx (v a) prio cookie).uid = (v a).uid := by
    rw [Pe.peProcSaveCtx]
    split <;> rfl
  rw [run_bind (readProc_run hp), hr.uid, modV_self, huid]
  have hgoal := peContextSwitch_spec w ha prio x.ident (v a).uid st h
  rw [modV_modV] at hgoal
  exact hgoal

/-- Without a context nothing is borrowed. -/
theorem context_of_borrow {p : Proc} {prio : Prio} {pident : Ident} {uid : ℕ}
    (h : Pe.peContextDecide w p .borrow prio pident uid = true) : ∃ x, p.context.get prio = some x := by
  cases hc : p.context.get prio with
  | none => simp [Pe.peContextDecide, hc] at h
  | some x => exact ⟨x, rfl⟩

theorem borrowPrio_spec {s d : ℕ} (hs : s ∈ liveProcs tr pr) (hd : d ∈ liveProcs tr pr)
    (cookie : ℕ) (prio : Prio) : Does (Acc db tr pr cr v) (borrowPrio w s d cookie prio)
      (fun _ => Acc db tr pr cr (modV v d (fun procp => Pe.borrowPrio w db (v s) cookie procp prio))) := by
  refine (readProc_spec hs).bind fun p => ?_
  rintro st ⟨h, hp, hr⟩
  cases hslot : p.context.get prio with
  | none =>
    refine ⟨(), st, rfl, ?_⟩
    rw [modV_eq_self]
    · exact h
    · rw [Pe.borrowPrio, borrows, (hr.context prio).none_eq hslot]
  | some ctx =>
    obtain ⟨x, hv, hx⟩ := (hr.context prio).exists_eq hslot
    simp only
    rw [run_bind (readCtx_run hx), hr.uid]
    rw [run_bind (peContextDecide_run w h hd .borrow prio x.ident (v s).uid)]
    cases hok : Pe.peContextDecide w (v d) .borrow prio x.ident (v s).uid with
    | false =>
      refine ⟨(), st, rfl, ?_⟩
      rw [modV_eq_self]
      · exact h
      · rw [Pe.borrowPrio, borrows, hv]
        simp [hok]
    | true =>
      obtain ⟨xp, hvp⟩ := context_of_borrow w hok
      obtain ⟨pp, -, hpp, hrp⟩ := h.shows hd
      rw [if_pos rfl, run_bind (readProc_run hpp)]
      cases hslotp : pp.context.get prio with
      | none =>
        rw [(hrp.context prio).none_eq hslotp] at hvp
        cases hvp
      | some ctxp =>
        obtain ⟨yp, hyv, hyp⟩ := (hrp.context prio).exists_eq hslotp
        obtain rfl := some.inj (hyv.symm.trans hvp)
        simp only
        rw [run_bind (readCtx_run hyp)]
        have hb : borrows w (v s) (v d) prio = if x.ruleset ≠ yp.ruleset then none else some x := by
          rw [borrows, hv, hvp]
          simp [hok]
        by_cases hrs : x.ruleset ≠ yp.ruleset
        · rw [if_pos hrs] at hb ⊢
          refine ⟨(), st, rfl, ?_⟩
          rw [modV_eq_self]
          · exact h
          · rw [Pe.borrowPrio, hb]
        · rw [if_neg hrs] at hb ⊢
          have hgoal := borrowSwitch_spec w hd cookie prio ctx x st ⟨h, hx⟩
          rw [modV] at hgoal ⊢
          rw [Pe.borrowPrio, hb]
          exact hgoal

/-- What is borrowed depends on the user and on the context of the priority only. -/
theorem borrowPrio_congr {p q : Proc} {prio : Prio}
    (hc : p.context.get prio = q.context.get prio) (hu : p.uid = q.uid) (cookie : ℕ) (procp : Proc) :
    Pe.borrowPrio w db p cookie procp prio = Pe.borrowPrio w db q cookie procp prio := by
  rw [Pe.borrowPrio, Pe.borrowPrio, borrows, borrows, hc, hu]

theorem switch_other (p : Proc) {prio q : Prio} (hq : q ≠ prio) (pident : Ident) (uid : ℕ) :
    (Pe.peContextSwitch w db p prio pident uid).context.get q = p.context.get q ∧
      (Pe.peContextSwitch w db p prio pident uid).uid = p.uid := by
  rw [Pe.peContextSwitch]
  split
  · exact ⟨ByPrio.get_set_ne _ _ hq, rfl⟩
  · exact ⟨ByPrio.get_set_ne _ _ hq, rfl⟩

theorem saveCtx_other (p : Proc) {prio q : Prio} (hq : q ≠ prio) (cookie : ℕ) :
    (Pe.peProcSaveCtx p prio cookie).context.get q = p.context.get q ∧
      (Pe.peProcSaveCtx p prio cookie).uid = p.uid := by
  rw [Pe.peProcSaveCtx]
  split
  · exact ⟨rfl, rfl⟩
  · exact ⟨ByPrio.get_set_ne _ _ hq, rfl⟩

theorem borrowPrio_other (proc procp : Proc) {prio q : Prio} (hq : q ≠ prio) (cookie : ℕ) :
    (Pe.borrowPrio w db proc cookie procp prio).context.get q = procp.context.get q ∧
      (Pe.borrowPrio w db proc cookie procp prio).uid = procp.uid := by
  rw [Pe.borrowPrio]
  split
  · exact ⟨rfl, rfl⟩
  · obtain ⟨h1, h2⟩ := @switch_other db w (Pe.peProcSaveCtx procp prio cookie) _ _ hq _ procp.uid
    obtain ⟨h3, h4⟩ := saveCtx_other procp hq cookie
    exact ⟨h1.trans h3, h2.trans h4⟩

/-- Both processes may be the same one: the first round does not touch what the second one reads. -/
theorem peContextBorrow_spec {s d : ℕ} (hs : s ∈ liveProcs tr pr) (hd : d ∈ liveProcs tr pr)
    (cookie : ℕ) : Does (Acc db tr pr cr v) (peContextBorrow w s d cookie)
      (fun _ => Acc db tr pr cr (modV v d (fun procp => Pe.peContextBorrow w db (v s) procp cookie))) := by
  refine (borrowPrio_spec w hs hd cookie .admin).bind fun _ =>
    (borrowPrio_spec w hs hd cookie .user1).post fun _ st h => ?_
  rw [modV_modV] at h
  have hsame : ∀ procp, Pe.borrowPrio w db (modV v d (fun procp =>
      Pe.borrowPrio w db (v s) cookie procp .admin) s) cookie procp .user1 =
        Pe.borrowPrio w db (v s) cookie procp .user1 := by
    intro procp
    by_cases hsd : s = d
    · subst hsd
      rw [modV_self]
      have hother := @borrowPrio_other db w (v s) (v s) .admin .user1 (by decide) cookie
      exact borrowPrio_congr w hother.1 hother.2 cookie procp
    · rw [modV, Function.update_of_ne hsd]
  simp only [hsame] at h
  exact h

/-! ### Fork -/

theorem inherited_spec {q : Option ℕ} (ha : a ∈ liveProcs tr pr) (hq : ∀ b, q = some b → b ∈ liveProcs tr pr)
    (prio : Prio) :
    Does (Acc db tr pr cr v) (inherited a q prio)
      (fun o st => Acc db tr pr cr v st ∧ SlotRep st.ctxs o ((q.map v).bind (fun q =>
        if q.uid = (v a).uid then q.context.get prio else none))) := by
  cases q with
  | none => exact Does.pure fun st h => ⟨h, rfl⟩
  | some b =>
    refine (readProc_spec ha).bind fun p => ?_
    rintro st ⟨h, hp, hr⟩
    obtain ⟨pb, -, hpb, hrb⟩ := h.shows (hq b rfl)
    rw [run_bind (readProc_run hpb)]
    refine ⟨_, st, rfl, h, ?_⟩
    rw [hr.uid, hrb.uid, map_some, bind_some]
    split
    · exact hrb.context prio
    · exact rfl

theorem forkPrio_spec {q : Option ℕ} (ha : a ∈ liveProcs tr pr)
    (hq : ∀ b, q = some b → b ∈ liveProcs tr pr) (prio : Prio) : Does (Acc db tr pr cr v) (forkPrio w a q prio)
      (fun _ => Acc db tr pr cr (modV v a (fun p => Pe.forkPrio w db (q.map v) p prio))) := by
  refine (inherited_spec ha hq prio).bind fun o => ?_
  rintro st ⟨h, hs⟩
  cases o with
  | some c =>
    obtain ⟨x, hv, hx⟩ := hs.exists_eq rfl
    have hgoal := peProcSetContext_spec ha prio (some c) (some x) st ⟨h, hx⟩
    rw [modV] at hgoal ⊢
    rw [Pe.forkPrio, hv]
    exact hgoal
  | none =>
    have hv := hs.none_eq rfl
    simp only
    obtain ⟨p, -, hp, hr⟩ := h.shows ha
    rw [run_bind (readProc_run hp), hr.ident, hr.uid]
    refine Does.modV_bind (peContextSwitch_spec w ha prio (v a).ident (v a).uid)
      (peProcDropSavedCtx_spec ha prio) (fun _ st h => ?_) st h
    rw [modV] at h ⊢
    rw [Pe.forkPrio, hv]
    exact h

/-- The child is not its own parent. -/
theorem peContextFork_spec {q : Option ℕ} (ha : a ∈ liveProcs tr pr)
    (hq : ∀ b, q = some b → b ∈ liveProcs tr pr ∧ b ≠ a) : Does (Acc db tr pr cr v) (peContextFork w a q)
      (fun _ => Acc db tr pr cr (modV v a (fun p => Pe.peContextFork w db p (q.map v)))) := by
  have hmem : ∀ b, q = some b → b ∈ liveProcs tr pr := fun b hb => (hq b hb).1
  refine Does.modV_bind (forkPrio_spec w ha hmem .admin) (forkPrio_spec w ha hmem .user1) fun _ st h => ?_
  have hparent : q.map (modV v a (fun p => Pe.forkPrio w db (q.map v) p .admin)) = q.map v := by
    cases q with
    | none => rfl
    | some b =>
      rw [map_some, map_some, modV, Function.update_of_ne (hq b rfl).2]
  rw [hparent] at h
  exact h

/-! ### Looking ahead -/

theorem curCtx_spec (ha : a ∈ liveProcs tr pr) (prio : Prio) : Does (Acc db tr pr cr v) (curCtx a prio)
      (fun x st => x = (v a).context.get prio ∧ Acc db tr pr cr v st) := by
  refine (readProc_spec ha).bind fun p => ?_
  rintro st ⟨h, hp, hr⟩
  cases hslot : p.context.get prio with
  | none => exact ⟨none, st, rfl, ((hr.context prio).none_eq hslot).symm, h⟩
  | some c =>
    obtain ⟨x, hv, hx⟩ := (hr.context prio).exists_eq hslot
    simp only
    rw [run_bind (readCtx_run hx)]
    exact ⟨some x, st, rfl, hv.symm, h⟩

/-- The context of the new binary is dropped again. -/
theorem willPrio_spec (test : Option Ctx → Ctx → Bool) (w : World) (ha : a ∈ liveProcs tr pr) (uid : ℕ)
    (pident : Ident) (prio : Prio) :
    Does (Acc db tr pr cr v) (willPrio test w a uid pident prio) (fun _ => Acc db tr pr cr v) := by
  refine (peContextDecide_spec w ha .new prio pident uid).bind fun ok => Does.pull fun _ => ?_
  refine Does.ite (fun _ => ?_) (fun _ => Does.pure fun _ h => h)
  refine readDb_spec.bind fun d => Does.pull fun _ => ?_
  cases peUserGetRuleset uid prio d with
  | none => exact Does.pure fun _ h => h
  | some rs =>
    refine (curCtx_spec ha prio).bind fun cur => Does.pull fun _ => ?_
    refine (peContextSearch_spec w ha rs pident uid).bind fun c => ?_
    rintro st ⟨h, hx⟩
    rw [run_bind (readCtx_run hx)]
    refine Does.bind (peContextPut_spec c) (fun _ => ?_) st h
    exact Does.pure fun _ h => h

theorem willAny_spec (test : Option Ctx → Ctx → Bool) (w : World) (ha : a ∈ liveProcs tr pr) (uid : ℕ)
    (pident : Ident) : Does (Acc db tr pr cr v) (willAny test w a uid pident) (fun _ => Acc db tr pr cr v) := by
  refine (willPrio_spec test w ha uid pident .admin).bind fun r => ?_
  exact Does.ite (fun _ => Does.pure fun _ h => h) (fun _ => willPrio_spec test w ha uid pident .user1)

theorem peProcFlagTransition_spec (ha : a ∈ liveProcs tr pr) (uid : ℕ) (pident : Ident) :
    Does (Acc db tr pr cr v) (peProcFlagTransition w a uid pident) (fun _ => Acc db tr pr cr v) :=
  (willAny_spec transitions w ha uid pident).bind fun _ =>
    (willAny_spec entersPg w ha uid pident).bind fun _ => Does.pure fun _ h => h

end Anoubis.Pe.Refs

import Anoubis.Pe.Borrow

/-! What an exec will do, told in advance (`pe_context_will_transition`, `pe_context_will_pg`).

    Before a binary is started the kernel wants to know whether the process will get other rules
    (ANOUBIS_RET_NEED_SECUREEXEC) or is forced into a playground (ANOUBIS_RET_NEED_PLAYGROUND). Both
    answers walk over the priorities like `pe_context_exec` does, but build the new context only to
    look at its blocks.

        decide --> ruleset --> search --> compare with the current context     told in advance
               --> switch ---> search --> set                                  the exec itself

    A context that is built here belongs to a ruleset even if it has no blocks, so that a process
    without any context counts as one that changes its rules. -/

namespace Anoubis.Pe

open Anoubis.Apn Option

/-! ### The two predictions -/

/-- The address of a block of a context, `NULL` where there is none: a block belongs to the ruleset
    of its context. -/
def blockAddr (block : Ctx → Option Block) (c : Ctx) : Option (Option ℕ × Block) :=
  (block c).map (fun b => (c.ruleset, b))

/-- The comparison in `pe_context_will_transition`. -/
def differs (curctx : Option Ctx) (tmpctx : Ctx) : Bool :=
  match curctx with
  | none => true
  | some curctx => blockAddr (·.alfrule) tmpctx ≠ blockAddr (·.alfrule) curctx ||
      blockAddr (·.sbrule) tmpctx ≠ blockAddr (·.sbrule) curctx ||
      blockAddr (·.ctxrule) tmpctx ≠ blockAddr (·.ctxrule) curctx

/-- One round of `pe_context_will_transition`. -/
def willTransitionPrio (w : World) (db : PolicyDb) (proc : Proc) (uid : ℕ) (pident : Ident) (i : Prio) :
    Bool :=
  if !peContextDecide w proc .new i pident uid then false
  else match peUserGetRuleset uid i db with
    | none => false
    | some ruleset =>
      differs (proc.context.get i) (peContextSearch w ruleset pident uid (proc.pgid ≠ 0))

/-- `pe_context_will_transition`. -/
def peContextWillTransition (w : World) (db : PolicyDb) (proc : Proc) (uid : ℕ) (pident : Ident) : Bool :=
  Prio.all.any (willTransitionPrio w db proc uid pident)

/-- `pe_context_is_pg`. -/
def peContextIsPg (ctx : Ctx) : Bool := ctx.ctxrule.any (·.flags.pgforce)

/-- One round of `pe_context_will_pg`, with what it returns in `*ruleidp` and `*priop`. -/
def willPgPrio (w : World) (db : PolicyDb) (proc : Proc) (uid : ℕ) (pident : Ident) (i : Prio) :
    Option (ℕ × Prio) :=
  if !peContextDecide w proc .new i pident uid then none
  else match peUserGetRuleset uid i db with
    | none => none
    | some ruleset =>
      let newctx := peContextSearch w ruleset pident uid (proc.pgid ≠ 0)
      if (proc.context.get i).any
          (fun curctx => blockAddr (·.ctxrule) newctx = blockAddr (·.ctxrule) curctx) then none
      else if peContextIsPg newctx then newctx.ctxrule.map (fun b => (b.id, i))
      else none

/-- `pe_context_will_pg`; 0 is `none`. -/
def peContextWillPg (w : World) (db : PolicyDb) (proc : Proc) (uid : ℕ) (pident : Ident) :
    Option (ℕ × Prio) :=
  Prio.all.findSome? (willPgPrio w db proc uid pident)

/-! ### What the exec itself does -/

/-- A block of a process at a priority: `pe_context_get_alfrule` and its sisters. -/
def Proc.blockAt (p : Proc) (block : Ctx → Option Block) (i : Prio) : Option (Option ℕ × Block) :=
  (p.context.get i).bind (blockAddr block)

/-- The blocks of both processes are the same at this priority. -/
def SameBlocks (p p' : Proc) (i : Prio) : Prop :=
  p'.blockAt (·.alfrule) i = p.blockAt (·.alfrule) i ∧ p'.blockAt (·.sbrule) i = p.blockAt (·.sbrule) i ∧
    p'.blockAt (·.ctxrule) i = p.blockAt (·.ctxrule) i

/-- The process comes to another context block, and that block has the pgforce flag. -/
def EntersPg (p p' : Proc) (i : Prio) : Prop :=
  p'.blockAt (·.ctxrule) i ≠ p.blockAt (·.ctxrule) i ∧
    ∃ x ∈ p'.blockAt (·.ctxrule) i, x.2.flags.pgforce = true

variable {w : World} {db : PolicyDb} {p : Proc} {uid : ℕ} {pident : Ident}

/-- The context of a priority behind `pe_context_exec`. -/
def execCtx (w : World) (db : PolicyDb) (p : Proc) (uid : ℕ) (pident : Ident) (i : Prio) : Option Ctx :=
  if peContextDecide w p .new i pident uid then
    match peUserGetRuleset uid i db with
    | none => norules (p.context.get i)
    | some rs => some (peContextSearch w rs pident uid (p.pgid ≠ 0))
  else p.context.get i

theorem execPrio_context (p : Proc) (i : Prio) :
    (execPrio w db uid pident p i).context.get i = execCtx w db p uid pident i := by
  rw [execPrio, execCtx]
  by_cases hd : peContextDecide w p .new i pident uid = true
  · rw [if_pos hd, if_pos hd, peContextSwitch]
    cases peUserGetRuleset uid i db <;> exact ByPrio.get_set_self ..
  · rw [if_neg hd, if_neg hd]

/-- No round of the loop changes what a later round looks at. -/
theorem exec_context (i : Prio) : (peContextExec w db p uid pident).context.get i = execCtx w db p uid pident i := by
  have hctx : (peContextExec w db p uid pident).context =
      (Prio.all.foldl (execPrio w db uid pident) p).context := by
    rw [peContextExec]
    by_cases huid : uid ≠ uidDefault
    · rw [if_pos huid]
    · rw [if_neg huid]
  obtain ⟨p', hagree, hslot, -, -⟩ := (rounds_exec w db uid pident).foldl p i
  have hround : (Prio.all.foldl (execPrio w db uid pident) p).context.get i =
      (execPrio w db uid pident p' i).context.get i := congrArg Slot.active hslot
  rw [hctx, hround, execPrio_context, execCtx, execCtx, hagree.decide, hagree.active, hagree.pgid]

variable {i : Prio}
variable {c new : Ctx} {p' : Proc}

theorem blockAt_some (h : p.context.get i = some c) (block : Ctx → Option Block) :
    p.blockAt block i = blockAddr block c := by
  rw [Proc.blockAt, h, bind_some]

theorem blockAt_none (h : p.context.get i = none) (block : Ctx → Option Block) : p.blockAt block i = none := by
  rw [Proc.blockAt, h, bind_none]

theorem sameBlocks_of_eq (h : p'.context.get i = p.context.get i) : SameBlocks p p' i := by
  have hblock : ∀ block, p'.blockAt block i = p.blockAt block i := by
    intro block
    rw [Proc.blockAt, Proc.blockAt, h]
  exact ⟨hblock _, hblock _, hblock _⟩

/-! ### One priority -/

/-- The comparison tells whether the context that is put in its place has other blocks. -/
theorem differs_eq_false_iff (h : p'.context.get i = some new) : differs (p.context.get i) new = false ↔
      SameBlocks p p' i ∧ (p.context.get i = none → p'.context.get i = none) := by
  cases hcur : p.context.get i with
  | none => simp [differs, h]
  | some cur =>
    rw [SameBlocks, blockAt_some h, blockAt_some h, blockAt_some h, blockAt_some hcur, blockAt_some hcur,
      blockAt_some hcur]
    simp [differs, and_assoc]

theorem ctxrule_of_isPg (h : peContextIsPg c = true) : ∃ b, c.ctxrule = some b := by
  rw [peContextIsPg] at h
  cases hb : c.ctxrule with
  | none => simp [hb] at h
  | some b => exact ⟨b, rfl⟩

/-- Behind the tests of `pe_context_will_pg` the new context is a playground context other than the
    one before. -/
theorem entersPg_iff (h : p'.context.get i = some new) : EntersPg p p' i ↔ (p.context.get i).any
      (fun cur => blockAddr (·.ctxrule) new = blockAddr (·.ctxrule) cur) = false ∧ peContextIsPg new = true := by
  have hflag : (∃ x ∈ blockAddr (·.ctxrule) new, x.2.flags.pgforce = true) ↔ peContextIsPg new = true := by
    rw [peContextIsPg, blockAddr]
    cases new.ctxrule <;> simp
  rw [EntersPg, blockAt_some h, hflag]
  refine and_congr_left fun hpg => ?_
  cases hcur : p.context.get i with
  | none =>
    obtain ⟨b, hb⟩ := ctxrule_of_isPg hpg
    rw [blockAt_none hcur, blockAddr, hb]
    simp
  | some cur =>
    rw [blockAt_some hcur]
    simp

/-- A round that predicts nothing is one that changes nothing. -/
theorem willTransitionPrio_eq_false_iff (hrs : (peUserGetRuleset uid i db).isSome) :
    willTransitionPrio w db p uid pident i = false ↔ SameBlocks p (peContextExec w db p uid pident) i ∧
        (p.context.get i = none → (peContextExec w db p uid pident).context.get i = none) := by
  obtain ⟨rs, hrs⟩ := isSome_iff_exists.mp hrs
  have hexec : (peContextExec w db p uid pident).context.get i = _ := exec_context i
  rw [execCtx, hrs] at hexec
  rw [willTransitionPrio, hrs]
  cases hd : peContextDecide w p .new i pident uid with
  | false =>
    rw [hd, if_neg (by decide)] at hexec
    exact iff_of_true rfl ⟨sameBlocks_of_eq hexec, fun h => hexec.trans h⟩
  | true =>
    rw [hd, if_pos rfl] at hexec
    exact differs_eq_false_iff hexec

theorem willPgPrio_isSome_iff (hrs : (peUserGetRuleset uid i db).isSome) :
    (willPgPrio w db p uid pident i).isSome ↔ EntersPg p (peContextExec w db p uid pident) i := by
  obtain ⟨rs, hrs⟩ := isSome_iff_exists.mp hrs
  have hexec : (peContextExec w db p uid pident).context.get i = _ := exec_context i
  rw [execCtx, hrs] at hexec
  rw [willPgPrio, hrs]
  cases hd : peContextDecide w p .new i pident uid with
  | false =>
    rw [hd, if_neg (by decide)] at hexec
    exact iff_of_false (by simp) fun h => h.1 (sameBlocks_of_eq hexec).2.2
  | true =>
    rw [hd, if_pos rfl] at hexec
    rw [entersPg_iff hexec]
    dsimp only
    generalize peContextSearch w rs pident uid (p.pgid ≠ 0) = new at *
    cases hsame : (p.context.get i).any
        (fun cur => decide (blockAddr (·.ctxrule) new = blockAddr (·.ctxrule) cur)) with
    | true => simp
    | false =>
      cases hpg : peContextIsPg new with
      | false => simp
      | true =>
        obtain ⟨b, hb⟩ := ctxrule_of_isPg hpg
        simp [hb]

/-! ### Both priorities -/

/-- `pe_context_will_transition` returns 0 exactly if the exec leaves the blocks of both priorities as
    they are and gives no context to a priority that had none, and `pe_context_will_pg` returns 1
    exactly if the exec brings some priority to another context block with the pgforce flag. -/
theorem exec_predicted (w : World) (db : PolicyDb) (p : Proc) (uid : ℕ) (pident : Ident)
    (hrs : ∀ i, (peUserGetRuleset uid i db).isSome) :
    (peContextWillTransition w db p uid pident = false ↔
      ∀ i, SameBlocks p (peContextExec w db p uid pident) i ∧
        (p.context.get i = none → (peContextExec w db p uid pident).context.get i = none)) ∧
    ((peContextWillPg w db p uid pident).isSome ↔
      ∃ i, EntersPg p (peContextExec w db p uid pident) i) := by
  have hall : ∀ i : Prio, i ∈ Prio.all := by
    intro i
    cases i <;> decide
  constructor
  · rw [peContextWillTransition, List.any_eq_false]
    constructor
    · exact fun h i => (willTransitionPrio_eq_false_iff (hrs i)).mp (Bool.eq_false_iff.mpr (h i (hall i)))
    · exact fun h i _ => Bool.eq_false_iff.mp ((willTransitionPrio_eq_false_iff (hrs i)).mpr (h i))
  · rw [peContextWillPg, List.findSome?_isSome_iff]
    constructor
    · rintro ⟨i, -, hi⟩
      exact ⟨i, (willPgPrio_isSome_iff (hrs i)).mp hi⟩
    · rintro ⟨i, hi⟩
      exact ⟨i, hall i, (willPgPrio_isSome_iff (hrs i)).mpr hi⟩

/-! A ruleset for everybody whose only block is a context block with this flag. -/

def execRs (app : List App) (pgforce : Bool) : Ruleset :=
  { ptr := 1, flags := 0, version := 0, maxid := 2, idtree := [⟨1, 2⟩], alfQueue := [], sfsQueue := []
    sbQueue := [], ctxQueue := [⟨2, 1, .ctx, app, ⟨false, pgforce, false⟩, []⟩] }

def execDb (app : List App) (pgforce : Bool) : PolicyDb :=
  [⟨uidDefault, ⟨some (execRs app pgforce), some (execRs app pgforce)⟩⟩]

def execWorld : World := ⟨fun _ _ => [], fun _ _ => [], fun _ => none⟩

theorem execDb_isSome (app : List App) (pgforce : Bool) (uid : ℕ) (i : Prio) :
    (peUserGetRuleset uid i (execDb app pgforce)).isSome := by
  have hself : storedRuleset uidDefault i (execDb app pgforce) = some (execRs app pgforce) := by
    cases i <;> rfl
  rw [peUserGetRuleset, hself]
  cases storedRuleset uid i (execDb app pgforce) <;> rfl

/-- The process 7 has no context yet and is forced into a playground. -/
theorem exec_predicted_pg :
    ∃ i, EntersPg (newProc 1000 7 0 noIdent)
      (peContextExec execWorld (execDb [] true) (newProc 1000 7 0 noIdent) 1000 noIdent) i :=
  (exec_predicted execWorld (execDb [] true) (newProc 1000 7 0 noIdent) 1000 noIdent
    (execDb_isSome [] true 1000)).2.mp (by decide +kernel)

/-- If the only block is for another program, the process gets contexts without blocks in the place of
    no contexts: a transition, though all blocks stay what they were. -/
theorem transition_without_blocks : ¬ ∀ (w : World) (db : PolicyDb) (p : Proc) (uid : ℕ) (pident : Ident),
    (∀ i, (peUserGetRuleset uid i db).isSome) →
      (peContextWillTransition w db p uid pident = false ↔
        ∀ i, SameBlocks p (peContextExec w db p uid pident) i) := by
  intro h
  have hiff := h execWorld (execDb [⟨some "/bin/sh".toList, .none⟩] false) (newProc 1000 7 0 noIdent) 1000
    noIdent (execDb_isSome _ _ 1000)
  have hsame : ∀ i, SameBlocks (newProc 1000 7 0 noIdent)
      (peContextExec execWorld (execDb [⟨some "/bin/sh".toList, .none⟩] false)
        (newProc 1000 7 0 noIdent) 1000 noIdent) i := by
    intro i
    cases i <;> exact ⟨by decide +kernel, by decide +kernel, by decide +kernel⟩
  exact absurd (hiff.mpr hsame) (by decide +kernel)

end Anoubis.Pe

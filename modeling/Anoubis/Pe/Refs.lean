import Anoubis.Lib.Refs
import Anoubis.Pe.Context

/-! Processes and contexts as reference counted objects (`pe_proc.c`, `pe_context.c`, `pe_ipc.c`,
    `pe.c`).

    Here a process refers to its contexts by address, and the handlers take and drop references in the
    order of the source. An access to freed memory or through a NULL pointer makes the program fail.

        tracker ──▶ process (refcount, instances) ─┬─ context[prio]   ──▶ context (refcount)
                                                   └─ saved_ctx[prio] ──▶                      -/

namespace Anoubis.Pe.Refs

open Anoubis.Apn Anoubis.Lib

/-- `struct pe_proc`; the reference count is that of its cell. -/
structure HProc where
  taskCookie : ℕ
  uid : ℕ
  secureexec : Bool
  instances : ℤ
  threads : ℕ
  ident : Ident
  pgid : ℕ
  borrowCookie : ByPrio ℕ
  context : ByPrio (Option ℕ)
  savedCtx : ByPrio (Option ℕ)

/-- Memory and static variables. `calloc` returns an address that was not used before; `terminated` is
    set by `master_terminate`. -/
structure Store where
  tracker : List ℕ
  procs : Cells HProc
  ctxs : Cells Ctx
  nextProc : ℕ
  nextCtx : ℕ
  db : PolicyDb
  terminated : Bool

abbrev M := StateT Store Option

/-! ### Memory -/

def readProc (a : ℕ) : M HProc := fun st => (st.procs.val a).map (fun p => (p, st))

def writeProc (a : ℕ) (p : HProc) : M Unit :=
  fun st => (st.procs.write a p).map (fun h => ((), { st with procs := h }))

def readCtx (c : ℕ) : M Ctx := fun st => (st.ctxs.val c).map (fun x => (x, st))

def readDb : M PolicyDb := fun st => some (st.db, st)

def readTracker : M (List ℕ) := fun st => some (st.tracker, st)

/-- `pe_context_alloc` and the assignments behind it. -/
def peContextAlloc (x : Ctx) : M ℕ :=
  fun st => some (st.nextCtx, { st with ctxs := st.ctxs.new st.nextCtx x, nextCtx := st.nextCtx + 1 })

/-- `pe_context_reference`. -/
def peContextReference : Option ℕ → M Unit
  | none => pure ()
  | some c => fun st => (st.ctxs.reference c).map (fun h => ((), { st with ctxs := h }))

/-- `pe_context_put`. -/
def peContextPut : Option ℕ → M Unit
  | none => pure ()
  | some c => fun st => (st.ctxs.put c).map (fun r => ((), { st with ctxs := r.2 }))

/-! ### The slots of a process -/

/-- `pe_proc_set_context`. -/
def peProcSetContext (a : ℕ) (prio : Prio) (ctx : Option ℕ) : M Unit := do
  peContextReference ctx
  let p ← readProc a
  peContextPut (p.context.get prio)
  writeProc a { p with context := p.context.set prio ctx }

/-- `pe_proc_set_savedctx`. -/
def peProcSetSavedctx (a : ℕ) (prio : Prio) (ctx : Option ℕ) : M Unit := do
  peContextReference ctx
  let p ← readProc a
  peContextPut (p.savedCtx.get prio)
  writeProc a { p with savedCtx := p.savedCtx.set prio ctx }

/-- `pe_proc_save_ctx`. -/
def peProcSaveCtx (a : ℕ) (prio : Prio) (cookie : ℕ) : M Unit := do
  let p ← readProc a
  if (p.savedCtx.get prio).isSome then pure ()
  else writeProc a { p with
    savedCtx := p.savedCtx.set prio (p.context.get prio)
    context := p.context.set prio none
    borrowCookie := p.borrowCookie.set prio cookie }

/-- `pe_context_put(proc->saved_ctx[prio]); proc->saved_ctx[prio] = NULL;`. -/
def dropSaved (a : ℕ) (prio : Prio) (ctx : ℕ) : M Unit := do
  peContextPut (some ctx)
  let p ← readProc a
  writeProc a { p with savedCtx := p.savedCtx.set prio none }

/-- `pe_proc_restore_ctx`. -/
def peProcRestoreCtx (a : ℕ) (cookie : ℕ) (prio : Prio) : M Unit := do
  let p ← readProc a
  match p.savedCtx.get prio with
  | none => pure ()
  | some ctx =>
    if p.borrowCookie.get prio ≠ cookie then pure ()
    else do
      peProcSetContext a prio (some ctx)
      dropSaved a prio ctx

/-- `pe_proc_drop_saved_ctx`. -/
def peProcDropSavedCtx (a : ℕ) (prio : Prio) : M Unit := do
  let p ← readProc a
  match p.savedCtx.get prio with
  | none => pure ()
  | some ctx => dropSaved a prio ctx

/-! ### Contexts -/

/-- `for (i = 0; i < PE_PRIO_MAX; i++)`. -/
def forPrio (f : Prio → M Unit) : M Unit := do
  f .admin
  f .user1

/-- A context without rules. -/
def bare (ident : Ident) : Ctx := ⟨none, none, none, none, ident⟩

/-- `pe_context_norules`. -/
def peContextNorules (a : ℕ) (prio : Prio) : M Unit := do
  let p ← readProc a
  match p.context.get prio with
  | none => pure ()
  | some c => do
    let x ← readCtx c
    if x.NoRules then pure ()
    else do
      let ctx ← peContextAlloc (bare x.ident)
      peProcSetContext a prio (some ctx)
      peContextPut (some ctx)

/-- `pe_savedctx_norules`. -/
def peSavedctxNorules (a : ℕ) (prio : Prio) : M Unit := do
  let p ← readProc a
  match p.savedCtx.get prio with
  | none => pure ()
  | some c => do
    let x ← readCtx c
    if x.NoRules then pure ()
    else do
      let ctx ← peContextAlloc (bare x.ident)
      peProcSetSavedctx a prio (some ctx)
      peContextPut (some ctx)

/-- `pe_context_search` for a process: the new context and its address. -/
def peContextSearch (w : World) (a : ℕ) (rs : Ruleset) (pident : Ident) (uid : ℕ) : M ℕ := do
  let p ← readProc a
  peContextAlloc (Pe.peContextSearch w rs pident uid (p.pgid ≠ 0))

/-- `pe_context_switch`. -/
def peContextSwitch (w : World) (a : ℕ) (prio : Prio) (pident : Ident) (uid : ℕ) : M Unit := do
  let db ← readDb
  match peUserGetRuleset uid prio db with
  | none => peContextNorules a prio
  | some ruleset => do
    let tmpctx ← peContextSearch w a ruleset pident uid
    peProcSetContext a prio (some tmpctx)
    peContextPut (some tmpctx)

/-- `&oldctx->ident`, or the identity of the process if there is no old context. -/
def identOf (a : ℕ) (ctx : Option ℕ) : M Ident :=
  match ctx with
  | none => do
    let p ← readProc a
    pure p.ident
  | some c => do
    let x ← readCtx c
    pure x.ident

/-- The second half of `pe_context_refresh`. -/
def refreshSaved (w : World) (a : ℕ) (prio : Prio) (newrules : Ruleset) : M Unit := do
  let p ← readProc a
  match p.savedCtx.get prio with
  | none => pure ()
  | some oldctx => do
    let x ← readCtx oldctx
    let context ← peContextSearch w a newrules x.ident p.uid
    peProcSetSavedctx a prio (some context)
    peContextPut (some context)

/-- `pe_context_refresh`. -/
def peContextRefresh (w : World) (a : ℕ) (prio : Prio) : M Unit := do
  let db ← readDb
  let p ← readProc a
  match peUserGetRuleset p.uid prio db with
  | none => do
    peContextNorules a prio
    peSavedctxNorules a prio
  | some newrules => do
    let ident ← identOf a (p.context.get prio)
    let context ← peContextSearch w a newrules ident p.uid
    peProcSetContext a prio (some context)
    peContextPut (some context)
    refreshSaved w a prio newrules

/-- What `pe_context_decide` reads of a process and its context. -/
def HProc.view (p : HProc) (prio : Prio) (x : Option Ctx) : Proc :=
  { taskCookie := p.taskCookie, uid := p.uid, secureexec := p.secureexec, instances := 0,
    threads := p.threads, ident := p.ident, pgid := p.pgid, borrowCookie := p.borrowCookie,
    context := (⟨none, none⟩ : ByPrio (Option Ctx)).set prio x, savedCtx := ⟨none, none⟩ }

/-- `pe_context_decide`. -/
def peContextDecide (w : World) (a : ℕ) (type : CtxType) (prio : Prio) (pident : Ident) (uid : ℕ) :
    M Bool := do
  let p ← readProc a
  match p.context.get prio with
  | none => pure (Pe.peContextDecide w (p.view prio none) type prio pident uid)
  | some c => do
    let x ← readCtx c
    pure (Pe.peContextDecide w (p.view prio (some x)) type prio pident uid)

/-- One round of `pe_context_exec`. -/
def execPrio (w : World) (a uid : ℕ) (pident : Ident) (prio : Prio) : M Unit := do
  let ok ← peContextDecide w a .new prio pident uid
  if ok then do
    peContextSwitch w a prio pident uid
    peProcDropSavedCtx a prio
  else pure ()

/-- `pe_context_exec`. -/
def peContextExec (w : World) (a uid : ℕ) (pident : Ident) : M Unit := do
  forPrio (execPrio w a uid pident)
  let p ← readProc a
  writeProc a { p with uid := if uid ≠ uidDefault then uid else p.uid }

/-- The context that the child keeps. -/
def inherited (a : ℕ) (parent : Option ℕ) (prio : Prio) : M (Option ℕ) :=
  match parent with
  | none => pure none
  | some q => do
    let p ← readProc a
    let parent ← readProc q
    pure (if parent.uid = p.uid then parent.context.get prio else none)

/-- One round of `pe_context_fork`. -/
def forkPrio (w : World) (a : ℕ) (parent : Option ℕ) (prio : Prio) : M Unit := do
  let ctx ← inherited a parent prio
  match ctx with
  | some c => peProcSetContext a prio (some c)
  | none => do
    let p ← readProc a
    peContextSwitch w a prio p.ident p.uid
    peProcDropSavedCtx a prio

/-- `pe_context_fork`. -/
def peContextFork (w : World) (a : ℕ) (parent : Option ℕ) : M Unit := forPrio (forkPrio w a parent)

/-- One round of `pe_context_open`. -/
def openPrio (w : World) (a msgUid : ℕ) (pident : Ident) (prio : Prio) : M Unit := do
  let p ← readProc a
  let ok ← peContextDecide w a .openFile prio pident p.uid
  if ok then peContextSwitch w a prio pident msgUid else pure ()

/-- `pe_context_open`. -/
def peContextOpen (w : World) (a msgUid : ℕ) (pident : Ident) : M Unit :=
  forPrio (openPrio w a msgUid pident)

/-- `pe_proc_save_ctx` and `pe_context_switch` in `pe_context_borrow`. -/
def borrowSwitch (w : World) (procp cookie : ℕ) (prio : Prio) (ctx : ℕ) : M Unit := do
  peProcSaveCtx procp prio cookie
  let x ← readCtx ctx
  let pp ← readProc procp
  peContextSwitch w procp prio x.ident pp.uid

/-- One round of `pe_context_borrow`. -/
def borrowPrio (w : World) (proc procp cookie : ℕ) (prio : Prio) : M Unit := do
  let p ← readProc proc
  match p.context.get prio with
  | none => pure ()
  | some ctx => do
    let x ← readCtx ctx
    let ok ← peContextDecide w procp .borrow prio x.ident p.uid
    if ok then do
      let pp ← readProc procp
      match pp.context.get prio with
      | none => failure
      | some ctxp => do
        let xp ← readCtx ctxp
        if x.ruleset ≠ xp.ruleset then pure () else borrowSwitch w procp cookie prio ctx
    else pure ()

/-- `pe_context_borrow`. -/
def peContextBorrow (w : World) (proc procp cookie : ℕ) : M Unit :=
  forPrio (borrowPrio w proc procp cookie)

/-- `pe_context_restore`. -/
def peContextRestore (a cookie : ℕ) : M Unit := forPrio (peProcRestoreCtx a cookie)

/-- The rule blocks have the same address: both NULL, or the same block of the same ruleset. -/
def sameBlock (x y : Ctx) (f : Ctx → Option Block) : Bool :=
  f x = f y && ((f x).isNone || x.ruleset = y.ruleset)

/-- The comparison with the current context in `pe_context_will_transition`. -/
def transitions (cur : Option Ctx) (new : Ctx) : Bool :=
  match cur with
  | none => true
  | some cur => !(sameBlock new cur (·.alfrule) && sameBlock new cur (·.sbrule) &&
      sameBlock new cur (·.ctxrule))

/-- The comparison with the current context in `pe_context_will_pg`. -/
def entersPg (cur : Option Ctx) (new : Ctx) : Bool :=
  !(cur.any (fun cur => sameBlock new cur (·.ctxrule))) && new.ctxrule.any (·.flags.pgforce)

/-- The current context. -/
def curCtx (a : ℕ) (prio : Prio) : M (Option Ctx) := do
  let p ← readProc a
  match p.context.get prio with
  | none => pure none
  | some c => do
    let x ← readCtx c
    pure (some x)

/-- One round of `pe_context_will_transition` and `pe_context_will_pg`: compare with the context of
    the new binary, and drop that context again. -/
def willPrio (test : Option Ctx → Ctx → Bool) (w : World) (a uid : ℕ) (pident : Ident) (prio : Prio) :
    M Bool := do
  let ok ← peContextDecide w a .new prio pident uid
  if ok then do
    let db ← readDb
    match peUserGetRuleset uid prio db with
    | none => pure false
    | some ruleset => do
      let cur ← curCtx a prio
      let tmpctx ← peContextSearch w a ruleset pident uid
      let new ← readCtx tmpctx
      peContextPut (some tmpctx)
      pure (test cur new)
  else pure false

/-- The loop over the priorities; the second round is skipped if the first one found something. -/
def willAny (test : Option Ctx → Ctx → Bool) (w : World) (a uid : ℕ) (pident : Ident) : M Bool := do
  let r ← willPrio test w a uid pident .admin
  if r then pure true else willPrio test w a uid pident .user1

/-- `pe_context_will_transition`. -/
def peContextWillTransition := willAny transitions

/-- `pe_context_will_pg`. -/
def peContextWillPg := willAny entersPg

/-- `pe_proc_flag_transition`: ANOUBIS_RET_NEED_SECUREEXEC and ANOUBIS_RET_NEED_PLAYGROUND. -/
def peProcFlagTransition (w : World) (a uid : ℕ) (pident : Ident) : M (Bool × Bool) := do
  let secure ← peContextWillTransition w a uid pident
  let pg ← peContextWillPg w a uid pident
  pure (secure, pg)

/-! ### Processes -/

/-- `pe_proc_get`. -/
def peProcGet (cookie : ℕ) : M (Option ℕ) := fun st =>
  match st.tracker.find? (fun a => (st.procs.val a).any (fun p => p.taskCookie = cookie)) with
  | none => some (none, st)
  | some a => (st.procs.reference a).map (fun h => (some a, { st with procs := h }))

/-- `--(proc->refcount)`; the process is returned if this was the last reference. -/
def dropProc (a : ℕ) : M (Option HProc) :=
  fun st => (st.procs.put a).map (fun r => (r.1, { st with procs := r.2 }))

/-- The loop over the contexts in `pe_proc_put`. -/
def putSlots (p : HProc) : M Unit := forPrio (fun prio => do
  peContextPut (p.context.get prio)
  peContextPut (p.savedCtx.get prio))

/-- `master_terminate`. -/
def masterTerminate : M Unit := fun st => some ((), { st with terminated := true })

/-- `pe_proc_put`. -/
def peProcPut : Option ℕ → M Unit
  | none => pure ()
  | some a => do
    let last ← dropProc a
    match last with
    | none => pure ()
    | some p => if p.instances ≠ 0 then masterTerminate else putSlots p

/-- `pe_proc_alloc`. -/
def peProcAlloc (uid cookie : ℕ) (ident : Ident) (pgid : ℕ) : M ℕ := fun st =>
  let p : HProc := ⟨cookie, uid, false, 0, 0, ident, pgid, ⟨0, 0⟩, ⟨none, none⟩, ⟨none, none⟩⟩
  some (st.nextProc, { st with procs := st.procs.new st.nextProc p, nextProc := st.nextProc + 1 })

/-- `pe_proc_track`. -/
def peProcTrack (a : ℕ) : M Unit := do
  let p ← readProc a
  writeProc a { p with instances := 1 }
  fun st => (st.procs.reference a).map
    (fun h => ((), { st with procs := h, tracker := st.tracker ++ [a] }))

/-- `pe_proc_untrack`. -/
def peProcUntrack (a : ℕ) : M Unit := do
  (fun st => some ((), { st with tracker := st.tracker.erase a }) : M Unit)
  peProcPut (some a)

/-- `pe_proc_ident(parent)`. -/
def procIdent : Option ℕ → M Ident
  | none => pure noIdent
  | some q => do
    let p ← readProc q
    pure p.ident

/-- `pe_proc_is_secure(parent)`. -/
def procSecure : Option ℕ → M Bool
  | none => pure false
  | some q => do
    let p ← readProc q
    pure p.secureexec

/-- `pe_proc_fork`. -/
def peProcFork (w : World) (uid child parentCookie pgid : ℕ) : M Unit := do
  let parent ← peProcGet parentCookie
  let ident ← procIdent parent
  let a ← peProcAlloc uid child ident pgid
  peProcTrack a
  peContextFork w a parent
  let secure ← procSecure parent
  let p ← readProc a
  writeProc a { p with secureexec := secure }
  peProcPut parent
  peProcPut (some a)

/-- `pe_proc_addinstance`. -/
def peProcAddinstance (cookie : ℕ) : M Unit := do
  let proc ← peProcGet cookie
  match proc with
  | none => pure ()
  | some a => do
    let p ← readProc a
    writeProc a { p with instances := p.instances + 1 }
    peProcPut (some a)

/-- Look a process up and drop it again: `pe_proc_is_running` for the files of an upgrade, and the
    handlers that only read the process. -/
def probe (cookie : ℕ) : M Unit := do
  let proc ← peProcGet cookie
  peProcPut proc

/-- `pe_proc_exit`; `upgraded` are the cookies that `pe_upgrade_end` looks up. -/
def peProcExit (cookie : ℕ) (upgraded : List ℕ) : M Unit := do
  let proc ← peProcGet cookie
  match proc with
  | none => pure ()
  | some a => do
    let p ← readProc a
    writeProc a { p with instances := p.instances - 1 }
    if p.instances - 1 ≠ 0 then peProcPut (some a)
    else do
      peProcUntrack a
      upgraded.forM probe
      peProcPut (some a)

/-- `pe_proc_add_thread`. -/
def peProcAddThread (cookie : ℕ) : M Unit := do
  let proc ← peProcGet cookie
  match proc with
  | none => pure ()
  | some a => do
    let p ← readProc a
    writeProc a { p with threads := p.threads + 1 }
    peProcPut (some a)

/-- `pe_proc_remove_thread`. -/
def peProcRemoveThread (cookie : ℕ) (upgraded : List ℕ) : M Unit := do
  let proc ← peProcGet cookie
  match proc with
  | none => pure ()
  | some a => do
    let p ← readProc a
    writeProc a { p with threads := p.threads - 1 }
    upgraded.forM probe
    peProcPut (some a)

/-- The process of an exec; an unknown one is tracked first. -/
def getOrTrack (uid cookie pgid : ℕ) : M ℕ := do
  let proc ← peProcGet cookie
  match proc with
  | some a => pure a
  | none => do
    let a ← peProcAlloc uid cookie noIdent pgid
    peProcTrack a
    pure a

/-- `pe_proc_exec`. -/
def peProcExec (w : World) (cookie uid : ℕ) (ident : Ident) (pgid : ℕ) (secure : Bool) : M Unit := do
  let a ← getOrTrack uid cookie pgid
  let p ← readProc a
  writeProc a { p with ident := ident }
  peContextExec w a uid ident
  let p ← readProc a
  writeProc a { p with secureexec := secure }
  peProcPut (some a)

/-! ### Handlers -/

/-- `pe_context_open` if the event has a checksum. -/
def openCtx (w : World) (a msgUid : ℕ) : Option Ident → M Unit
  | none => pure ()
  | some pident => peContextOpen w a msgUid pident

/-- `pe_proc_flag_transition` if a permitted exec has to be flagged. -/
def flagExec (w : World) (a : ℕ) : Option (ℕ × Ident) → M Unit
  | none => pure ()
  | some (uid, pident) => do
    let _flags ← peProcFlagTransition w a uid pident
    pure ()

/-- `pe_handle_sfs`, as far as references are concerned. -/
def peHandleSfs (w : World) (cookie msgUid : ℕ) (ident : Option Ident) (exec : Option (ℕ × Ident)) :
    M Unit := do
  let proc ← peProcGet cookie
  match proc with
  | none => pure ()
  | some a => do
    openCtx w a msgUid ident
    flagExec w a exec
    peProcPut (some a)

/-- `pe_ipc_connect`. -/
def peIpcConnect (w : World) (source dest conn : ℕ) : M Unit := do
  let proc ← peProcGet source
  match proc with
  | none => pure ()
  | some s => do
    let procp ← peProcGet dest
    match procp with
    | none => peProcPut (some s)
    | some d => do
      peContextBorrow w s d conn
      peProcPut (some s)
      peProcPut (some d)

/-- `pe_ipc_destroy`. -/
def peIpcDestroy (source conn : ℕ) : M Unit := do
  let proc ← peProcGet source
  match proc with
  | none => pure ()
  | some a => do
    peContextRestore a conn
    peProcPut (some a)

/-- `pe_handle_playgroundproc`. -/
def peHandlePlaygroundproc (w : World) (cookie pgid : ℕ) : M Unit := do
  let proc ← peProcGet cookie
  match proc with
  | none => pure ()
  | some a => do
    let p ← readProc a
    writeProc a { p with pgid := pgid }
    forPrio (peContextRefresh w a)
    peProcPut (some a)

/-- One round of `pe_proc_update_db_one`. -/
def updateOne (w : World) (oldrs : Option Ruleset) (prio : Prio) (uid a : ℕ) : M Unit := do
  let p ← readProc a
  let oldctx ← curCtx a prio
  match oldctx with
  | none => pure ()
  | some x =>
    if peContextUsesRs (some x) oldrs ∨ (oldrs.isNone ∧ p.uid = uid) then peContextRefresh w a prio
    else pure ()

/-- `pe_user_insert_rs`. -/
def peUserInsertRs (w : World) (rs : Ruleset) (uid : ℕ) (prio : Prio) : M Unit := do
  let db ← readDb
  (fun st => some ((), { st with db := insertRs rs uid prio st.db }) : M Unit)
  let tracker ← readTracker
  tracker.forM (updateOne w (storedRuleset uid prio db) prio uid)

/-- The kernel events, and the installation of a policy. The handlers of ALF events, path events
    (`upgraded`: what `pe_upgrade_end` looks up), playground questions and scan requests only read the
    process. -/
inductive HEvent where
  | fork (uid child parent pgid : ℕ)
  | exec (cookie uid : ℕ) (ident : Ident) (pgid : ℕ) (secure : Bool)
  | exit (cookie : ℕ) (upgraded : List ℕ)
  | replace (keep gone : ℕ) (upgraded : List ℕ)
  | create (cookie : ℕ)
  | destroy (cookie : ℕ) (upgraded : List ℕ)
  | sfs (cookie msgUid : ℕ) (ident : Option Ident) (exec : Option (ℕ × Ident))
  | sfspath (cookie : ℕ) (upgraded : List ℕ)
  | alf (cookie : ℕ)
  | connect (source dest conn : ℕ)
  | disconnect (source conn : ℕ)
  | playgroundAsk (cookie : ℕ)
  | playgroundProc (cookie pgid : ℕ)
  | playgroundScan (cookie : ℕ)
  | upload (rs : Ruleset) (uid : ℕ) (prio : Prio)

/-- `pe_dispatch_event`. -/
def dispatch (w : World) : HEvent → M Unit
  | .fork uid child parent pgid => peProcFork w uid child parent pgid
  | .exec cookie uid ident pgid secure => peProcExec w cookie uid ident pgid secure
  | .exit cookie upgraded => peProcExit cookie upgraded
  | .replace keep gone upgraded => do
    peProcAddinstance keep
    peProcExit gone upgraded
  | .create cookie => peProcAddThread cookie
  | .destroy cookie upgraded => peProcRemoveThread cookie upgraded
  | .sfs cookie msgUid ident exec => peHandleSfs w cookie msgUid ident exec
  | .sfspath cookie upgraded => do
    let proc ← peProcGet cookie
    upgraded.forM probe
    peProcPut proc
  | .alf cookie => probe cookie
  | .connect source dest conn => peIpcConnect w source dest conn
  | .disconnect source conn => peIpcDestroy source conn
  | .playgroundAsk cookie => probe cookie
  | .playgroundProc cookie pgid => peHandlePlaygroundproc w cookie pgid
  | .playgroundScan cookie => probe cookie
  | .upload rs uid prio => peUserInsertRs w rs uid prio

/-- `pe_init`, with a policy database. -/
def Store.init (db : PolicyDb) : Store := ⟨[], fun _ => none, fun _ => none, 0, 0, db, false⟩

/-- A run; the checksum database may change between events. -/
def runEvents : List (World × HEvent) → M Unit
  | [] => pure ()
  | (w, e) :: es => do
    dispatch w e
    runEvents es

end Anoubis.Pe.Refs

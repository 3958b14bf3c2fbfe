import Anoubis.Pe.State

/-! Contexts of processes (`pe_context.c`, `pe_proc.c`, `pe_ipc.c`, `pe_user_insert_rs`).

    A context is the choice of rule blocks for a process under one ruleset. Contexts change on exec
    and on opening a file if the context rules say so, are inherited by fork, are borrowed over an
    IPC connection (the own context is saved meanwhile) and are refreshed when a policy is installed.

        exec, open --> switch          connect --> save, switch          upload --> refresh
        fork --> share or switch       destroy --> restore               playground --> refresh  -/

namespace Anoubis.Pe

open Anoubis.Apn

/-! ### Matching -/

/-- `!abuf_empty(csum) && !abuf_empty(pident->csum) && abuf_equal(csum, pident->csum)`. -/
def csumEqual (a b : Csum) : Bool := a ≠ [] && b ≠ [] && a = b

/-- The APN_CS_UID part of `pe_context_subject_match`. -/
def uidMatch (w : World) (app : App) (pident : Ident) (uid : ℕ) : Bool :=
  if uid = uidDefault then false
  else if app.name = none then false
  else csumEqual (w.sfshashGetUid app.name uid) pident.csum

/-- `pe_context_subject_match`. -/
def peContextSubjectMatch (w : World) (app : App) (pident : Ident) (uid : ℕ) : Bool :=
  if uid = uidDefault ∧ (app.subject = .uidSelf ∨ app.subject = .keySelf) then false
  else match app.subject with
    | .none => true
    | .uid u => uidMatch w app pident u
    | .uidSelf => uidMatch w app pident uid
    | .key keyid => csumEqual (w.sfshashGetKey app.name keyid) pident.csum
    | .keySelf =>
      match w.certKeyidForUid uid with
      | none => false
      | some keyid => csumEqual (w.sfshashGetKey app.name keyid) pident.csum

/-- `pe_context_app_match`. -/
def peContextAppMatch (w : World) (app : App) (pident : Ident) (uid : ℕ) : Bool :=
  match app.name with
  | none => true
  | some name =>
    if app.subject = .none then pident.pathhint = some name && peContextSubjectMatch w app pident uid
    else peContextSubjectMatch w app pident uid

/-- `pe_context_search_chain`. -/
def peContextSearchChain (w : World) (chain : List Block) (pident : Ident) (uid : ℕ) (ispg : Bool) :
    Option Block :=
  chain.find? (fun b => !(!ispg && b.flags.pgonly) &&
    (b.app.isEmpty || b.app.any (fun app => peContextAppMatch w app pident uid)))

/-- `pe_context_search`. -/
def peContextSearch (w : World) (rs : Ruleset) (pident : Ident) (uid : ℕ) (ispg : Bool) : Ctx :=
  { ruleset := some rs.ptr
    alfrule := peContextSearchChain w rs.alfQueue pident uid ispg
    sbrule := peContextSearchChain w rs.sbQueue pident uid ispg
    ctxrule := peContextSearchChain w rs.ctxQueue pident uid ispg
    ident := pident }

/-- A context without ruleset and blocks. -/
def Ctx.NoRules (c : Ctx) : Prop :=
  c.ruleset = none ∧ c.alfrule = none ∧ c.sbrule = none ∧ c.ctxrule = none

instance (c : Ctx) : Decidable c.NoRules := inferInstanceAs (Decidable (_ ∧ _ ∧ _ ∧ _))

/-- `pe_context_norules` and `pe_savedctx_norules`: keep a context, but without rules. -/
def norules : Option Ctx → Option Ctx
  | none => none
  | some c => if c.NoRules then some c else some ⟨none, none, none, none, c.ident⟩

/-- `pe_context_decide`: may the process switch its context? -/
def peContextDecide (w : World) (proc : Proc) (type : CtxType) (prio : Prio) (pident : Ident)
    (uid : ℕ) : Bool :=
  match proc.context.get prio with
  | none => type = .new
  | some c =>
    if type = .new ∧ proc.uid ≠ uid then true
    else match c.ctxrule with
      | none => false
      | some b => b.chain.any (fun r =>
        match r.body with
        | .ctxRule application t => t = type && (application.isEmpty ||
            application.any (fun app => peContextAppMatch w app pident uid))
        | _ => false)

/-! ### Operations on one process -/

/-- `pe_proc_set_context`. -/
def Proc.setContext (p : Proc) (prio : Prio) (c : Option Ctx) : Proc :=
  { p with context := p.context.set prio c }

/-- `pe_proc_set_savedctx` and `pe_proc_drop_saved_ctx`. -/
def Proc.setSaved (p : Proc) (prio : Prio) (c : Option Ctx) : Proc :=
  { p with savedCtx := p.savedCtx.set prio c }

/-- `pe_context_switch`. -/
def peContextSwitch (w : World) (db : PolicyDb) (p : Proc) (prio : Prio) (pident : Ident) (uid : ℕ) :
    Proc :=
  match peUserGetRuleset uid prio db with
  | none => p.setContext prio (norules (p.context.get prio))
  | some rs => p.setContext prio (some (peContextSearch w rs pident uid (p.pgid ≠ 0)))

/-- `pe_context_refresh`. -/
def peContextRefresh (w : World) (db : PolicyDb) (p : Proc) (prio : Prio) : Proc :=
  match peUserGetRuleset p.uid prio db with
  | none =>
    (p.setContext prio (norules (p.context.get prio))).setSaved prio (norules (p.savedCtx.get prio))
  | some rs =>
    let search (pident : Ident) := some (peContextSearch w rs pident p.uid (p.pgid ≠ 0))
    let p' := p.setContext prio (search (((p.context.get prio).map (·.ident)).getD p.ident))
    match p.savedCtx.get prio with
    | none => p'
    | some c => p'.setSaved prio (search c.ident)

/-- One round of `pe_context_exec`. -/
def execPrio (w : World) (db : PolicyDb) (uid : ℕ) (pident : Ident) (p : Proc) (prio : Prio) : Proc :=
  if peContextDecide w p .new prio pident uid then
    (peContextSwitch w db p prio pident uid).setSaved prio none
  else p

/-- `pe_context_exec`. -/
def peContextExec (w : World) (db : PolicyDb) (p : Proc) (uid : ℕ) (pident : Ident) : Proc :=
  let p := Prio.all.foldl (execPrio w db uid pident) p
  if uid ≠ uidDefault then { p with uid := uid } else p

/-- One round of `pe_context_fork`. -/
def forkPrio (w : World) (db : PolicyDb) (parent : Option Proc) (p : Proc) (prio : Prio) : Proc :=
  match parent.bind (fun q => if q.uid = p.uid then q.context.get prio else none) with
  | some c => p.setContext prio (some c)
  | none => (peContextSwitch w db p prio p.ident p.uid).setSaved prio none

/-- `pe_context_fork`. -/
def peContextFork (w : World) (db : PolicyDb) (p : Proc) (parent : Option Proc) : Proc :=
  Prio.all.foldl (forkPrio w db parent) p

/-- One round of `pe_context_open`. -/
def openPrio (w : World) (db : PolicyDb) (msgUid : ℕ) (pident : Ident) (p : Proc) (prio : Prio) : Proc :=
  if peContextDecide w p .openFile prio pident p.uid then peContextSwitch w db p prio pident msgUid
  else p

/-- `pe_context_open` for an event with a checksum; `pathhint` is empty if the event has none. -/
def peContextOpen (w : World) (db : PolicyDb) (p : Proc) (msgUid : ℕ) (pident : Ident) : Proc :=
  Prio.all.foldl (openPrio w db msgUid pident) p

/-- `pe_proc_save_ctx`. -/
def peProcSaveCtx (p : Proc) (prio : Prio) (cookie : ℕ) : Proc :=
  if (p.savedCtx.get prio).isSome then p
  else { (p.setSaved prio (p.context.get prio)).setContext prio none with
    borrowCookie := p.borrowCookie.set prio cookie }

/-- The process `procp` borrows the context of `proc` at this priority. -/
def borrows (w : World) (proc procp : Proc) (prio : Prio) : Option Ctx :=
  match proc.context.get prio with
  | none => none
  | some c =>
    if peContextDecide w procp .borrow prio c.ident proc.uid ∧
        some c.ruleset = (procp.context.get prio).map (·.ruleset) then some c
    else none

/-- One round of `pe_context_borrow`. -/
def borrowPrio (w : World) (db : PolicyDb) (proc : Proc) (cookie : ℕ) (procp : Proc) (prio : Prio) :
    Proc :=
  match borrows w proc procp prio with
  | none => procp
  | some c => peContextSwitch w db (peProcSaveCtx procp prio cookie) prio c.ident procp.uid

/-- `pe_context_borrow`. -/
def peContextBorrow (w : World) (db : PolicyDb) (proc procp : Proc) (cookie : ℕ) : Proc :=
  Prio.all.foldl (borrowPrio w db proc cookie) procp

/-- `pe_proc_restore_ctx`. -/
def peProcRestoreCtx (cookie : ℕ) (p : Proc) (prio : Prio) : Proc :=
  match p.savedCtx.get prio with
  | none => p
  | some c =>
    if p.borrowCookie.get prio ≠ cookie then p
    else (p.setContext prio (some c)).setSaved prio none

/-- `pe_context_restore`. -/
def peContextRestore (p : Proc) (cookie : ℕ) : Proc := Prio.all.foldl (peProcRestoreCtx cookie) p

/-! ### The tracker -/

/-- Tracked processes and the live policy database. -/
structure PeState where
  tracker : List Proc
  db : PolicyDb

/-- `pe_proc_get`: the first process with this cookie. -/
def peProcGet (cookie : ℕ) (ps : List Proc) : Option Proc := ps.find? (fun p => p.taskCookie = cookie)

/-- Change the process that `pe_proc_get` returns. -/
def modifyProc (cookie : ℕ) (f : Proc → Proc) : List Proc → List Proc
  | [] => []
  | p :: ps => if p.taskCookie = cookie then f p :: ps else p :: modifyProc cookie f ps

def PeState.modify (st : PeState) (cookie : ℕ) (f : Proc → Proc) : PeState :=
  { st with tracker := modifyProc cookie f st.tracker }

/-- `pe_proc_untrack` of the process that `pe_proc_get` returns. -/
def untrackProc (cookie : ℕ) : List Proc → List Proc
  | [] => []
  | p :: ps => if p.taskCookie = cookie then ps else p :: untrackProc cookie ps

/-- `pe_proc_alloc` and `pe_proc_track`. -/
def newProc (uid cookie pgid : ℕ) (ident : Ident) : Proc :=
  { taskCookie := cookie, uid := uid, secureexec := false, instances := 1, threads := 0,
    ident := ident, pgid := pgid, borrowCookie := ⟨0, 0⟩, context := ⟨none, none⟩,
    savedCtx := ⟨none, none⟩ }

def noIdent : Ident := ⟨[], none⟩

/-- `pe_proc_fork`. -/
def peProcFork (w : World) (st : PeState) (uid child parentCookie pgid : ℕ) : PeState :=
  let parent := peProcGet parentCookie st.tracker
  let p := newProc uid child pgid ((parent.map (·.ident)).getD noIdent)
  let p := peContextFork w st.db p parent
  { st with tracker := st.tracker ++ [{ p with secureexec := parent.any (·.secureexec) }] }

/-- The part of `pe_proc_exec` behind the lookup. -/
def execProc (w : World) (db : PolicyDb) (uid : ℕ) (ident : Ident) (secure : Bool) (p : Proc) : Proc :=
  { peContextExec w db { p with ident := ident } uid ident with secureexec := secure }

/-- `pe_proc_exec`: an unknown process is tracked first. -/
def peProcExec (w : World) (st : PeState) (cookie uid : ℕ) (ident : Ident) (pgid : ℕ) (secure : Bool) :
    PeState :=
  let tracker := match peProcGet cookie st.tracker with
    | none => st.tracker ++ [newProc uid cookie pgid noIdent]
    | some _ => st.tracker
  { st with tracker := modifyProc cookie (execProc w st.db uid ident secure) tracker }

/-- `pe_proc_exit`. -/
def peProcExit (st : PeState) (cookie : ℕ) : PeState :=
  match peProcGet cookie st.tracker with
  | none => st
  | some p =>
    if p.instances ≠ 1 then st.modify cookie (fun p => { p with instances := p.instances - 1 })
    else { st with tracker := untrackProc cookie st.tracker }

/-- `pe_context_uses_rs`. -/
def peContextUsesRs (ctx : Option Ctx) (rs : Option Ruleset) : Bool :=
  match ctx, rs with
  | some c, some rs => c.ruleset = some rs.ptr || c.ruleset = none
  | _, _ => false

/-- The test of `pe_proc_update_db_one`. -/
def selected (oldrs : Option Ruleset) (prio : Prio) (uid : ℕ) (p : Proc) : Bool :=
  (p.context.get prio).isSome &&
    (peContextUsesRs (p.context.get prio) oldrs || (oldrs.isNone && p.uid = uid))

/-- `pe_proc_update_db_one`. -/
def peProcUpdateDbOne (w : World) (db : PolicyDb) (oldrs : Option Ruleset) (prio : Prio) (uid : ℕ)
    (tracker : List Proc) : List Proc :=
  tracker.map (fun p => if selected oldrs prio uid p then peContextRefresh w db p prio else p)

/-- `pe_proc_update_db`. -/
def peProcUpdateDb (w : World) (db : PolicyDb) (tracker : List Proc) : List Proc :=
  tracker.map (fun p => Prio.all.foldl (peContextRefresh w db) p)

/-- `pe_user_insert_rs` on the live database. -/
def peUserInsertRs (w : World) (st : PeState) (rs : Ruleset) (uid : ℕ) (prio : Prio) : PeState :=
  let oldrs := storedRuleset uid prio st.db
  let db := insertRs rs uid prio st.db
  ⟨peProcUpdateDbOne w db oldrs prio uid st.tracker, db⟩

/-! ### Events -/

/-- What reaches the process tracker. -/
inductive Event where
  | fork (uid child parent pgid : ℕ)
  | exec (cookie uid : ℕ) (ident : Ident) (pgid : ℕ) (secure : Bool)
  | exit (cookie : ℕ)
  | replace (keep gone : ℕ)
  | create (cookie : ℕ)
  | destroy (cookie : ℕ)
  | openFile (cookie msgUid : ℕ) (ident : Ident)
  | connect (source dest conn : ℕ)
  | disconnect (source conn : ℕ)
  | playground (cookie pgid : ℕ)
  | upload (rs : Ruleset) (uid : ℕ) (prio : Prio)

/-- One event. -/
def step (w : World) (st : PeState) : Event → PeState
  | .fork uid child parent pgid => peProcFork w st uid child parent pgid
  | .exec cookie uid ident pgid secure => peProcExec w st cookie uid ident pgid secure
  | .exit cookie => peProcExit st cookie
  | .replace keep gone =>
    peProcExit (st.modify keep (fun p => { p with instances := p.instances + 1 })) gone
  | .create cookie => st.modify cookie (fun p => { p with threads := p.threads + 1 })
  | .destroy cookie => st.modify cookie (fun p => { p with threads := p.threads - 1 })
  | .openFile cookie msgUid ident => st.modify cookie (fun p => peContextOpen w st.db p msgUid ident)
  | .connect source dest conn =>
    match peProcGet source st.tracker with
    | none => st
    | some proc => st.modify dest (fun procp => peContextBorrow w st.db proc procp conn)
  | .disconnect source conn => st.modify source (fun p => peContextRestore p conn)
  | .playground cookie pgid =>
    st.modify cookie (fun p => Prio.all.foldl (peContextRefresh w st.db) { p with pgid := pgid })
  | .upload rs uid prio => peUserInsertRs w st rs uid prio

/-- A run; the checksum database may change between events. -/
def run (st : PeState) : List (World × Event) → PeState
  | [] => st
  | (w, e) :: es => run (step w st e) es

end Anoubis.Pe

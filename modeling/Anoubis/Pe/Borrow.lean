import Anoubis.Pe.Reload

/-! Borrowed contexts (`pe_ipc_connect`, `pe_ipc_destroy`, `pe_context_borrow`, `pe_context_restore`).

    A connection may switch the context of the process at its far end. The context that process had
    is saved under the cookie of the connection and belongs to it again once the connection is gone.
    A ledger keeps, for each process and priority, what was lent: the own context, the connection that
    lent first and all open connections that lent.

        connect --> lend      destroy --> give back      exec --> drop      reload --> refresh  -/

namespace Anoubis.Pe

open Anoubis.Apn

/-! ### Events -/

/-- The events of processes that talk to each other while policies are reloaded. -/
inductive IpcEvent where
  | connect (source dest conn : ℕ)
  | destroy (source dest conn : ℕ)
  | exec (cookie uid : ℕ) (ident : Ident) (pgid : ℕ) (secure : Bool)
  | openFile (cookie msgUid : ℕ) (ident : Ident)
  | fork (uid child parent pgid : ℕ)
  | upload (rs : Ruleset) (uid : ℕ) (prio : Prio)
  | reconfigure (db : PolicyDb)

/-- `pe_user_reconfigure` behind `pe_user_load_db`: all processes are refreshed. -/
def peUserReconfigure (w : World) (st : PeState) (newpdb : PolicyDb) : PeState :=
  ⟨peProcUpdateDb w newpdb st.tracker, newpdb⟩

/-- One event. `pe_ipc_destroy` does not look at the dest of its message. -/
def ipcStep (w : World) (st : PeState) : IpcEvent → PeState
  | .connect source dest conn => step w st (.connect source dest conn)
  | .destroy source _ conn => step w st (.disconnect source conn)
  | .exec cookie uid ident pgid secure => step w st (.exec cookie uid ident pgid secure)
  | .openFile cookie msgUid ident => step w st (.openFile cookie msgUid ident)
  | .fork uid child parent pgid => step w st (.fork uid child parent pgid)
  | .upload rs uid prio => step w st (.upload rs uid prio)
  | .reconfigure db => peUserReconfigure w st db

/-! ### Slots -/

/-- What a process has for one priority. -/
structure Slot where
  active : Option Ctx
  saved : Option Ctx
  cookie : ℕ
  deriving DecidableEq

def Proc.slot (p : Proc) (prio : Prio) : Slot :=
  ⟨p.context.get prio, p.savedCtx.get prio, p.borrowCookie.get prio⟩

/-- The slot of the process that `pe_proc_get` returns; a process that is not tracked has nothing. -/
def PeState.slot (st : PeState) (cookie : ℕ) (prio : Prio) : Slot :=
  match peProcGet cookie st.tracker with
  | none => ⟨none, none, 0⟩
  | some p => p.slot prio

/-- The processes are equal in what the rounds of the other priorities leave alone. -/
structure Agree (q : Prio) (p p' : Proc) : Prop where
  taskCookie : p'.taskCookie = p.taskCookie
  uid : p'.uid = p.uid
  pgid : p'.pgid = p.pgid
  slot : p'.slot q = p.slot q

theorem Agree.refl (q : Prio) (p : Proc) : Agree q p p := ⟨rfl, rfl, rfl, rfl⟩

theorem Agree.active {q : Prio} {p p' : Proc} (h : Agree q p p') :
    p'.context.get q = p.context.get q := congrArg Slot.active h.slot

theorem Agree.saved {q : Prio} {p p' : Proc} (h : Agree q p p') :
    p'.savedCtx.get q = p.savedCtx.get q := congrArg Slot.saved h.slot

section Slots

variable {w : World} {db : PolicyDb} {q : Prio}
variable {p p' : Proc} {f : Proc → Prio → Proc} {α : Type}

theorem Agree.decide (h : Agree q p p') (type : CtxType) (pident : Ident) (uid : ℕ) :
    peContextDecide w p' type q pident uid = peContextDecide w p type q pident uid := by
  simp only [peContextDecide, h.active, h.uid]

theorem Agree.borrows (h : Agree q p p') (proc : Proc) : borrows w proc p' q = borrows w proc p q := by
  simp only [Pe.borrows, h.decide, h.active]

/-- A round of a loop over the priorities keeps the slots of the others. -/
def Rounds (f : Proc → Prio → Proc) : Prop :=
  ∀ p i, (∀ q, q ≠ i → Agree q p (f p i)) ∧
    (f p i).taskCookie = p.taskCookie ∧ (f p i).uid = p.uid ∧ (f p i).pgid = p.pgid

/-- The loop does to the slot of a priority what the round of this priority does. -/
theorem Rounds.foldl (h : Rounds f) (p : Proc) (q : Prio) :
    ∃ p', Agree q p p' ∧ (Prio.all.foldl f p).slot q = (f p' q).slot q ∧
      (Prio.all.foldl f p).taskCookie = p.taskCookie ∧ (Prio.all.foldl f p).uid = p.uid := by
  have hadmin := h p .admin
  have huser := h (f p .admin) .user1
  have hcookie : (Prio.all.foldl f p).taskCookie = p.taskCookie := huser.2.1.trans hadmin.2.1
  have huid : (Prio.all.foldl f p).uid = p.uid := huser.2.2.1.trans hadmin.2.2.1
  cases q with
  | admin => exact ⟨p, .refl _ p, (huser.1 .admin (by decide)).slot, hcookie, huid⟩
  | user1 => exact ⟨f p .admin, hadmin.1 .user1 (by decide), rfl, hcookie, huid⟩

theorem rounds_of (h : ∀ p i, f p i = p ∨ ∃ a s c, f p i =
      { p with context := p.context.set i a, savedCtx := p.savedCtx.set i s
               borrowCookie := p.borrowCookie.set i c }) : Rounds f := by
  intro p i
  rcases h p i with heq | ⟨a, s, c, heq⟩
  · rw [heq]
    exact ⟨fun q _ => .refl q p, rfl, rfl, rfl⟩
  · rw [heq]
    refine ⟨fun q hq => ⟨rfl, rfl, rfl, ?_⟩, rfl, rfl, rfl⟩
    simp [Proc.slot, hq]

@[simp] theorem ByPrio.set_get (v : ByPrio α) (i : Prio) : v.set i (v.get i) = v := by
  cases i <;> rfl

@[simp] theorem ByPrio.set_set (v : ByPrio α) (i : Prio) (a b : α) : (v.set i a).set i b = v.set i b := by
  cases i <;> rfl

/-- A switch writes the active context only. -/
theorem switch_eq (w : World) (db : PolicyDb) (p : Proc) (i : Prio) (pident : Ident) (uid : ℕ) :
    ∃ a, peContextSwitch w db p i pident uid = { p with context := p.context.set i a } := by
  rw [peContextSwitch]
  split
  · exact ⟨_, rfl⟩
  · exact ⟨_, rfl⟩

end Slots



/-! ### Effects on one process -/

section Effects

variable {w : World} {db : PolicyDb} {q : Prio}

theorem rounds_borrow (w : World) (db : PolicyDb) (proc : Proc) (conn : ℕ) : Rounds (borrowPrio w db proc conn) := by
  refine rounds_of fun p i => ?_
  rw [borrowPrio]
  split
  · exact .inl rfl
  · rename_i c _
    obtain ⟨a, ha⟩ := switch_eq w db (peProcSaveCtx p i conn) i c.ident p.uid
    rw [ha, peProcSaveCtx]
    split
    · exact .inr ⟨a, p.savedCtx.get i, p.borrowCookie.get i, by simp⟩
    · exact .inr ⟨a, p.context.get i, conn, by simp [Proc.setSaved, Proc.setContext]⟩

theorem rounds_restore (conn : ℕ) : Rounds (peProcRestoreCtx conn) := by
  refine rounds_of fun p i => ?_
  rw [peProcRestoreCtx]
  split
  · exact .inl rfl
  · rename_i c _
    split
    · exact .inl rfl
    · exact .inr ⟨some c, none, p.borrowCookie.get i, by simp [Proc.setSaved, Proc.setContext]⟩

theorem rounds_exec (w : World) (db : PolicyDb) (uid : ℕ) (pident : Ident) : Rounds (execPrio w db uid pident) := by
  refine rounds_of fun p i => ?_
  rw [execPrio]
  split
  · obtain ⟨a, ha⟩ := switch_eq w db p i pident uid
    exact .inr ⟨a, none, p.borrowCookie.get i, by simp [ha, Proc.setSaved]⟩
  · exact .inl rfl

theorem rounds_fork (w : World) (db : PolicyDb) (parent : Option Proc) : Rounds (forkPrio w db parent) := by
  refine rounds_of fun p i => ?_
  rw [forkPrio]
  split
  · rename_i c _
    exact .inr ⟨some c, p.savedCtx.get i, p.borrowCookie.get i, by simp [Proc.setContext]⟩
  · obtain ⟨a, ha⟩ := switch_eq w db p i p.ident p.uid
    exact .inr ⟨a, none, p.borrowCookie.get i, by simp [ha, Proc.setSaved]⟩

theorem rounds_open (w : World) (db : PolicyDb) (msgUid : ℕ) (pident : Ident) :
    Rounds (openPrio w db msgUid pident) := by
  refine rounds_of fun p i => ?_
  rw [openPrio]
  split
  · obtain ⟨a, ha⟩ := switch_eq w db p i pident msgUid
    exact .inr ⟨a, p.savedCtx.get i, p.borrowCookie.get i, by simp [ha]⟩
  · exact .inl rfl

theorem rounds_refresh (w : World) (db : PolicyDb) : Rounds (peContextRefresh w db) := by
  refine rounds_of fun p i => ?_
  rw [peContextRefresh]
  split
  · exact .inr ⟨_, _, p.borrowCookie.get i, by simp [Proc.setSaved, Proc.setContext]; exact ⟨rfl, rfl⟩⟩
  · dsimp only
    split
    · exact .inr ⟨_, p.savedCtx.get i, p.borrowCookie.get i, by simp [Proc.setContext]; rfl⟩
    · exact .inr ⟨_, _, p.borrowCookie.get i, by simp [Proc.setSaved, Proc.setContext]; exact ⟨rfl, rfl⟩⟩

variable (db) in
/-- The first borrow saves the active context under the cookie of the connection, later ones do not
    change what is saved. -/
theorem slot_borrow (proc p : Proc) (conn : ℕ) :
    (borrows w proc p q = none → (peContextBorrow w db proc p conn).slot q = p.slot q) ∧
    (∀ c s, borrows w proc p q = some c → p.savedCtx.get q = some s →
      ∃ a, (peContextBorrow w db proc p conn).slot q = ⟨a, some s, p.borrowCookie.get q⟩) ∧
    ∀ c, borrows w proc p q = some c → p.savedCtx.get q = none →
      ∃ a, (peContextBorrow w db proc p conn).slot q = ⟨a, p.context.get q, conn⟩ := by
  obtain ⟨p', hagree, hslot, -⟩ := (rounds_borrow w db proc conn).foldl p q
  have hslot : (peContextBorrow w db proc p conn).slot q = (borrowPrio w db proc conn p' q).slot q := hslot
  rw [← hagree.borrows, ← hagree.saved, ← hagree.active, hslot,
    show p.borrowCookie.get q = p'.borrowCookie.get q from (congrArg Slot.cookie hagree.slot).symm,
    ← hagree.slot, borrowPrio]
  refine ⟨fun h => by rw [h], fun c s h hs => ?_, fun c h hs => ?_⟩
  · obtain ⟨a, ha⟩ := switch_eq w db (peProcSaveCtx p' q conn) q c.ident p'.uid
    exact ⟨a, by simp only [h]; rw [ha]; simp [peProcSaveCtx, hs, Proc.slot]⟩
  · obtain ⟨a, ha⟩ := switch_eq w db (peProcSaveCtx p' q conn) q c.ident p'.uid
    exact ⟨a, by simp only [h]; rw [ha]; simp [peProcSaveCtx, hs, Proc.slot, Proc.setSaved, Proc.setContext]⟩

/-- Only the connection that saved a context gives it back. -/
theorem slot_restore (p : Proc) (conn : ℕ) : (peContextRestore p conn).slot q =
    match p.savedCtx.get q with
    | none => p.slot q
    | some c => if p.borrowCookie.get q = conn then ⟨some c, none, conn⟩ else p.slot q := by
  obtain ⟨p', hagree, hslot, -⟩ := (rounds_restore conn).foldl p q
  have hcookie : p.borrowCookie.get q = p'.borrowCookie.get q :=
    (congrArg Slot.cookie hagree.slot).symm
  rw [peContextRestore, hslot, ← hagree.saved, hcookie, ← hagree.slot, peProcRestoreCtx]
  cases hs : p'.savedCtx.get q with
  | none => rfl
  | some c =>
    by_cases hc : p'.borrowCookie.get q = conn
    · simp [hc, Proc.slot, Proc.setSaved, Proc.setContext]
    · simp [hc]

/-- An exec that may switch the context drops the saved one. -/
theorem slot_exec (p : Proc) (uid : ℕ) (pident : Ident) (secure : Bool) :
    (peContextDecide w p .new q pident uid = true → ((execProc w db uid pident secure p).slot q).saved = none) ∧
    (peContextDecide w p .new q pident uid ≠ true → (execProc w db uid pident secure p).slot q = p.slot q) := by
  obtain ⟨p', hagree, hslot, -⟩ := (rounds_exec w db uid pident).foldl { p with ident := pident } q
  have hslot : (execProc w db uid pident secure p).slot q = (execPrio w db uid pident p' q).slot q := by
    rw [← hslot, execProc, peContextExec]
    split
    · rfl
    · rfl
  have hdecide : peContextDecide w p' .new q pident uid = peContextDecide w p .new q pident uid :=
    hagree.decide _ _ _
  have hsame : p'.slot q = p.slot q := hagree.slot
  rw [hslot, execPrio, hdecide]
  refine ⟨fun h => ?_, fun h => ?_⟩
  · simp [h, Proc.slot, Proc.setSaved]
  · rw [if_neg h, hsame]

/-- A child has nothing saved. -/
theorem saved_fork (p : Proc) (parent : Option Proc) (h : p.savedCtx.get q = none) :
    ((peContextFork w db p parent).slot q).saved = none := by
  obtain ⟨p', hagree, hslot, -⟩ := (rounds_fork w db parent).foldl p q
  rw [peContextFork, hslot, forkPrio]
  split
  · exact hagree.saved.trans h
  · simp [Proc.slot, Proc.setSaved]

variable (w db) in
/-- Opening a file does not touch what is saved. -/
theorem slot_open (p : Proc) (msgUid : ℕ) (pident : Ident) :
    ∃ a, (peContextOpen w db p msgUid pident).slot q = ⟨a, p.savedCtx.get q, p.borrowCookie.get q⟩ := by
  obtain ⟨p', hagree, hslot, -⟩ := (rounds_open w db msgUid pident).foldl p q
  have hcookie : p.borrowCookie.get q = p'.borrowCookie.get q :=
    (congrArg Slot.cookie hagree.slot).symm
  rw [peContextOpen, hslot, openPrio, ← hagree.saved, hcookie]
  split
  · obtain ⟨a, ha⟩ := switch_eq w db p' q pident msgUid
    exact ⟨a, by rw [ha]; simp [Proc.slot]⟩
  · exact ⟨p'.context.get q, rfl⟩

/-- A context of the process searched again in the ruleset that its uid resolves to. -/
def refreshCtx (w : World) (db : PolicyDb) (p : Proc) (prio : Prio) (c : Ctx) : Ctx :=
  match peUserGetRuleset p.uid prio db with
  | none => ⟨none, none, none, none, c.ident⟩
  | some rs => peContextSearch w rs c.ident p.uid (p.pgid ≠ 0)

theorem norules_some (c : Ctx) : norules (some c) = some ⟨none, none, none, none, c.ident⟩ := by
  rw [norules]
  by_cases h : c.NoRules
  · rw [if_pos h, ← h.1]
    obtain ⟨cr, ca, cs, cc, ci⟩ := c
    obtain ⟨rfl, rfl, rfl, rfl⟩ := h
    rfl
  · rw [if_neg h]

variable (w db) in
theorem slot_refreshPrio (p : Proc) : ∃ a, (peContextRefresh w db p q).slot q =
    ⟨a, (p.savedCtx.get q).map (refreshCtx w db p q), p.borrowCookie.get q⟩ := by
  rw [peContextRefresh]
  cases hrs : peUserGetRuleset p.uid q db with
  | none =>
    refine ⟨norules (p.context.get q), ?_⟩
    have hsaved : norules (p.savedCtx.get q) = (p.savedCtx.get q).map (refreshCtx w db p q) := by
      cases p.savedCtx.get q with
      | none => rfl
      | some c => simp [norules_some, refreshCtx, hrs]
    simp [Proc.slot, Proc.setSaved, Proc.setContext, hsaved]
  | some rs =>
    dsimp only
    cases hs : p.savedCtx.get q with
    | none => exact ⟨_, by simp [Proc.slot, Proc.setContext, hs]; rfl⟩
    | some c => exact ⟨_, by simp [Proc.slot, Proc.setContext, Proc.setSaved, refreshCtx, hrs]; rfl⟩

variable (w db) in
/-- A full reload refreshes what is saved. -/
theorem slot_refreshAll (p : Proc) : ∃ a, (Prio.all.foldl (peContextRefresh w db) p).slot q =
    ⟨a, (p.savedCtx.get q).map (refreshCtx w db p q), p.borrowCookie.get q⟩ := by
  obtain ⟨p', hagree, hslot, -⟩ := (rounds_refresh w db).foldl p q
  obtain ⟨a, ha⟩ := slot_refreshPrio w db (q := q) p'
  refine ⟨a, ?_⟩
  have hcookie : p'.borrowCookie.get q = p.borrowCookie.get q := congrArg Slot.cookie hagree.slot
  have hfun : refreshCtx w db p' q = refreshCtx w db p q := by
    funext c
    rw [refreshCtx, refreshCtx, hagree.uid, hagree.pgid]
  rw [hslot, ha, hagree.saved, hcookie, hfun]

end Effects

/-! ### Effects on the tracker -/

section Tracker

variable {ps : List Proc} {st : PeState} {k : ℕ} {i : Prio}

theorem peProcGet_cons (p : Proc) (ps : List Proc) (k : ℕ) :
    peProcGet k (p :: ps) = if p.taskCookie = k then some p else peProcGet k ps := by
  by_cases h : p.taskCookie = k
  · simp [peProcGet, h]
  · simp [peProcGet, h]

variable {f : Proc → Proc}

theorem peProcGet_modifyProc (hf : ∀ p, (f p).taskCookie = p.taskCookie) (k cookie : ℕ) :
    peProcGet k (modifyProc cookie f ps) =
      if k = cookie then (peProcGet k ps).map f else peProcGet k ps := by
  induction ps with
  | nil => simp [modifyProc, peProcGet]
  | cons p ps ih =>
    rw [modifyProc, peProcGet_cons p ps]
    by_cases hp : p.taskCookie = cookie
    · rw [if_pos hp, peProcGet_cons, hf]
      by_cases hk : p.taskCookie = k
      · rw [if_pos hk, if_pos hk, if_pos (hk.symm.trans hp)]
        rfl
      · rw [if_neg hk, if_neg hk, if_neg fun h => hk (hp.trans h.symm)]
    · rw [if_neg hp, peProcGet_cons, ih]
      by_cases hk : p.taskCookie = k
      · rw [if_pos hk, if_pos hk, if_neg fun h => hp (hk.trans h)]
      · rw [if_neg hk, if_neg hk]

theorem peProcGet_map (hf : ∀ p, (f p).taskCookie = p.taskCookie) (k : ℕ) :
    peProcGet k (ps.map f) = (peProcGet k ps).map f := by
  induction ps with
  | nil => rfl
  | cons p ps ih =>
    rw [List.map_cons, peProcGet_cons, peProcGet_cons, hf, ih]
    split
    · rfl
    · rfl

theorem peProcGet_append (p : Proc) (k : ℕ) :
    peProcGet k (ps ++ [p]) = (peProcGet k ps).or (if p.taskCookie = k then some p else none) := by
  rw [peProcGet, List.find?_append]
  congr 1
  by_cases h : p.taskCookie = k
  · simp [h]
  · simp [h]

/-- The slot of the tracked process, if there is one. -/
theorem slot_of_get {p : Proc} (h : peProcGet k st.tracker = some p) : st.slot k i = p.slot i := by
  rw [PeState.slot, h]

theorem slot_modify (hf : ∀ p, (f p).taskCookie = p.taskCookie) (cookie : ℕ) :
    (st.modify cookie f).slot k i =
      if k = cookie then (match peProcGet k st.tracker with
        | none => ⟨none, none, 0⟩
        | some p => (f p).slot i) else st.slot k i := by
  rw [PeState.slot, PeState.slot, PeState.modify, peProcGet_modifyProc hf]
  by_cases hk : k = cookie
  · rw [if_pos hk, if_pos hk]
    cases peProcGet k st.tracker with
    | none => rfl
    | some p => rfl
  · rw [if_neg hk, if_neg hk]

end Tracker

/-! ### The ledger -/

/-- An open connection. -/
structure Conn where
  source : ℕ
  dest : ℕ
  cookie : ℕ
  deriving DecidableEq

/-- What a process has to get back at one priority: its own context before the first borrow. `conns`
    are the open connections that switched its context since then. -/
structure Loan where
  own : Ctx
  first : ℕ
  conns : List ℕ
  deriving DecidableEq

/-- The connections that are left without this one. -/
def Loan.rest (l : Loan) (conn : ℕ) : List ℕ := l.conns.filter (· ≠ conn)

/-- One more connection switched the context. -/
def Loan.lend (active : Option Ctx) (conn : ℕ) : Option Loan → Option Loan
  | none => active.map (fun own => ⟨own, conn, [conn]⟩)
  | some l => some { l with conns := conn :: l.conns }

/-- A connection is gone; the last one ends the loan. -/
def Loan.giveBack (conn : ℕ) (l : Loan) : Option Loan :=
  if l.rest conn = [] then none else some { l with conns := l.rest conn }

/-- Open connections, all cookies that connections had, and what is lent. -/
structure Ledger where
  conns : List Conn
  used : List ℕ
  loan : ℕ → Prio → Option Loan

def Ledger.empty : Ledger := ⟨[], [], fun _ _ => none⟩

/-- The connection switches the context of its dest. -/
def lends (w : World) (st : PeState) (source dest : ℕ) (prio : Prio) : Bool :=
  match peProcGet source st.tracker, peProcGet dest st.tracker with
  | some proc, some procp => (borrows w proc procp prio).isSome
  | _, _ => false

/-- The exec switches the context of the process. -/
def execs (w : World) (st : PeState) (cookie uid : ℕ) (ident : Ident) (prio : Prio) : Bool :=
  (peProcGet cookie st.tracker).any (fun p => peContextDecide w p .new prio ident uid)

/-- The ruleset of `uid` is the one that the process resolves to. -/
def concerns (db : PolicyDb) (uid : ℕ) (prio : Prio) (p : Proc) : Bool :=
  p.uid = uid || (uid = uidDefault && storedRuleset p.uid prio db = none)

/-- A new ruleset for `uid` refreshes the context: it has to, where it concerns the process, and it may,
    where `pe_proc_update_db_one` selects the process. -/
def reloads (st : PeState) (uid : ℕ) (prio : Prio) (k : ℕ) : Bool :=
  (peProcGet k st.tracker).any (fun p => concerns st.db uid prio p ||
    selected (storedRuleset uid prio st.db) prio uid p)

/-- A context of process `k` refreshed for `db`. -/
def refreshOf (w : World) (db : PolicyDb) (st : PeState) (k : ℕ) (prio : Prio) (c : Ctx) : Ctx :=
  match peProcGet k st.tracker with
  | none => c
  | some p => refreshCtx w db p prio c

/-- What an event does to the ledger. -/
def Ledger.note (w : World) (st : PeState) (l : Ledger) : IpcEvent → Ledger
  | .connect source dest conn =>
    { conns := ⟨source, dest, conn⟩ :: l.conns
      used := conn :: l.used
      loan := fun k i => if k = dest ∧ lends w st source dest i then
        Loan.lend (st.slot k i).active conn (l.loan k i) else l.loan k i }
  | .destroy _ dest conn =>
    { l with
      conns := l.conns.filter (·.cookie ≠ conn)
      loan := fun k i => if k = dest then (l.loan k i).bind (Loan.giveBack conn) else l.loan k i }
  | .exec cookie uid ident _ _ =>
    { l with loan := fun k i => if k = cookie ∧ execs w st cookie uid ident i then none else l.loan k i }
  | .openFile .. => l
  | .fork .. => l
  | .upload rs uid prio =>
    { l with loan := fun k i => if i = prio ∧ reloads st uid prio k then
        (l.loan k i).map (fun L => { L with own := refreshOf w (insertRs rs uid prio st.db) st k i L.own })
      else l.loan k i }
  | .reconfigure db =>
    { l with loan := fun k i =>
        (l.loan k i).map (fun L => { L with own := refreshOf w db st k i L.own }) }

/-- Connections have cookies of their own, and a destroy event names the connection it ends. -/
def Proper (l : Ledger) : IpcEvent → Prop
  | .connect _ _ conn => conn ∉ l.used
  | .destroy source dest conn => ⟨source, dest, conn⟩ ∈ l.conns
  | _ => True

/-- How an event may change what is saved for process `k`: a context is saved by a connect, refreshed
    by a reload, and given back by a destroy event or dropped by an exec. -/
inductive SavedStep (w : World) (st : PeState) (e : IpcEvent) (k : ℕ) (i : Prio) :
    Option Ctx → Option Ctx → Prop
  | keep (s : Option Ctx) : SavedStep w st e k i s s
  | save (source conn : ℕ) (c : Ctx) (he : e = .connect source k conn)
      (hactive : (st.slot k i).active = some c) : SavedStep w st e k i none (some c)
  | refresh (db : PolicyDb) (c : Ctx) (hdb : (ipcStep w st e).db = db)
      (he : e = .reconfigure db ∨ ∃ rs uid, e = .upload rs uid i) :
      SavedStep w st e k i (some c) (some (refreshOf w db st k i c))
  | restore (dest conn : ℕ) (c : Ctx) (he : e = .destroy k dest conn)
      (hactive : ((ipcStep w st e).slot k i).active = some c) : SavedStep w st e k i (some c) none
  | drop (uid : ℕ) (ident : Ident) (pgid : ℕ) (secure : Bool) (c : Ctx)
      (he : e = .exec k uid ident pgid secure) : SavedStep w st e k i (some c) none

/-- Borrowed contexts end with their connection: what is saved is what is lent, and only while a
    connection that lent is open; the last one gives the own context back; and what was saved is given
    back or dropped once. -/
structure Returned (w : World) (st : PeState) (l : Ledger) (e : IpcEvent) : Prop where
  saved : ∀ k i, ((ipcStep w st e).slot k i).saved = ((l.note w st e).loan k i).map (·.own)
  isOpen : ∀ k i L, (l.note w st e).loan k i = some L →
    L.conns ≠ [] ∧ ∀ c ∈ L.conns, ∃ s, ⟨s, k, c⟩ ∈ (l.note w st e).conns
  back : ∀ s d c, e = .destroy s d c → ∀ i L, l.loan d i = some L → c ∈ L.conns → L.rest c = [] →
    ((ipcStep w st e).slot d i).active = some L.own
  once : ∀ k i, SavedStep w st e k i (st.slot k i).saved ((ipcStep w st e).slot k i).saved

/-- When an event keeps the books. The last connection that lent to a process has to have it as its
    source too and to be the one that lent first, and no such connection ends before the others; and a
    reload that concerns a process with a saved context selects it, or has nothing to refresh. -/
def ReturnOk (w : World) (st : PeState) (l : Ledger) : IpcEvent → Prop
  | .destroy source dest conn => ∀ i L, l.loan dest i = some L → conn ∈ L.conns →
      (L.rest conn = [] ↔ source = dest ∧ L.first = conn)
  | .upload rs uid prio => ∀ k p L, peProcGet k st.tracker = some p → l.loan k prio = some L →
      concerns st.db uid prio p = true →
      selected (storedRuleset uid prio st.db) prio uid p = true ∨
        refreshCtx w (insertRs rs uid prio st.db) p prio L.own = L.own
  | _ => True

end Anoubis.Pe

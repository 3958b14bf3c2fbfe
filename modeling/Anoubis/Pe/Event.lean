import Anoubis.Pe.State

/-! Events, scopes and replies shared by the three evaluators (`pe.h`, `pe.c`). -/

namespace Anoubis.Pe

open Anoubis.Apn

/-- `pe_in_scope`. -/
def peInScope (scope : Option Scope) (task now : ℕ) : Bool :=
  match scope with
  | none => true
  | some s =>
    if s.timeout ≠ 0 ∧ s.timeout < now then false
    else if s.task ≠ 0 ∧ task ≠ s.task then false
    else true

/-- `struct pe_file_event`; the two upgrade flags are PE_UPGRADE_TOUCHED and PE_UPGRADE_WRITEOK. -/
structure FileEvent where
  cookie : ℕ
  path : Option Text
  csum : Csum
  amask : ℕ
  uid : ℕ
  upgradeTouched : Bool
  upgradeWriteok : Bool
  deriving DecidableEq

/-- The outcome of an SFS rule (ANOUBIS_SFS_NONE and so on). -/
inductive SfsMatch where
  | none
  | valid
  | invalid
  | unknown
  | default
  deriving DecidableEq

/-- `struct anoubisd_reply`. The priority `none` is -1. -/
structure Reply where
  reply : ℕ
  ask : Bool
  log : Log
  ruleId : ℕ
  prio : Option Prio
  timeout : ℕ
  sfsmatch : SfsMatch
  pident : Option Ident
  ctxident : Option Ident
  deriving DecidableEq

/-- The part of a reply that the kernel and the log see: allowed, denied or asked, and how loud. -/
def Reply.verdict (r : Reply) : ℕ × Bool × Log := (r.reply, r.ask, r.log)

/-- The common tail of the three `pe_decide_*` functions. -/
def decisionReply (proc : Option Proc) (decision : Action) (log : Log) (ruleId : ℕ)
    (prio : Option Prio) (sfsmatch : SfsMatch) : Reply :=
  let ask := decision = .ask
  { reply := if decision = .deny then eperm else 0
    ask := ask
    log := log
    ruleId := ruleId
    prio := prio
    timeout := if ask then 300 else 0
    sfsmatch := sfsmatch
    pident := if ask then proc.map (·.ident) else none
    ctxident := if ask then (prio.bind (peProcGetContext proc)).map (·.ident) else none }

@[simp] theorem verdict_decisionReply (proc : Option Proc) (decision : Action) (log : Log)
    (ruleId : ℕ) (prio : Option Prio) (sfsmatch : SfsMatch) :
    (decisionReply proc decision log ruleId prio sfsmatch).verdict =
      (if decision = .deny then eperm else 0, decide (decision = .ask), log) := rfl

/-- The 32-bit rule ID of a reply. -/
def replyId (id : ℕ) : ℕ := id % 2 ^ 32

/-- The default block for events of a uid that is not the one of the process: the first block
    without applications, where playground-only blocks count inside a playground only. -/
def defaultBlock (ispg : Bool) (queue : List Block) : Option Block :=
  queue.find? (fun b => !(!ispg && b.flags.pgonly) && b.app.isEmpty)

end Anoubis.Pe

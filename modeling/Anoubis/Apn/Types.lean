import Anoubis.Basic
import Mathlib.Tactic.Common

/-! Rules, blocks and rulesets (`apn.h`).

    A ruleset has four queues of blocks, each block a chain of rules. The C structures are linked by
    pointers; here a queue is a list and a block holds its chain. `ptr` is the address of the
    `struct apn_rule`: two rules are the same object iff their addresses agree, and the ID index of
    a ruleset refers to rules by address.

        ruleset ─┬─ alfQueue ── block ── rule, rule, …
                 ├─ sfsQueue
                 ├─ sbQueue
                 └─ ctxQueue          -/

namespace Anoubis.Apn

/-- `enum apn_action_type`. -/
inductive Action where
  | allow
  | deny
  | ask
  | continue
  deriving DecidableEq

/-- `enum apn_log_level`. -/
inductive Log where
  | none
  | normal
  | alert
  deriving DecidableEq

/-- The integer value of a log level. -/
def Log.num : Log → ℕ
  | .none => 0
  | .normal => 1
  | .alert => 2

/-- `if (b > a) a = b`. -/
def Log.raise (a b : Log) : Log := if a.num < b.num then b else a

/-- `enum apn_direction`. -/
inductive NetAccess where
  | connect
  | accept
  | send
  | receive
  | both
  deriving DecidableEq

/-- IPPROTO_TCP, IPPROTO_UDP and IPPROTO_SCTP. -/
inductive Proto where
  | tcp
  | udp
  | sctp
  deriving DecidableEq

def Proto.num : Proto → ℕ
  | .tcp => 6
  | .udp => 17
  | .sctp => 132

/-- APN_ALF_CAPRAW, APN_ALF_CAPOTHER, APN_ALF_CAPALL. -/
inductive Capability where
  | raw
  | other
  | all
  deriving DecidableEq

/-- APN_CTX_NEW, APN_CTX_OPEN, APN_CTX_BORROW. -/
inductive CtxType where
  | new
  | openFile
  | borrow
  deriving DecidableEq

/-- `struct apn_subject`: APN_CS_NONE, APN_CS_UID, APN_CS_KEY, APN_CS_UID_SELF, APN_CS_KEY_SELF. -/
inductive Subject where
  | none
  | uid (uid : ℕ)
  | key (keyid : Text)
  | uidSelf
  | keySelf
  deriving DecidableEq

/-- `struct apn_app`; an application list is a list of these, NULL (any) is the empty list. -/
structure App where
  name : Option Text
  subject : Subject
  deriving DecidableEq

/-- An address of family AF_INET or AF_INET6, the most significant bit first on the wire. -/
inductive Ip where
  | v4 (a : BitVec 32)
  | v6 (a : BitVec 128)
  deriving DecidableEq

/-- `struct apn_addr`: an address and the length of its netmask. -/
structure Addr where
  ip : Ip
  len : ℕ
  deriving DecidableEq

/-- `struct apn_host`. -/
structure Host where
  addr : Addr
  negate : Bool
  deriving DecidableEq

/-- `struct apn_port`, both values in network byte order; `port2 = 0` is a single port. -/
structure Port where
  port : ℕ
  port2 : ℕ
  deriving DecidableEq

/-- `struct apn_afiltspec`. -/
structure AfiltSpec where
  log : Log
  proto : Proto
  netaccess : NetAccess
  fromhost : List Host
  fromport : List Port
  tohost : List Host
  toport : List Port
  deriving DecidableEq

/-- `struct apn_default`. -/
structure Default where
  action : Action
  log : Log
  deriving DecidableEq

/-- `struct apn_scope`. -/
structure Scope where
  timeout : ℕ
  task : ℕ
  deriving DecidableEq

/-- The union `rule` of `struct apn_rule` with its tag, for rules inside a block. -/
inductive Body where
  | alfFilter (action : Action) (spec : AfiltSpec)
  | alfCapability (action : Action) (log : Log) (capability : Capability)
  | default (d : Default)
  | ctxRule (application : List App) (type : CtxType)
  | sfsAccess (path : Option Text) (subject : Subject) (valid invalid unknown : Default)
  | sfsDefault (path : Option Text) (log : Log) (action : Action)
  | sbAccess (path : Option Text) (cs : Subject) (amask : ℕ) (log : Log) (action : Action)
  deriving DecidableEq

/-- A rule inside a block. -/
structure Rule where
  ptr : ℕ
  id : ℕ
  scope : Option Scope
  body : Body
  deriving DecidableEq

/-- APN_ALF, APN_SFS, APN_SB and APN_CTX. -/
inductive Kind where
  | alf
  | sfs
  | sb
  | ctx
  deriving DecidableEq

/-- APN_RULE_NOSFS, APN_RULE_PGFORCE and APN_RULE_PGONLY. -/
structure Flags where
  nosfs : Bool
  pgforce : Bool
  pgonly : Bool
  deriving DecidableEq

def Flags.none : Flags := ⟨false, false, false⟩

/-- A rule of type APN_ALF, APN_SFS, APN_SB or APN_CTX with its chain. -/
structure Block where
  ptr : ℕ
  id : ℕ
  kind : Kind
  app : List App
  flags : Flags
  chain : List Rule
  deriving DecidableEq

/-- One node of the ID index: the key and the address of the rule it belongs to. -/
structure IdEntry where
  key : ℕ
  data : ℕ
  deriving DecidableEq

/-- `struct apn_ruleset`. -/
structure Ruleset where
  ptr : ℕ
  flags : ℕ
  version : ℕ
  maxid : ℕ
  idtree : List IdEntry
  alfQueue : List Block
  sfsQueue : List Block
  sbQueue : List Block
  ctxQueue : List Block
  deriving DecidableEq

/-- APN_FLAG_VERBOSE, APN_FLAG_VERBOSE2, APN_FLAG_NOSCOPE and APN_FLAG_NOASK. -/
def flagVerbose : ℕ := 1
def flagVerbose2 : ℕ := 2
def flagNoscope : ℕ := 4
def flagNoask : ℕ := 8

/-- APN_SBA_READ, APN_SBA_WRITE and APN_SBA_EXEC. -/
def sbaRead : ℕ := 1
def sbaWrite : ℕ := 2
def sbaExec : ℕ := 4

end Anoubis.Apn

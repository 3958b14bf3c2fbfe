import Anoubis.Apn.Types

/-! The printer of the policy language (`apn_print_ruleset` and what it calls).

    `none` is a failure. The flags of the caller are not used by the printer; the check function of
    `apn_print_ruleset_cleaned` is not modelled (`apn_print_ruleset` passes NULL). -/

namespace Anoubis.Apn

/-- The functions of the C library that convert addresses and services. -/
structure Libc where
  inetPton : Text → Option (BitVec 32)
  inetNetPton : Text → Option (BitVec 32 × ℕ)
  getaddrinfo : Text → Option (BitVec 128)
  getservbyname : Text → Text → Option ℕ
  inetNtop : Ip → Text

/-- `%lu`, `%u`, `%hu` and PRIu64. -/
def showNat (n : ℕ) : Text := Nat.toDigits 10 n

/-- `%d`. -/
def showInt (n : ℤ) : Text := if n < 0 then '-' :: showNat n.natAbs else showNat n.toNat

/-- The value of an `unsigned int` as `int`. -/
def toInt32 (n : ℕ) : ℤ := if n < 2 ^ 31 then n else (n : ℤ) - 2 ^ 32

/-- `htons` and `ntohs` on a little endian machine. -/
def swap16 (n : ℕ) : ℕ := n % 256 * 256 + n / 256

/-- APN_PARSER_MKVERSION. -/
def mkVersion (major minor : ℕ) : ℕ := major * 2 ^ 16 + minor

/-- `apn_version`. -/
def apnVersion : ℕ := mkVersion 1 3

/-! ### Parts of rules -/

/-- `apn_print_string`. -/
def apnPrintString (s : Text) : Text :=
  '"' :: s.flatMap (fun c => if c = '"' ∨ c = '\\' then ['\\', c] else [c]) ++ ['"']

/-- `apn_print_subject`. -/
def apnPrintSubject : Subject → Option Text
  | .none => some []
  | .uidSelf => some "self".toList
  | .uid u => if u = uidDefault then none else some ("uid ".toList ++ showInt (toInt32 u))
  | .keySelf => some "signed-self".toList
  | .key keyid => some ("key \"".toList ++ keyid ++ ['"'])

/-- One application of a list. -/
def printApp (a : App) : Option Text := do
  let name ← a.name
  let subject ← apnPrintSubject a.subject
  some (apnPrintString name ++ ' ' :: subject)

/-- The loop of `apn_print_app`. -/
def printApps : List App → Option Text
  | [] => some []
  | [a] => printApp a
  | a :: apps => do
    let t ← printApp a
    let ts ← printApps apps
    some (t ++ ",\n".toList ++ ts)

/-- `apn_print_app`. -/
def apnPrintApp (apps : List App) : Option Text :=
  match apps with
  | [] => some "any".toList
  | [a] => printApp a
  | apps => do
    let ts ← printApps apps
    some ('\x7b' :: ts ++ " \x7d".toList)

/-- `apn_print_scope`. -/
def apnPrintScope (s : Scope) : Text :=
  (if s.task ≠ 0 then " task ".toList ++ showNat s.task else []) ++
    (if s.timeout ≠ 0 then " until ".toList ++ showNat s.timeout else [])

/-- `apn_print_action`. -/
def apnPrintAction : Action → Text
  | .allow => "allow".toList
  | .deny => "deny".toList
  | .ask => "ask".toList
  | .continue => "continue".toList

/-- `apn_print_log`. -/
def apnPrintLog : Log → Text
  | .none => []
  | .normal => "log ".toList
  | .alert => "alert ".toList

/-- `apn_print_netaccess`. -/
def apnPrintNetaccess : NetAccess → Text
  | .connect => "connect ".toList
  | .accept => "accept ".toList
  | .send => "send ".toList
  | .receive => "receive ".toList
  | .both => "both ".toList

/-- `apn_print_proto`. -/
def apnPrintProto : Proto → Text
  | .tcp => "tcp ".toList
  | .udp => "udp ".toList
  | .sctp => "sctp ".toList

/-- `apn_print_address`. -/
def apnPrintAddress (lc : Libc) (a : Addr) : Text :=
  lc.inetNtop a.ip ++ (if a.len ≠ 32 ∧ a.len ≠ 128 then '/' :: showNat a.len else [])

def printHost (lc : Libc) (h : Host) : Text :=
  (if h.negate then ['!'] else []) ++ apnPrintAddress lc h.addr

/-- Items separated by a comma and a blank. -/
def printList {α : Type} (f : α → Text) : List α → Text
  | [] => []
  | [a] => f a
  | a :: as => f a ++ ", ".toList ++ printList f as

/-- The items, in braces if there is more than one. -/
def printBraced {α : Type} (f : α → Text) : List α → Text
  | [a] => f a
  | as => '\x7b' :: printList f as ++ "\x7d ".toList

/-- `apn_print_host`. -/
def apnPrintHost (lc : Libc) : List Host → Text
  | [] => "any".toList
  | hs => printBraced (printHost lc) hs

def printPort (p : Port) : Text :=
  showNat (swap16 p.port) ++ (if p.port2 ≠ 0 then " - ".toList ++ showNat (swap16 p.port2) else [])

/-- `apn_print_port`. -/
def apnPrintPort : List Port → Text
  | [] => []
  | ps => " port ".toList ++ printBraced printPort ps

/-! ### Rules -/

/-- `apn_print_afiltrule`. -/
def apnPrintAfiltrule (lc : Libc) (action : Action) (f : AfiltSpec) : Text :=
  apnPrintAction action ++ ' ' :: apnPrintNetaccess f.netaccess ++ apnPrintLog f.log ++
    apnPrintProto f.proto ++
    (if f.fromhost = [] ∧ f.tohost = [] ∧ f.fromport = [] ∧ f.toport = [] then "all".toList
    else "from ".toList ++ apnPrintHost lc f.fromhost ++ apnPrintPort f.fromport ++ " to ".toList ++
      apnPrintHost lc f.tohost ++ apnPrintPort f.toport)

/-- `apn_print_acaprule`. -/
def apnPrintAcaprule (action : Action) (log : Log) (c : Capability) : Text :=
  apnPrintAction action ++ ' ' :: apnPrintLog log ++
    match c with
    | .raw => "raw".toList
    | .other => "other".toList
    | .all => "all".toList

/-- `apn_print_defaultrule2`. -/
def apnPrintDefaultrule2 (d : Default) (pfx : String) : Text :=
  pfx.toList ++ ' ' :: apnPrintLog d.log ++ apnPrintAction d.action

/-- `apn_print_contextrule`. -/
def apnPrintContextrule (apps : List App) (type : CtxType) : Option Text := do
  let ts ← apnPrintApp apps
  let t := match type with
    | .new => "new "
    | .openFile => "open "
    | .borrow => "borrow "
  some ("context ".toList ++ t.toList ++ ts)

/-- A path or `any` in an SFS rule. -/
def printSfsPath : Option Text → Text
  | some p => "path ".toList ++ apnPrintString p ++ [' ']
  | none => "any ".toList

/-- `apn_print_sfsaccessrule`. -/
def apnPrintSfsaccessrule (path : Option Text) (subject : Subject) (valid invalid unknown : Default) :
    Option Text :=
  if subject = .none then none
  else do
    let s ← apnPrintSubject subject
    some (printSfsPath path ++ s ++ ' ' :: apnPrintDefaultrule2 valid "valid" ++
      ' ' :: apnPrintDefaultrule2 invalid "invalid" ++ ' ' :: apnPrintDefaultrule2 unknown "unknown")

/-- `apn_print_sfsdefaultrule`. -/
def apnPrintSfsdefaultrule (path : Option Text) (log : Log) (action : Action) : Text :=
  "default ".toList ++ printSfsPath path ++ apnPrintLog log ++ apnPrintAction action

/-- APN_SBA_ALL. -/
def sbaAll : ℕ := 7

/-- The access modes as letters. -/
def printMask (amask : ℕ) : Text :=
  (if amask &&& sbaRead ≠ 0 then ['r'] else []) ++ (if amask &&& sbaWrite ≠ 0 then ['w'] else []) ++
    (if amask &&& sbaExec ≠ 0 then ['x'] else [])

/-- `apn_print_sbaccess`. -/
def apnPrintSbaccess (path : Option Text) (cs : Subject) (amask : ℕ) (log : Log) (action : Action) :
    Option Text :=
  if amask &&& sbaAll = 0 then none
  else do
    let pred ← if path = none ∧ cs = .none then some " any".toList
      else do
        let s ← apnPrintSubject cs
        let p := match path with
          | some p => " path ".toList ++ apnPrintString p ++ [' ']
          | none => []
        some (p ++ s)
    some (apnPrintAction action ++ ' ' :: apnPrintLog log ++ pred ++ ' ' :: printMask amask)

/-- The rule types of `apn_print_rule_cleaned` that are no blocks. -/
def printBody (lc : Libc) : Body → Option Text
  | .alfFilter action f => some (apnPrintAfiltrule lc action f)
  | .alfCapability action log c => some (apnPrintAcaprule action log c)
  | .default d => some (apnPrintDefaultrule2 d "default")
  | .ctxRule apps type => apnPrintContextrule apps type
  | .sfsAccess path subject valid invalid unknown =>
    apnPrintSfsaccessrule path subject valid invalid unknown
  | .sfsDefault path log action => some (apnPrintSfsdefaultrule path log action)
  | .sbAccess path cs amask log action => apnPrintSbaccess path cs amask log action

/-- Sandbox rules without permission are skipped. -/
def Body.skipped : Body → Bool
  | .sbAccess _ _ amask _ _ => amask &&& sbaAll = 0
  | _ => false

/-- `apn_print_rule_cleaned` on a rule of a chain. -/
def printRule (lc : Libc) (r : Rule) : Option Text :=
  if r.body.skipped then some []
  else do
    let t ← printBody lc r.body
    let scope := match r.scope with
      | some s => apnPrintScope s
      | none => []
    some (showNat r.id ++ ": ".toList ++ t ++ scope ++ ['\n'])

/-- `apn_print_chain_cleaned`. -/
def printChain {α : Type} (f : α → Option Text) : List α → Option Text
  | [] => some []
  | a :: as => do
    let t ← f a
    let ts ← printChain f as
    some (t ++ ts)

/-- APN_RULE_NOSFS, APN_RULE_PGFORCE and APN_RULE_PGONLY; all are known to version 1.3. -/
def printFlags (f : Flags) : Text :=
  (if f.nosfs then " nosfs".toList else []) ++ (if f.pgforce then " pgforce".toList else []) ++
    (if f.pgonly then " pgonly".toList else [])

/-- `apn_print_rule` on a block. -/
def apnPrintRule (lc : Libc) (b : Block) : Option Text :=
  if b.kind = .sfs then printChain (printRule lc) b.chain
  else do
    let apps ← apnPrintApp b.app
    let chain ← printChain (printRule lc) b.chain
    some (showNat b.id ++ ": ".toList ++ apps ++ printFlags b.flags ++ " \x7b\n".toList ++ chain ++
      "\x7d\n".toList)

/-- One module of `apn_print_ruleset`. -/
def printModule (lc : Libc) (name : String) (queue : List Block) : Option Text := do
  let t ← printChain (apnPrintRule lc) queue
  some (name.toList ++ " \x7b\n".toList ++ t ++ "\x7d\n".toList)

/-- `apn_print_ruleset`. -/
def apnPrintRuleset (lc : Libc) (rs : Ruleset) : Option Text := do
  let alf ← printModule lc "alf" rs.alfQueue
  let sfs ← printModule lc "sfs" rs.sfsQueue
  let sb ← printModule lc "sandbox" rs.sbQueue
  let ctx ← printModule lc "context" rs.ctxQueue
  some ("apnversion 1.3\n".toList ++ alf ++ sfs ++ sb ++ ctx)

end Anoubis.Apn

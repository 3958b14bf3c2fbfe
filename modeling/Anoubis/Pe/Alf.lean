import Anoubis.Pe.Event

/-! ALF decisions (`pe_alf.c`).

    Filter and capability rules are tried in chain order, the first match decides; the first default
    rule is remembered and used if nothing matches. An event without any decision at both priorities
    is denied. -/

namespace Anoubis.Pe

open Anoubis.Apn

/-- ALF_ANY, ALF_CONNECT, ALF_ACCEPT, ALF_SENDMSG and ALF_RECVMSG. -/
inductive AlfOp where
  | any
  | connect
  | accept
  | sendmsg
  | recvmsg
  deriving DecidableEq

/-- AF_INET, AF_INET6 or another address family. -/
inductive Family where
  | inet
  | inet6
  | other
  deriving DecidableEq

/-- The socket types the code tells apart: SOCK_STREAM, SOCK_DGRAM, SOCK_RAW, SOCK_PACKET. -/
inductive SockType where
  | stream
  | dgram
  | raw
  | packet
  | other
  deriving DecidableEq

/-- The address union of an ALF event: the same bytes read as `sockaddr_in` or `sockaddr_in6`. The
    port is in network byte order. -/
structure SockAddr where
  v4 : BitVec 32
  v6 : BitVec 128
  port : ℕ
  deriving DecidableEq

/-- `struct alf_event` with the uid of its header. -/
structure AlfEvent where
  uid : ℕ
  taskCookie : ℕ
  pgid : ℕ
  op : AlfOp
  family : Family
  type : SockType
  protocol : ℕ
  loc : SockAddr
  peer : SockAddr
  deriving DecidableEq

/-! ### Addresses -/

def Ip.family : Ip → Family
  | .v4 _ => .inet
  | .v6 _ => .inet6

/-- `htonl(~0UL << (32 - len))`, in host byte order. -/
def mask4 (len : ℕ) : BitVec 32 := ((BitVec.allOnes 64) <<< (32 - len)).truncate 32

/-- The four words of the mask that `compare_ip6_mask` builds. -/
def maskWords : ℕ → ℕ → List (BitVec 32)
  | 0, _ => []
  | k + 1, bits =>
    if 32 ≤ bits then BitVec.allOnes 32 :: maskWords k (bits - 32)
    else (if 0 < bits then BitVec.allOnes 32 <<< (32 - bits) else 0) :: List.replicate k 0

/-- `s6_addr32`, in host byte order. -/
def words6 (a : BitVec 128) : List (BitVec 32) :=
  [(a >>> 96).truncate 32, (a >>> 64).truncate 32, (a >>> 32).truncate 32, a.truncate 32]

/-- `compare_ip6_mask`. -/
def compareIp6Mask (addr1 addr2 : BitVec 128) (len : ℕ) : Bool :=
  if 128 ≤ len then addr1 = addr2
  else
    let mask := maskWords 4 len
    (List.zipWith (· &&& ·) (words6 addr1) mask) = (List.zipWith (· &&& ·) (words6 addr2) mask)

/-- The comparison of one host entry with a socket address of the same family. -/
def hostMatch (a : Addr) (addr : SockAddr) : Bool :=
  match a.ip with
  | .v4 ip => addr.v4 &&& mask4 a.len = ip &&& mask4 a.len
  | .v6 ip => compareIp6Mask addr.v6 ip a.len

/-- The loop of `pe_addrmatch_host` with its variables `match` and `negate`. -/
def hostLoop (addr : SockAddr) (af : Family) : Bool → Bool → List Host → Bool
  | m, neg, [] => if neg then !m else m
  | m, neg, hp :: hs =>
    if Ip.family hp.addr.ip ≠ af then hostLoop addr af m neg hs
    else
      let neg := hp.negate
      let m := hostMatch hp.addr addr
      if (!neg && m) || (neg && !m) then (if neg then !m else m) else hostLoop addr af m neg hs

/-- `pe_addrmatch_host`. -/
def peAddrmatchHost (host : List Host) (addr : SockAddr) (af : Family) : Bool :=
  if host.isEmpty then true else hostLoop addr af false false host

/-- `pe_addrmatch_port`. -/
def peAddrmatchPort (port : List Port) (addr : SockAddr) (af : Family) : Bool :=
  if port.isEmpty then true
  else port.any (fun pp =>
    match af with
    | .other => false
    | _ => if pp.port2 ≠ 0 then pp.port ≤ addr.port && addr.port ≤ pp.port2
           else addr.port = pp.port)

/-- The common part of `pe_addrmatch_out` and `pe_addrmatch_in`: which side is `from`. -/
def addrmatch (af : Family) (src dst : SockAddr) (f : AfiltSpec) : Bool :=
  peAddrmatchHost f.fromhost src af && peAddrmatchPort f.fromport src af &&
    peAddrmatchHost f.tohost dst af && peAddrmatchPort f.toport dst af

/-- `pe_addrmatch_out`. -/
def peAddrmatchOut (msg : AlfEvent) (f : AfiltSpec) : Bool := addrmatch msg.family msg.loc msg.peer f

/-- `pe_addrmatch_in`. -/
def peAddrmatchIn (msg : AlfEvent) (f : AfiltSpec) : Bool := addrmatch msg.family msg.peer msg.loc f

/-! ### Rules -/

/-- `pe_alf_capmatch`. -/
def peAlfCapmatch (cap : Capability) (type : SockType) : Bool :=
  if type = .stream ∨ type = .dgram then false
  else
    let israw := type = .raw ∨ type = .packet
    match cap with
    | .raw => israw
    | .other => !israw
    | .all => true

/-- `rule.afilt.filtspec.log` of a capability rule. `filtspec` holds pointers and is aligned to
    eight bytes, so this is the third word of the union, which is `acap.capability`. -/
def Capability.asFiltspecLog : Capability → Log
  | .raw => .none
  | .other => .normal
  | .all => .alert

/-- TCP, UDP and SCTP events are subject to filter rules, the others to capability rules. -/
def isFilter (msg : AlfEvent) : Bool :=
  msg.protocol = Proto.udp.num || msg.protocol = Proto.tcp.num || msg.protocol = Proto.sctp.num

/-- Events that every block allows: data on connections and UDP connects. -/
def alwaysAllowed (msg : AlfEvent) : Bool :=
  (msg.op = .sendmsg || msg.op = .recvmsg) &&
      (msg.protocol = Proto.tcp.num || msg.protocol = Proto.sctp.num) ||
    msg.protocol = Proto.udp.num && msg.op = .connect

/-- A filter rule applies to the event. -/
def filterApplies (msg : AlfEvent) (f : AfiltSpec) : Bool :=
  if !isFilter msg then false
  else if msg.type ≠ .stream ∧ msg.type ≠ .dgram then false
  else if msg.protocol ≠ f.proto.num then false
  else match msg.op with
    | .sendmsg | .connect =>
      (f.netaccess = .connect || f.netaccess = .send || f.netaccess = .both) && peAddrmatchOut msg f
    | .recvmsg | .accept =>
      (f.netaccess = .accept || f.netaccess = .receive || f.netaccess = .both) && peAddrmatchIn msg f
    | .any => false

/-- What `pe_alf_evaluate_rule` returns: decision, log level and rule ID. -/
structure AlfResult where
  decision : Option Action
  log : Log
  ruleId : ℕ
  deriving DecidableEq

/-- The loop of `pe_alf_evaluate_rule`; `res` holds the first default rule. -/
def alfLoop (msg : AlfEvent) (now : ℕ) : AlfResult → List Rule → AlfResult
  | res, [] => res
  | res, r :: rs =>
    if !peInScope r.scope msg.taskCookie now then alfLoop msg now res rs
    else match r.body with
      | .default d =>
        if res.decision = none then alfLoop msg now ⟨some d.action, d.log, replyId r.id⟩ rs
        else alfLoop msg now res rs
      | .alfCapability action _ cap =>
        if isFilter msg then alfLoop msg now res rs
        else if !peAlfCapmatch cap msg.type then alfLoop msg now res rs
        else ⟨some action, Capability.asFiltspecLog cap, replyId r.id⟩
      | .alfFilter action f =>
        if !filterApplies msg f then alfLoop msg now res rs
        else ⟨some action, f.log, replyId r.id⟩
      | _ => alfLoop msg now res rs

/-- `pe_alf_evaluate_rule`; `ruleId` is the value the caller passes in. -/
def peAlfEvaluateRule (chain : List Rule) (msg : AlfEvent) (ruleId now : ℕ) : AlfResult :=
  if alwaysAllowed msg then ⟨some .allow, .none, ruleId⟩
  else alfLoop msg now ⟨none, .none, ruleId⟩ chain

/-- The ALF block that applies. -/
def alfBlock (db : PolicyDb) (proc : Option Proc) (prio : Prio) (msg : AlfEvent) : Option Block :=
  if proc.any (fun p => p.uid = msg.uid) then (peProcGetContext proc prio).bind (·.alfrule)
  else (peUserGetRuleset msg.uid prio db).bind (fun rs => defaultBlock (msg.pgid ≠ 0) rs.alfQueue)

/-- `pe_alf_evaluate`. -/
def peAlfEvaluate (db : PolicyDb) (proc : Option Proc) (prio : Prio) (msg : AlfEvent)
    (ruleId now : ℕ) : AlfResult :=
  match alfBlock db proc prio msg with
  | none => ⟨none, .none, ruleId⟩
  | some b => peAlfEvaluateRule b.chain msg ruleId now

/-- The variables of `pe_decide_alf`. -/
structure AlfState where
  decision : Option Action
  log : Log
  ruleId : ℕ
  prio : Option Prio
  deriving DecidableEq

/-- The loop of `pe_decide_alf` over the priorities, given the evaluation at each of them. -/
def alfPrioLoop (eval : Prio → ℕ → AlfResult) : List Prio → AlfState → AlfState
  | [], st => st
  | i :: is, st =>
    let ret := eval i st.ruleId
    let st := if ret.decision ≠ none then
        ⟨ret.decision, st.log.raise ret.log, ret.ruleId, some i⟩
      else { st with ruleId := ret.ruleId }
    if ret.decision = some .deny then st else alfPrioLoop eval is st

/-- `pe_decide_alf`. -/
def peDecideAlf (db : PolicyDb) (proc : Option Proc) (msg : AlfEvent) (now : ℕ) : Reply :=
  let st := alfPrioLoop (fun i ruleId => peAlfEvaluate db proc i msg ruleId now) Prio.all
    ⟨none, .none, 0, none⟩
  match st.decision with
  | none => decisionReply proc .deny .alert st.ruleId st.prio .none
  | some d => decisionReply proc d st.log st.ruleId st.prio .none

end Anoubis.Pe

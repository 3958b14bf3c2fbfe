import Anoubis.Lib.Forall2
import Anoubis.Pe.AddrMatch
import Anoubis.Pe.AlfEvaluate

/-! Rules that answer an ALF escalation (`apn_escalation_rule_alf`).

    From the event and four flags the function makes filter rules for the peer and for the port. The
    matcher has its own view of the two sides of a connection:

        access     rule: peer      port        event: from    to
        connect    to              to          local          peer
        send       to              to          local          peer
        receive    from            from        peer           local
        accept     from            to (local)  peer           local  -/

namespace Anoubis.Pe

open List

open Anoubis.Apn Anoubis.Lib Option

/-! ### The function -/

/-- ALF_EV_ALLPORT, ALF_EV_ALLPEER, ALF_EV_ALLDIR and ALF_EV_ALLPROTO. -/
def evAllport : BitVec 64 := 1
def evAllpeer : BitVec 64 := 2
def evAlldir : BitVec 64 := 4
def evAllproto : BitVec 64 := 8

/-- `flags & flag`. -/
def hasFlag (flags flag : BitVec 64) : Bool := flags &&& flag ≠ 0

/-- `if (flags & flag) flags &= ~flag`. -/
def clearFlag (flags flag : BitVec 64) : BitVec 64 :=
  if hasFlag flags flag then flags &&& ~~~flag else flags

/-- `apn_copy_hosts`, with the number of allocations so far. -/
def apnCopyHosts (alloc : Alloc) : ℕ → List Host → Option (List Host) × ℕ
  | n, [] => (some [], n)
  | n, h :: hs =>
    if (alloc n).isNone then (none, n + 1)
    else
      let res := apnCopyHosts alloc (n + 1) hs
      (res.1.map (h :: ·), res.2)

/-- The protocol of a filter rule. -/
def filterProto : NetAccess → Option Proto
  | .connect => some .tcp
  | .accept => some .tcp
  | .send => some .udp
  | .receive => some .udp
  | .both => none

/-- Where peer and port go in the filter. -/
def peerFilter (log : Log) (proto : Proto) (access : NetAccess) (peer : List Host) (port : List Port) :
    AfiltSpec :=
  match access with
  | .receive => ⟨log, proto, access, peer, port, [], []⟩
  | .accept => ⟨log, proto, access, peer, [], [], port⟩
  | _ => ⟨log, proto, access, [], [], peer, port⟩

/-- `alf_filter_rule`. -/
def alfFilterRule (e : Endian) (alloc : Alloc) (n : ℕ) (action : Default) (access : NetAccess)
    (peer : List Host) (port : ℕ) : Option Rule × ℕ :=
  match filterProto access with
  | none => (none, n)
  | some proto =>
    match alloc n with
    | none => (none, n + 1)
    | some ptr =>
      match apnCopyHosts alloc (n + 1) peer with
      | (none, n) => (none, n)
      | (some peercp, n) =>
        let rule := fun apnport => (⟨ptr, 0, none, .alfFilter action.action
          (peerFilter action.log proto access peercp apnport)⟩ : Rule)
        if port = 0 then (some (rule []), n)
        else if (alloc n).isNone then (none, n + 1)
        else (some (rule [⟨e.ntohs port, 0⟩]), n + 1)

/-- `apn_kerneladdr_to_host`; `af` is the family in the socket address. -/
def apnKerneladdrToHost (alloc : Alloc) (n : ℕ) (addr : SockAddr) (af : Family) : Option Host :=
  if (alloc n).isNone then none
  else match af with
    | .inet => some ⟨⟨.v4 addr.v4, 32⟩, false⟩
    | .inet6 => some ⟨⟨.v6 addr.v6, 128⟩, false⟩
    | .other => none

/-- `apn_extract_port`. -/
def apnExtractPort (e : Endian) (addr : SockAddr) (af : Family) : ℕ :=
  if af = .other then 0 else e.ntohs addr.port

/-- The variables `tcpconnect`, `tcpaccept`, `udpsend` and `udpreceive`. -/
structure Doit where
  tcpconnect : Bool
  tcpaccept : Bool
  udpsend : Bool
  udpreceive : Bool

/-- What the event is, unless it is an error. -/
def Doit.ofEvent (ev : AlfEvent) : Option Doit :=
  if ev.protocol = Proto.tcp.num then
    match ev.op with
    | .connect => some ⟨true, false, false, false⟩
    | .accept => some ⟨false, true, false, false⟩
    | _ => none
  else if ev.protocol = Proto.udp.num then
    match ev.op with
    | .sendmsg => some ⟨false, false, true, false⟩
    | .recvmsg => some ⟨false, false, false, true⟩
    | _ => none
  else none

/-- Both directions of the same protocol. -/
def Doit.alldir (d : Doit) : Doit :=
  ⟨d.tcpconnect || d.tcpaccept, d.tcpconnect || d.tcpaccept, d.udpsend || d.udpreceive,
    d.udpsend || d.udpreceive⟩

/-- The same direction of both protocols. -/
def Doit.allproto (d : Doit) : Doit :=
  ⟨d.tcpconnect || d.udpsend, d.tcpaccept || d.udpreceive, d.tcpconnect || d.udpsend,
    d.tcpaccept || d.udpreceive⟩

/-- The array `doit`. -/
def Doit.list (d : Doit) : List NetAccess :=
  (if d.tcpconnect then [.connect] else []) ++ (if d.tcpaccept then [.accept] else []) ++
    (if d.udpsend then [.send] else []) ++ if d.udpreceive then [.receive] else []

/-- The loop that appends the rules. `first` is the place of the first new rule in the chain. -/
def appendRules (e : Endian) (alloc : Alloc) (action : Default) (peer : List Host) (port : ℕ) :
    ℕ → List NetAccess → List Rule → Option ℕ → Bool × List Rule × Option ℕ
  | _, [], dst, first => (true, dst, first)
  | n, access :: doit, dst, first =>
    match alfFilterRule e alloc n action access peer port with
    | (none, _) => (false, dst, first)
    | (some rule, n) =>
      appendRules e alloc action peer port n doit (dst ++ [rule]) (first.or (some dst.length))

/-- The loop at `err:` removes the first new rule and all behind it. -/
def removeFrom (first : Option ℕ) (dst : List Rule) : List Rule :=
  match first with
  | none => dst
  | some i => dst.take i

/-- The part of `apn_escalation_rule_alf` behind the switches over protocol and operation. The families
    are those in the socket addresses. -/
def escalationRules (e : Endian) (alloc : Alloc) (dst : List Rule) (ev : AlfEvent) (af peerAf : Family)
    (action : Default) (flags : BitVec 64) (doit : Doit) : ℤ × List Rule :=
  let port := if hasFlag flags evAllport then 0
    else if ev.op = .accept then apnExtractPort e ev.loc af
    else apnExtractPort e ev.peer peerAf
  let flags := clearFlag flags evAllport
  let peer := if hasFlag flags evAllpeer then some []
    else (apnKerneladdrToHost alloc 0 ev.peer peerAf).map fun h => [h]
  match peer with
  | none => (-(enomem : ℤ), dst)
  | some peer =>
    let flags := clearFlag flags evAllpeer
    let doit := if hasFlag flags evAlldir then doit.alldir else doit
    let flags := clearFlag flags evAlldir
    let doit := if hasFlag flags evAllproto then doit.allproto else doit
    let flags := clearFlag flags evAllproto
    if flags ≠ 0 then (-(enomem : ℤ), dst)
    else match appendRules e alloc action peer port peer.length doit.list dst none with
      | (true, dst, _) => (0, dst)
      | (false, dst, first) => (-(enomem : ℤ), removeFrom first dst)

/-- IPPROTO_ICMP. -/
def protoIcmp : ℕ := 1

/-- `apn_escalation_rule_alf`. Without memory for a capability rule it dereferences NULL and there is no
    result. -/
def apnEscalationRuleAlf (e : Endian) (alloc : Alloc) (dst : List Rule) (ev : AlfEvent)
    (af peerAf : Family) (action : Default) (flags : BitVec 64) : Option (ℤ × List Rule) :=
  if ev.protocol = protoIcmp then
    if flags ≠ 0 then some (-(einval : ℤ), dst)
    else (alloc 0).map fun ptr =>
      (0, dst ++ [⟨ptr, 0, none, .alfCapability action.action action.log .raw⟩])
  else match Doit.ofEvent ev with
    | none => some (-(einval : ℤ), dst)
    | some doit => some (escalationRules e alloc dst ev af peerAf action flags doit)

/-! ### What the loop appends -/

/-- A rule for one access. -/
def RuleFor (e : Endian) (action : Default) (peer : List Host) (port : ℕ) (access : NetAccess) (r : Rule) :
    Prop :=
  ∃ ptr proto, filterProto access = some proto ∧ r = ⟨ptr, 0, none, .alfFilter action.action
    (peerFilter action.log proto access peer (if port = 0 then [] else [⟨e.ntohs port, 0⟩]))⟩

variable {e : Endian} {alloc : Alloc} {action : Default} {peer : List Host} {port : ℕ}

variable (alloc) in
theorem apnCopyHosts_spec (hs : List Host) : ∀ n, (apnCopyHosts alloc n hs).1 = some hs ∨
    (apnCopyHosts alloc n hs).1 = none ∧ ∃ n, alloc n = none := by
  induction hs with
  | nil => exact fun n => .inl rfl
  | cons h hs ih =>
    intro n
    rw [apnCopyHosts]
    split
    · rename_i hnone
      exact .inr ⟨rfl, n, isNone_iff_eq_none.mp hnone⟩
    · rcases ih (n + 1) with hc | ⟨hc, hn⟩
      · exact .inl (by simp only [hc, map_some])
      · exact .inr ⟨by simp only [hc, map_none], hn⟩

variable (e alloc action peer port) in
/-- One rule, or no memory. -/
theorem alfFilterRule_spec (n : ℕ) {access : NetAccess} (ha : filterProto access ≠ none) :
    (∃ r, (alfFilterRule e alloc n action access peer port).1 = some r ∧ RuleFor e action peer port access r) ∨
    (alfFilterRule e alloc n action access peer port).1 = none ∧ ∃ n, alloc n = none := by
  obtain ⟨proto, hproto⟩ := ne_none_iff_exists'.mp ha
  rw [alfFilterRule]
  simp only [hproto]
  cases hptr : alloc n with
  | none => exact .inr ⟨rfl, n, hptr⟩
  | some ptr =>
    have hcopy := apnCopyHosts_spec alloc peer (n + 1)
    generalize apnCopyHosts alloc (n + 1) peer = res at hcopy ⊢
    obtain ⟨peercp, n'⟩ := res
    rcases hcopy with hc | ⟨hc, hn⟩
    · obtain rfl : peercp = some peer := hc
      dsimp only
      by_cases hp : port = 0
      · rw [if_pos hp]
        exact .inl ⟨_, rfl, ptr, proto, hproto, by rw [if_pos hp]⟩
      · rw [if_neg hp]
        cases hport : alloc n' with
        | none => exact .inr ⟨by simp, n', hport⟩
        | some q => exact .inl ⟨_, by simp; rfl, ptr, proto, hproto, by rw [if_neg hp]⟩
    · obtain rfl : peercp = none := hc
      exact .inr ⟨rfl, hn⟩

variable (e alloc action peer port) in
/-- All rules, or no memory; then the part of the chain in front of the first new rule is what it was. -/
theorem appendRules_spec {doit : List NetAccess} (hdoit : ∀ a ∈ doit, filterProto a ≠ none) :
    ∀ (n : ℕ) (dst added : List Rule),
      let out := appendRules e alloc action peer port n doit (dst ++ added)
        (if added = [] then none else some dst.length)
      (∃ new, out.1 = true ∧ out.2.1 = dst ++ added ++ new ∧
        List.Forall₂ (RuleFor e action peer port) doit new) ∨
      out.1 = false ∧ removeFrom out.2.2 out.2.1 = dst ∧ ∃ n, alloc n = none := by
  induction doit with
  | nil => exact fun n dst added => .inl ⟨[], rfl, by rw [appendRules, append_nil], .nil⟩
  | cons access doit ih =>
    intro n dst added
    have hrule := alfFilterRule_spec e alloc action peer port n (hdoit access mem_cons_self)
    have hrest : ∀ a ∈ doit, filterProto a ≠ none := fun a ha => hdoit a (mem_cons_of_mem _ ha)
    simp only [appendRules]
    generalize alfFilterRule e alloc n action access peer port = res at hrule ⊢
    obtain ⟨rule, n'⟩ := res
    rcases hrule with ⟨r, hr, hfor⟩ | ⟨hr, hn⟩
    · obtain rfl : rule = some r := hr
      have hfirst : (if added = [] then none else some dst.length).or (some (dst ++ added).length) =
          if added ++ [r] = [] then none else some dst.length := by
        cases added <;> simp
      have hih := ih hrest n' dst (added ++ [r])
      simp only [hfirst, append_assoc] at hih ⊢
      rcases hih with ⟨new, h1, h2, hnew⟩ | h
      · exact .inl ⟨r :: new, h1, by simpa using h2, .cons hfor hnew⟩
      · exact .inr h
    · obtain rfl : rule = none := hr
      refine .inr ⟨rfl, ?_, hn⟩
      cases added with
      | nil => simp [removeFrom]
      | cons a added => simp [removeFrom]

/-! ### The rule of the event itself -/

/-- The events that ask: TCP connect and accept, UDP send and receive. -/
inductive Trigger : AlfEvent → NetAccess → Prop
  | connect {ev} (hp : ev.protocol = Proto.tcp.num) (ho : ev.op = .connect) : Trigger ev .connect
  | accept {ev} (hp : ev.protocol = Proto.tcp.num) (ho : ev.op = .accept) : Trigger ev .accept
  | send {ev} (hp : ev.protocol = Proto.udp.num) (ho : ev.op = .sendmsg) : Trigger ev .send
  | receive {ev} (hp : ev.protocol = Proto.udp.num) (ho : ev.op = .recvmsg) : Trigger ev .receive

/-- The host entry for the peer of the event. -/
def peerHost (ev : AlfEvent) : Host :=
  match ev.family with
  | .inet6 => ⟨⟨.v6 ev.peer.v6, 128⟩, false⟩
  | _ => ⟨⟨.v4 ev.peer.v4, 32⟩, false⟩

/-- Two socket addresses of a family are the same host. -/
def SameHost (af : Family) (a b : SockAddr) : Prop :=
  match af with
  | .inet => a.v4 = b.v4
  | .inet6 => a.v6 = b.v6
  | .other => False

theorem peAddrmatchHost_single (h : Host) (addr : SockAddr) (af : Family) :
    peAddrmatchHost [h] addr af = hostHit addr af h := by
  rw [peAddrmatchHost, isEmpty_cons, if_neg Bool.false_ne_true, hostLoop_eq _ _ _ rfl,
    any_cons, any_nil, Bool.or_false]

theorem hostHit_peerHost {ev : AlfEvent} (hf : ev.family ≠ .other) (addr : SockAddr) (af : Family) :
    hostHit addr af (peerHost ev) = true ↔ af = ev.family ∧ SameHost ev.family addr ev.peer := by
  rw [hostHit, Bool.and_eq_true, decide_eq_true_iff]
  cases hfam : ev.family with
  | other => exact absurd hfam hf
  | inet =>
    have hhost : hostMatch (peerHost ev).addr addr = true ↔ addr.v4 = ev.peer.v4 := by
      rw [hostMatch_iff, peerHost, hfam]
      exact samePrefix_all (Nat.le_refl 32)
    simp only [peerHost, hfam, Ip.family, Bool.bne_false, SameHost] at hhost ⊢
    rw [hhost, eq_comm]
  | inet6 =>
    have hhost : hostMatch (peerHost ev).addr addr = true ↔ addr.v6 = ev.peer.v6 := by
      rw [hostMatch_iff, peerHost, hfam]
      exact samePrefix_all (Nat.le_refl 128)
    simp only [peerHost, hfam, Ip.family, Bool.bne_false, SameHost] at hhost ⊢
    rw [hhost, eq_comm]

theorem peAddrmatchPort_single {p : ℕ} (addr : SockAddr) {af : Family} (haf : af ≠ .other) :
    peAddrmatchPort [⟨p, 0⟩] addr af = true ↔ addr.port = p := by
  rw [peAddrmatchPort]
  cases af with
  | other => exact absurd rfl haf
  | inet => simp
  | inet6 => simp

/-- Connect and send go out, accept and receive come in. -/
def outgoing : AlfOp → Option Bool
  | .connect => some true
  | .sendmsg => some true
  | .accept => some false
  | .recvmsg => some false
  | .any => none

/-- The side of an event that a rule for `ev` compares its port with. -/
def portSide (ev msg : AlfEvent) : SockAddr := if ev.op = .accept then msg.loc else msg.peer

theorem peAddrmatchHost_nil (addr : SockAddr) (af : Family) : peAddrmatchHost [] addr af = true := rfl

theorem peAddrmatchPort_nil (addr : SockAddr) (af : Family) : peAddrmatchPort [] addr af = true := rfl

/-- What a filter rule for the event matches. -/
theorem filterApplies_peerFilter {ev msg : AlfEvent} {access : NetAccess} {proto : Proto} {log : Log}
    {peer : List Host} {port : List Port} (ht : Trigger ev access) (hp : filterProto access = some proto) :
    filterApplies msg (peerFilter log proto access peer port) = true ↔
      (msg.type = .stream ∨ msg.type = .dgram) ∧ msg.protocol = ev.protocol ∧
        outgoing msg.op = outgoing ev.op ∧ peAddrmatchHost peer msg.peer msg.family = true ∧
        peAddrmatchPort port (portSide ev msg) msg.family = true := by
  have hproto : ev.protocol = proto.num := by
    cases ht <;> · rw [← some.inj hp]; assumption
  have hfilter : msg.protocol = proto.num → isFilter msg = true := by
    intro h
    cases ht <;> simp [isFilter, h, ← some.inj hp]
  rw [filterApplies, hproto]
  by_cases hpr : msg.protocol = proto.num
  · have hnet : (peerFilter log proto access peer port).netaccess = access := by cases access <;> rfl
    have hpf : (peerFilter log proto access peer port).proto = proto := by cases access <;> rfl
    rw [hfilter hpr, hpf, hnet]
    by_cases htype : msg.type = .stream ∨ msg.type = .dgram
    · have hno : ¬ (msg.type ≠ .stream ∧ msg.type ≠ .dgram) := by tauto
      simp only [Bool.not_true, Bool.false_eq_true, if_false, hno, hpr, ne_eq, not_true_eq_false, htype, true_and]
      cases ht <;> rename_i ho <;> cases msg.op <;>
        simp [outgoing, ho, portSide, peAddrmatchOut, peAddrmatchIn, addrmatch, peerFilter,
          peAddrmatchHost_nil, peAddrmatchPort_nil]
    · have hno : msg.type ≠ .stream ∧ msg.type ≠ .dgram := by tauto
      simp [hno]
  · have hpf : (peerFilter log proto access peer port).proto = proto := by cases access <;> rfl
    simp [hpr, hpf]

/-- The rule alone decides the event as asked for. -/
theorem evaluate_single {ev : AlfEvent} {r : Rule} {action : Default} {f : AfiltSpec}
    (hbody : r.body = .alfFilter action.action f) (hlog : f.log = action.log) (hscope : r.scope = none)
    (hid : r.id = 0) (hmatch : filterApplies ev f = true) (halways : alwaysAllowed ev = false) (ruleId now : ℕ) :
    peAlfEvaluateRule [r] ev ruleId now = ⟨some action.action, action.log, 0⟩ := by
  have hhit : alfHit ev now r = true := by
    rw [alfHit, hscope, hbody]
    simpa [peInScope] using hmatch
  rw [peAlfEvaluateRule_eq [r] ruleId halways, firstMatch_cons_hit hhit, elim_some, alfResult,
    alfAction, alfCodeLog, alfLog, hbody, hid, replyId]
  simp only [hlog]
  rfl

theorem Trigger.alwaysAllowed {ev : AlfEvent} {access : NetAccess} (h : Trigger ev access) :
    alwaysAllowed ev = false := by
  cases h <;> rename_i hp ho <;> simp [Pe.alwaysAllowed, hp, ho, Proto.num]

theorem Trigger.protocol {ev : AlfEvent} {access : NetAccess} (h : Trigger ev access) : ev.protocol ≠ protoIcmp := by
  cases h <;> rename_i hp ho <;> simp [protoIcmp, hp, Proto.num]

theorem Trigger.filterProto {ev : AlfEvent} {access : NetAccess} (h : Trigger ev access) :
    filterProto access ≠ none := by
  cases h <;> simp [Pe.filterProto]

/-! ### The flags -/

/-- A subset of the four flags. -/
def flagsOf (allport allpeer alldir allproto : Bool) : BitVec 64 :=
  (if allport then evAllport else 0) ||| (if allpeer then evAllpeer else 0) |||
    (if alldir then evAlldir else 0) ||| if allproto then evAllproto else 0

theorem flags_allport (p q d t : Bool) : hasFlag (flagsOf p q d t) evAllport = p ∧
    clearFlag (flagsOf p q d t) evAllport = flagsOf false q d t := by
  cases p <;> cases q <;> cases d <;> cases t <;> decide

theorem flags_allpeer (q d t : Bool) : hasFlag (flagsOf false q d t) evAllpeer = q ∧
    clearFlag (flagsOf false q d t) evAllpeer = flagsOf false false d t := by
  cases q <;> cases d <;> cases t <;> decide

theorem flags_alldir (d t : Bool) : hasFlag (flagsOf false false d t) evAlldir = d ∧
    clearFlag (flagsOf false false d t) evAlldir = flagsOf false false false t := by
  cases d <;> cases t <;> decide

theorem flags_allproto (t : Bool) : hasFlag (flagsOf false false false t) evAllproto = t ∧
    clearFlag (flagsOf false false false t) evAllproto = 0 := by
  cases t <;> decide

theorem flagsOf_eq_zero {p q d t : Bool} (h : flagsOf p q d t = 0) :
    p = false ∧ q = false ∧ d = false ∧ t = false := by
  revert p q d t
  decide

theorem ntohs_ntohs (e : Endian) {n : ℕ} (h : n < 2 ^ 16) : e.ntohs (e.ntohs n) = n := by
  cases e with
  | big => rfl
  | little => exact swap16_swap16 h

/-- The accesses that rules are made for. -/
def wanted (doit : Doit) (alldir allproto : Bool) : List NetAccess :=
  let doit := if alldir then doit.alldir else doit
  (if allproto then doit.allproto else doit).list

theorem Trigger.doit {ev : AlfEvent} {access : NetAccess} (h : Trigger ev access) :
    ∃ doit, Doit.ofEvent ev = some doit ∧ doit.list = [access] ∧
      ∀ d t, access ∈ wanted doit d t ∧ ∀ a ∈ wanted doit d t, Pe.filterProto a ≠ none := by
  cases h with
  | connect hp ho =>
    refine ⟨⟨true, false, false, false⟩, by simp [Doit.ofEvent, hp, ho], rfl, ?_⟩
    intro d t
    cases d <;> cases t <;> decide
  | accept hp ho =>
    refine ⟨⟨false, true, false, false⟩, by simp [Doit.ofEvent, hp, ho], rfl, ?_⟩
    intro d t
    cases d <;> cases t <;> decide
  | send hp ho =>
    refine ⟨⟨false, false, true, false⟩, by simp [Doit.ofEvent, hp, ho, Proto.num], rfl, ?_⟩
    intro d t
    cases d <;> cases t <;> decide
  | receive hp ho =>
    refine ⟨⟨false, false, false, true⟩, by simp [Doit.ofEvent, hp, ho, Proto.num], rfl, ?_⟩
    intro d t
    cases d <;> cases t <;> decide

variable (e alloc action) in
/-- The rules of an event for a subset of the flags: one for each access, or no memory. -/
theorem escalation_rules {ev : AlfEvent} {access : NetAccess} (ht : Trigger ev access)
    (hf : ev.family ≠ .other) (dst : List Rule) (p q d t : Bool) :
    ∃ doit, Doit.ofEvent ev = some doit ∧ doit.list = [access] ∧
      ((∃ new, apnEscalationRuleAlf e alloc dst ev ev.family ev.family action (flagsOf p q d t) =
          some (0, dst ++ new) ∧ access ∈ wanted doit d t ∧
        List.Forall₂ (RuleFor e action (if q then [] else [peerHost ev])
          (if p then 0 else e.ntohs (portSide ev ev).port)) (wanted doit d t) new) ∨
      apnEscalationRuleAlf e alloc dst ev ev.family ev.family action (flagsOf p q d t) =
          some (-(enomem : ℤ), dst) ∧ ∃ n, alloc n = none) := by
  obtain ⟨doit, hdoit, hone, hwanted⟩ := ht.doit
  refine ⟨doit, hdoit, hone, ?_⟩
  rw [apnEscalationRuleAlf, if_neg ht.protocol, hdoit]
  simp only [escalationRules, flags_allport, flags_allpeer, flags_alldir, flags_allproto, ne_eq,
    not_true_eq_false, if_false]
  have hport : (if p then 0 else if ev.op = .accept then apnExtractPort e ev.loc ev.family
      else apnExtractPort e ev.peer ev.family) = if p then 0 else e.ntohs (portSide ev ev).port := by
    simp only [apnExtractPort, if_neg hf, portSide]
    split
    · rfl
    · split <;> rfl
  have hpeer : (if q then some [] else
      (apnKerneladdrToHost alloc 0 ev.peer ev.family).map fun h => [h]) = none ∧ (∃ n, alloc n = none) ∨
      (if q then some [] else (apnKerneladdrToHost alloc 0 ev.peer ev.family).map fun h => [h]) =
        some (if q then [] else [peerHost ev]) := by
    cases q with
    | true => exact .inr rfl
    | false =>
      simp only [Bool.false_eq_true, if_false, apnKerneladdrToHost]
      cases ha : alloc 0 with
      | none => exact .inl ⟨rfl, 0, ha⟩
      | some a =>
        refine .inr ?_
        cases hfam : ev.family with
        | other => exact absurd hfam hf
        | inet => simp [peerHost, hfam]
        | inet6 => simp [peerHost, hfam]
  rw [hport]
  rcases hpeer with ⟨hpeer, hn⟩ | hpeer
  · rw [hpeer]
    exact .inr ⟨rfl, hn⟩
  · rw [hpeer]
    dsimp only
    have hlist : (if t then (if d then doit.alldir else doit).allproto
        else if d then doit.alldir else doit).list = wanted doit d t := rfl
    rw [hlist]
    have hloop := appendRules_spec e alloc action (if q then [] else [peerHost ev])
      (if p then 0 else e.ntohs (portSide ev ev).port) (hwanted d t).2 (if q then [] else [peerHost ev]).length dst []
    simp only [append_nil, if_true] at hloop
    generalize appendRules e alloc action _ _ _ _ dst none = out at hloop ⊢
    obtain ⟨ok, dst', first⟩ := out
    rcases hloop with ⟨new, hok, hdst, hnew⟩ | ⟨hok, hdst, hn⟩
    · obtain rfl : ok = true := hok
      obtain rfl : dst' = dst ++ new := hdst
      exact .inl ⟨new, rfl, (hwanted d t).1, hnew⟩
    · obtain rfl : ok = false := hok
      exact .inr ⟨by simp only [hdst], hn⟩

/-! ### The rules cover the event -/

/-- A rule for the access of the event matches it, with and without peer and port. -/
theorem ruleFor_matches {ev : AlfEvent} {access : NetAccess} (ht : Trigger ev access)
    (hf : ev.family ≠ .other) (htype : ev.type = .stream ∨ ev.type = .dgram)
    (hport : (portSide ev ev).port < 2 ^ 16) {p q : Bool} {r : Rule}
    (hr : RuleFor e action (if q then [] else [peerHost ev])
      (if p then 0 else e.ntohs (portSide ev ev).port) access r) (ruleId now : ℕ) :
    peAlfEvaluateRule [r] ev ruleId now = ⟨some action.action, action.log, 0⟩ := by
  obtain ⟨ptr, proto, hproto, rfl⟩ := hr
  refine evaluate_single rfl (by cases access <;> rfl) rfl rfl ?_ ht.alwaysAllowed ruleId now
  rw [filterApplies_peerFilter ht hproto]
  refine ⟨htype, rfl, rfl, ?_, ?_⟩
  · cases q with
    | true => rfl
    | false =>
      rw [if_neg Bool.false_ne_true, peAddrmatchHost_single, hostHit_peerHost hf]
      refine ⟨rfl, ?_⟩
      cases hfam : ev.family with
      | other => exact absurd hfam hf
      | inet => rfl
      | inet6 => rfl
  · by_cases hz : (if p = true then 0 else e.ntohs (portSide ev ev).port) = 0
    · rw [if_pos hz]
      rfl
    · rw [if_neg hz]
      cases p with
      | true => simp at hz
      | false => rw [if_neg Bool.false_ne_true, peAddrmatchPort_single _ hf, ntohs_ntohs e hport]

/-- A rule made without flags matches only events of the same protocol and direction, from or to the
    same host, and with the same port if the event has one. -/
theorem ruleFor_specific {ev msg : AlfEvent} {access : NetAccess} (ht : Trigger ev access)
    (hf : ev.family ≠ .other) (hport : (portSide ev ev).port < 2 ^ 16) {r : Rule} {now : ℕ}
    (hr : RuleFor e action [peerHost ev] (e.ntohs (portSide ev ev).port) access r)
    (hmatch : alfHit msg now r = true) :
    msg.protocol = ev.protocol ∧ outgoing msg.op = outgoing ev.op ∧ msg.family = ev.family ∧
      SameHost ev.family msg.peer ev.peer ∧
      ((portSide ev ev).port = 0 ∨ (portSide ev msg).port = (portSide ev ev).port) := by
  obtain ⟨ptr, proto, hproto, rfl⟩ := hr
  rw [alfHit, Bool.and_eq_true] at hmatch
  obtain ⟨-, hproto', hdir, hhost, hp⟩ := (filterApplies_peerFilter ht hproto).mp hmatch.2
  rw [peAddrmatchHost_single, hostHit_peerHost hf] at hhost
  refine ⟨hproto', hdir, hhost.1, hhost.2, ?_⟩
  split at hp
  · rename_i hz
    refine .inl ?_
    have h0 : e.ntohs (portSide ev ev).port = e.ntohs 0 := by
      rw [hz]
      cases e <;> rfl
    exact (e.ntohs_inj hport (by decide)).mp h0
  · rw [peAddrmatchPort_single _ (hhost.1 ▸ hf), ntohs_ntohs e hport] at hp
    exact .inr hp

/-- For every event that asks and every subset of the flags: rules are appended, one of which decides
    the event as the user wants; without flags it is a single rule, and it is for this operation, this
    peer and this port (if there is one). Or there is no memory and the chain is what it was. -/
theorem escalation_covers {ev : AlfEvent} {access : NetAccess} {af peerAf : Family}
    (ht : Trigger ev access) (htype : ev.type = .stream ∨ ev.type = .dgram) (hf : ev.family ≠ .other)
    (haf : af = ev.family) (hpeer : peerAf = ev.family)
    (hports : ev.loc.port < 2 ^ 16 ∧ ev.peer.port < 2 ^ 16) (dst : List Rule)
    (allport allpeer alldir allproto : Bool) :
    (∃ new, apnEscalationRuleAlf e alloc dst ev af peerAf action (flagsOf allport allpeer alldir allproto) =
        some (0, dst ++ new) ∧
      (∃ r ∈ new, ∀ ruleId now,
        peAlfEvaluateRule [r] ev ruleId now = ⟨some action.action, action.log, 0⟩) ∧
      (flagsOf allport allpeer alldir allproto = 0 → ∃ r, new = [r] ∧ ∀ msg now, alfHit msg now r = true →
        msg.protocol = ev.protocol ∧ outgoing msg.op = outgoing ev.op ∧ msg.family = ev.family ∧
          SameHost ev.family msg.peer ev.peer ∧
          ((portSide ev ev).port = 0 ∨ (portSide ev msg).port = (portSide ev ev).port))) ∨
    apnEscalationRuleAlf e alloc dst ev af peerAf action (flagsOf allport allpeer alldir allproto) =
        some (-(enomem : ℤ), dst) ∧ ∃ n, alloc n = none := by
  subst haf hpeer
  have hport : (portSide ev ev).port < 2 ^ 16 := by
    rw [portSide]
    split
    · exact hports.1
    · exact hports.2
  obtain ⟨doit, -, hone, ⟨new, hrun, hmem, hnew⟩ | hfail⟩ := escalation_rules e alloc
    action ht hf dst allport allpeer alldir allproto
  · refine .inl ⟨new, hrun, ?_, fun h0 => ?_⟩
    · obtain ⟨r, hr, hfor⟩ := Lib.forall₂_right hnew hmem
      exact ⟨r, hr, fun ruleId now => ruleFor_matches ht hf htype hport hfor ruleId now⟩
    · obtain ⟨rfl, rfl, rfl, rfl⟩ := flagsOf_eq_zero h0
      have hsingle : wanted doit false false = [access] := hone
      rw [hsingle] at hnew
      obtain ⟨r, rest, hfor, hrest, rfl⟩ := List.forall₂_cons_left_iff.mp hnew
      rw [List.forall₂_nil_left_iff] at hrest
      exact ⟨r, by rw [hrest], fun msg now hmatch => ruleFor_specific ht hf hport hfor hmatch⟩
  · exact .inr hfail

/-- An accept on port 22 from 10.0.0.1. -/
def acceptMsg : AlfEvent :=
  ⟨1000, 7, 0, .accept, .inet, .stream, 6, ⟨0, 0, swap16 22⟩, ⟨0x0a000001, 0, swap16 4711⟩⟩

theorem escalation_covers_accept :
    (∃ new, apnEscalationRuleAlf .little (fun n => some (n + 100)) [] acceptMsg .inet .inet
        ⟨.allow, .normal⟩ (flagsOf false false true false) = some (0, [] ++ new) ∧
      (∃ r ∈ new, ∀ ruleId now,
        peAlfEvaluateRule [r] acceptMsg ruleId now = ⟨some .allow, .normal, 0⟩) ∧
      (flagsOf false false true false = 0 → ∃ r, new = [r] ∧ ∀ msg now, alfHit msg now r = true →
        msg.protocol = acceptMsg.protocol ∧ outgoing msg.op = outgoing acceptMsg.op ∧
          msg.family = acceptMsg.family ∧ SameHost acceptMsg.family msg.peer acceptMsg.peer ∧
          ((portSide acceptMsg acceptMsg).port = 0 ∨
            (portSide acceptMsg msg).port = (portSide acceptMsg acceptMsg).port))) ∨
    apnEscalationRuleAlf .little (fun n => some (n + 100)) [] acceptMsg .inet .inet
        ⟨.allow, .normal⟩ (flagsOf false false true false) = some (-(enomem : ℤ), []) ∧
      ∃ n : ℕ, (fun n => some (n + 100)) n = (none : Option ℕ) :=
  @escalation_covers .little (fun n => some (n + 100)) ⟨.allow, .normal⟩ acceptMsg .accept .inet .inet
    (.accept rfl rfl) (.inl rfl) (by decide) rfl rfl (by decide) [] false false true false

end Anoubis.Pe

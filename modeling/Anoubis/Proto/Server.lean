import Anoubis.Proto.Comm

/-! The server end of a connection (`anoubis_server.c`).

    A connection starts in the connect protocol: hello, version, options, authentication, and then the
    selection of the policy or the notify protocol, or of both. Either side may ask to close.

        CONNECT --VERSEL--> --AUTH, AUTHDATA, finish_callback--> --PROTOSEL--> POLICY, NOTIFY
           ▲                                                                      │
           └───────────────────── CLOSEREQ, CLOSEACK: proto &= NOTIFY ────────────┘

    Dispatchers and the table of requests belong to the caller: `anoubisServerProcess` says whom it calls
    last. `auth_private` is the caller's as well, of type `P`. `trace` records what was received, what was
    put on the channel, and the steps of the connection that were taken. Out of memory is left out. -/

namespace Anoubis.Connection

open Anoubis.Lib Anoubis.Proto

abbrev Bytes := List UInt8

/-! ### Messages -/

/-- `get_value` of an u32n: network byte order. -/
def u32 (buf : Bytes) (off : ℕ) : ℕ :=
  16777216 * (buf.getD off 0).toNat + 65536 * (buf.getD (off + 1) 0).toNat +
    256 * (buf.getD (off + 2) 0).toNat + (buf.getD (off + 3) 0).toNat

/-- `get_value` of an u16n. -/
def u16 (buf : Bytes) (off : ℕ) : ℕ := 256 * (buf.getD off 0).toNat + (buf.getD (off + 1) 0).toNat

def csumLen : ℕ := 4

/-- VERIFY_LENGTH and VERIFY_FIELD: the message holds its first `len` bytes and the checksum. -/
def verifyLength (buf : Bytes) (len : ℕ) : Bool := decide (len + csumLen ≤ buf.length)

/-- `m.u.token->token`; the server does not look into it. -/
def tokenOf (buf : Bytes) : Bytes := (buf.drop 4).take 8

def noToken : Bytes := List.replicate 8 0

/-- The bytes of a string list message. -/
def stringlist (buf : Bytes) : Bytes := (buf.drop 4).take (buf.length - csumLen - 4)

/-- A string of the source, without its NUL. -/
def ascii (s : String) : Bytes := s.toList.map (fun c => c.toNat.toUInt8)

def protoVersion : ℕ := 8

/-- The opcodes that `anoubis_server_process` tells apart. -/
inductive Opcode where
  | reply
  | versel
  | auth
  | authdata
  | optreq
  | protosel
  | closereq
  | closeack
  | request
  | version
  | register
  | unregister
  | delegate
  /-- Those the server itself sends. -/
  | notAllowed
  | other
  deriving DecidableEq

def cAuthdata : ℕ := 0x2011
def cClosereq : ℕ := 0x2030
def cCloseack : ℕ := 0x2031

/-- ANOUBIS_N_ASK, ANOUBIS_N_NOTIFY, ANOUBIS_N_LOGNOTIFY, ANOUBIS_N_RESYOU, ANOUBIS_N_RESOTHER,
    ANOUBIS_N_POLICYCHANGE, ANOUBIS_N_STATUSNOTIFY, ANOUBIS_P_REPLY, ANOUBIS_P_VERSIONREPLY and
    ANOUBIS_P_LISTREP. -/
def fromServer : List ℕ :=
  [0x4010, 0x4014, 0x4015, 0x4012, 0x4013, 0x4016, 0x4017, 0x3801, 0x3901, 0x3A01]

/-- The values of `anoubis_protocol.h`. -/
def opcodes : List (ℕ × Opcode) :=
  [(0x1000, .reply), (0x2001, .versel), (0x2010, .auth), (cAuthdata, .authdata), (0x2020, .optreq),
    (0x2022, .protosel), (cClosereq, .closereq), (cCloseack, .closeack), (PolicyComm.pRequest, .request),
    (0x3900, .version), (0x4000, .register), (0x4001, .unregister), (0x4011, .delegate)]

def Opcode.decode (n : ℕ) : Opcode :=
  match opcodes.find? (fun x => x.1 == n) with
  | some (_, op) => op
  | none => if n ∈ fromServer then .notAllowed else .other

/-- ANOUBIS_IS_NOTIFY. -/
def isNotify (n : ℕ) : Bool := decide (0x4000 ≤ n ∧ n ≤ 0x4FFF)

/-- What the server puts on its channel. -/
inductive Out where
  | hello
  | reply (token : Bytes) (opcode error : ℕ)
  | optack (multiplex : Bool)
  | authreply (error uid : ℕ)
  | closereq
  | closeack
  | versionreply (error : ℤ)
  /-- A message of another module. -/
  | other
  deriving DecidableEq

/-! ### The server object -/

/-- `server->proto`: the bits ANOUBIS_PROTO_POLICY and ANOUBIS_PROTO_NOTIFY. -/
structure Protos where
  policy : Bool
  notify : Bool
  deriving DecidableEq

/-- ANOUBIS_PROTO_CONNECT. -/
def Protos.connect : Protos := ⟨false, false⟩

/-- ANOUBIS_AUTH_INIT, SUCCESS, FAILURE and INPROGRESS. -/
inductive AuthState where
  | init
  | success
  | failure
  | inprogress
  deriving DecidableEq

/-- `struct anoubis_auth`. -/
structure Auth (P : Type) where
  state : AuthState
  authType : Option ℕ
  error : ℕ
  uid : ℕ
  authPrivate : Option P
  deriving DecidableEq

/-- `anoubis_auth_create`. -/
def Auth.create {P : Type} : Auth P := ⟨.init, none, 0, uidDefault, none⟩

inductive Event where
  /-- A message passed the first checks of `anoubis_server_process`. -/
  | recv (opcode : ℕ)
  /-- A message was put on the channel. -/
  | sent (m : Out)
  /-- The version was selected. -/
  | versel
  /-- The authentication succeeded. -/
  | auth (uid : ℕ)
  /-- The protocols were selected. -/
  | protosel (p : Protos)
  /-- `anoubis_policy_comm_process` was called with this uid. -/
  | policy (uid : ℕ)
  /-- A dispatcher was called with this uid. -/
  | dispatch (opcode uid : ℕ)
  /-- `anoubis_notify_register` or `anoubis_notify_unregister` was called. -/
  | register
  /-- `anoubis_notify_answer` was called. -/
  | answer
  /-- The channel was closed. -/
  | closed
  deriving DecidableEq

/-- `struct anoubis_server`, with its connect_flags; `fd` says whether the channel's descriptor is open,
    `chan` whether the server still points to the channel. -/
structure Server (P : Type) where
  proto : Protos
  versel : Bool
  flagAuth : Bool
  multiplex : Bool
  hellosent : Bool
  gotclosereq : Bool
  sentclosereq : Bool
  gotcloseack : Bool
  sentcloseack : Bool
  flagError : Bool
  authUid : ℕ
  chan : Bool
  fd : Bool
  auth : Option (Auth P)
  notify : Bool
  dispatch : List ℕ
  trace : List Event
  deriving DecidableEq

variable {P : Type}

/-- `anoubis_server_create`. -/
def Server.create : Server P :=
  ⟨Protos.connect, false, false, false, false, false, false, false, false, false, uidDefault, true, true, none,
    false, [], []⟩

def Server.emit (s : Server P) (x : Event) : Server P := { s with trace := s.trace ++ [x] }

/-- What the modules around answer, by the number of events so far: `acc_sendmsg` may fail, and the notify
    group may refuse. -/
structure Env where
  /-- `anoubis_msg_verify` and `crc32_check`. -/
  valid : Bytes → Bool
  sendmsg : ℕ → Bool
  notify : ℕ → Bool

/-- `channel_close`, up to `anoubis_policy_comm_destroy`, which is the caller's. -/
def channelClose (s : Server P) : Server P :=
  if s.chan then { s with chan := false, fd := false }.emit .closed else s

/-- `acc_sendmsg`: nothing leaves on a descriptor that is closed. -/
def accSendmsg (env : Env) (s : Server P) (m : Out) : Bool × Server P :=
  if s.fd then (env.sendmsg s.trace.length, s.emit (.sent m)) else (false, s)

/-- `anoubis_server_send` behind the CLOSEACK. -/
def sendLast (s : Server P) : ℤ × Server P := (0, if s.gotcloseack then channelClose s else s)

/-- `anoubis_server_send`, with its one recursive call. -/
def anoubisServerSend (env : Env) (s : Server P) (m : Out) : ℤ × Server P :=
  let r := if s.chan then accSendmsg env s m else (false, s)
  if !r.1 then (-eio, r.2)
  else if r.2.sentclosereq && r.2.gotclosereq then
    if r.2.sentcloseack then sendLast r.2
    else
      let r := accSendmsg env { r.2 with sentcloseack := true } .closeack
      if !r.1 then (-eio, r.2) else sendLast r.2
  else (0, r.2)

/-- `anoubis_server_start`; its assertions are `none`. -/
def anoubisServerStart (env : Env) (s : Server P) : Option (ℤ × Server P) :=
  if s.proto ≠ Protos.connect ∨ s.hellosent = true then none
  else
    let r := anoubisServerSend env s .hello
    some (if r.1 < 0 then r else (0, { r.2 with hellosent := true }))

/-- `__reply`. -/
def reply (env : Env) (s : Server P) (token : Bytes) (opcode error : ℕ) : ℤ × Server P :=
  anoubisServerSend env s (.reply token opcode error)

def replyInvalid (env : Env) (s : Server P) (opcode : ℕ) : ℤ × Server P := reply env s noToken opcode einval
def replyOk (env : Env) (s : Server P) (opcode : ℕ) : ℤ × Server P := reply env s noToken opcode 0
def replyOkToken (env : Env) (s : Server P) (token : Bytes) (opcode : ℕ) : ℤ × Server P :=
  reply env s token opcode 0
def replyInvalidToken (env : Env) (s : Server P) (token : Bytes) (opcode : ℕ) : ℤ × Server P :=
  reply env s token opcode einval

/-! ### The connect protocol -/

/-- `anoubis_process_versel`; the length it asks for is that of a pointer. -/
def anoubisProcessVersel (env : Env) (s : Server P) (buf : Bytes) (opcode : ℕ) : ℤ × Server P :=
  if !verifyLength buf 8 then replyInvalid env s opcode
  else if s.proto ≠ Protos.connect ∨ s.versel = true ∨ u16 buf 4 ≠ protoVersion then replyInvalid env s opcode
  else replyOk env ({ s with versel := true }.emit .versel) opcode

/-- `anoubis_process_optreq`: of the three options only PROTOMULTIPLEX is supported. -/
def anoubisProcessOptreq (env : Env) (s : Server P) (buf : Bytes) (opcode : ℕ) : ℤ × Server P :=
  if s.proto ≠ Protos.connect then replyInvalid env s opcode
  else if !verifyLength buf 4 then replyInvalid env s opcode
  else
    let wanted := ((stringlist buf).splitOn 44).contains (ascii "PROTOMULTIPLEX") && !s.multiplex
    anoubisServerSend env { s with multiplex := s.multiplex || wanted } (.optack wanted)

/-- `anoubis_process_auth`. -/
def anoubisProcessAuth (env : Env) (s : Server P) (buf : Bytes) (opcode : ℕ) : ℤ × Server P :=
  if s.proto ≠ Protos.connect ∨ s.hellosent = false ∨ s.flagAuth = true ∨ s.auth.isSome then
    replyInvalid env s opcode
  else if !verifyLength buf 4 then replyInvalid env s opcode
  else replyOk env { s with auth := some Auth.create } opcode

/-- `anoubis_auth_finish_callback`. The states other than SUCCESS and FAILURE are excluded by an
    assertion. -/
def anoubisAuthFinishCallback (env : Env) (s : Server P) : Option (Server P) :=
  s.auth.bind (fun auth =>
    let go (s : Server P) (m : Out) : Server P :=
      let r := anoubisServerSend env { s with auth := none } m
      if r.1 < 0 then channelClose { r.2 with flagError := true } else r.2
    match auth.state with
    | .success =>
      some (go ({ s with flagAuth := true, authUid := auth.uid }.emit (.auth auth.uid)) (.authreply 0 auth.uid))
    | .failure => some (go s (.authreply auth.error uidDefault))
    | _ => none)

/-- The protocols a PROTOSEL asks for. -/
def protoStrings : List (Bytes × Protos) :=
  [(ascii "POLICY", ⟨true, false⟩), (ascii "NOTIFY", ⟨false, true⟩), (ascii "POLICY,NOTIFY", ⟨true, true⟩),
    (ascii "NOTIFY,POLICY", ⟨true, true⟩)]

/-- `anoubis_process_protosel`. -/
def anoubisProcessProtosel (env : Env) (s : Server P) (buf : Bytes) (opcode : ℕ) : ℤ × Server P :=
  if s.proto ≠ Protos.connect ∨ s.hellosent = false ∨ s.flagAuth = false ∨ s.versel = false then
    replyInvalid env s opcode
  else if !verifyLength buf 4 then replyInvalid env s opcode
  else match protoStrings.find? (fun x => x.1 == stringlist buf) with
    | none => replyInvalid env s opcode
    | some (_, p) =>
      if !s.multiplex && p.policy && p.notify then replyInvalid env s opcode
      else replyOk env ({ s with proto := p, notify := s.notify || p.notify }.emit (.protosel p)) opcode

/-- The flags in `anoubis_process_closereq`. -/
def gotClose (s : Server P) (opcode : Opcode) : Server P :=
  let s := if opcode = .closeack then
      if s.sentcloseack then channelClose { s with gotcloseack := true } else { s with gotcloseack := true }
    else s
  { s with gotclosereq := true, proto := ⟨false, s.proto.notify⟩ }

/-- `anoubis_process_closereq`. -/
def anoubisProcessClosereq (env : Env) (s : Server P) (opcode : Opcode) : ℤ × Server P :=
  let s := gotClose s opcode
  if s.sentclosereq then (0, s)
  else
    let r := anoubisServerSend env { s with sentclosereq := true } .closereq
    if r.1 < 0 then r else (0, r.2)

/-! ### The other protocols -/

/-- `anoubis_process_nregister`. -/
def anoubisProcessNregister (env : Env) (s : Server P) (buf : Bytes) (opcode : ℕ) (token : Bytes) :
    ℤ × Server P :=
  if !verifyLength buf 24 ∨ s.proto.notify = false ∨ s.notify = false then replyInvalidToken env s token opcode
  else
    let s := s.emit .register
    if !env.notify s.trace.length then replyInvalidToken env s token opcode else replyOkToken env s token opcode

def eprotonosupport : ℕ := 93

/-- `anoubis_process_version`. -/
def anoubisProcessVersion (env : Env) (s : Server P) (buf : Bytes) : ℤ × Server P :=
  let err : ℤ := if !verifyLength buf 4 then -erange else if !s.proto.policy then -eprotonosupport else 0
  anoubisServerSend env s (.versionreply err)

/-- `anoubis_process_reply`. -/
def anoubisProcessReply (env : Env) (s : Server P) (buf : Bytes) (opcode : ℕ) (token : Bytes) : ℤ × Server P :=
  if !verifyLength buf 20 ∨ s.proto.notify = false ∨ s.notify = false then replyInvalidToken env s token opcode
  else
    let s := s.emit .answer
    if !env.notify s.trace.length then replyInvalidToken env s token opcode else (0, s)

/-- `anoubis_dispatch_create`. -/
def anoubisDispatchCreate (s : Server P) (opcode : ℕ) : ℤ × Server P :=
  if opcode ∈ s.dispatch then (-ebusy, s) else (0, { s with dispatch := opcode :: s.dispatch })

/-- `anoubis_find_dispatcher`. -/
def anoubisFindDispatcher (s : Server P) (opcode : ℕ) : Bool :=
  if (s.proto.policy = false ∨ s.flagAuth = false) ∧ opcode ≠ cAuthdata then false
  else decide (opcode ∈ s.dispatch)

/-! ### anoubis_server_process -/

/-- How `anoubis_server_process` ends: with a return value, with a dispatcher, or with
    `anoubis_policy_comm_process`. -/
inductive Outcome where
  | ret (r : ℤ)
  | dispatch (opcode : ℕ)
  | policy
  deriving DecidableEq

def returns (r : ℤ × Server P) : Outcome × Server P := (.ret r.1, r.2)

/-- The connection is about to be closed. -/
def closing (s : Server P) : Bool := s.gotclosereq || s.sentclosereq

/-- The call of a dispatcher. -/
def anoubisProcessDispatcher (s : Server P) (opcode : ℕ) : Outcome × Server P :=
  (.dispatch opcode, s.emit (.dispatch opcode s.authUid))

/-- ANOUBIS_P_REQUEST. A message too short for its flags is answered, and processed all the same. -/
def processRequest (env : Env) (s : Server P) (buf : Bytes) (opcode : ℕ) (token : Bytes) :
    Outcome × Server P :=
  let s := if !verifyLength buf 8 then (replyInvalid env s opcode).2 else s
  if PolicyComm.flagStart (u32 buf 4) && closing s then returns (replyInvalidToken env s token opcode)
  else if !s.proto.policy then returns (replyInvalidToken env s token opcode)
  else (.policy, s.emit (.policy s.authUid))

/-- ANOUBIS_C_AUTHDATA. -/
def processAuthdata (env : Env) (s : Server P) (opcode : ℕ) (token : Bytes) : Outcome × Server P :=
  if closing s then returns (replyInvalidToken env s token opcode)
  else if s.proto ≠ Protos.connect ∨ s.hellosent = false ∨ s.flagAuth = true then
    returns (replyInvalid env s opcode)
  else match s.auth with
    | none => returns (replyInvalid env s opcode)
    | some auth =>
      if auth.state ≠ .init ∧ auth.state ≠ .inprogress then returns (replyInvalid env s opcode)
      else if !anoubisFindDispatcher s opcode then returns (replyInvalidToken env s token opcode)
      else anoubisProcessDispatcher s opcode

/-- An opcode that is processed here only while the connection is not about to be closed. -/
def unlessClosing (env : Env) (s : Server P) (opcode : ℕ) (token : Bytes) (r : ℤ × Server P) :
    Outcome × Server P :=
  if closing s then returns (replyInvalidToken env s token opcode) else returns r

/-- The two switches of `anoubis_server_process`. -/
def processOpcode (env : Env) (s : Server P) (buf : Bytes) (opcode : ℕ) (token : Bytes) :
    Outcome × Server P :=
  match Opcode.decode opcode with
  | .request => processRequest env s buf opcode token
  | .versel => unlessClosing env s opcode token (anoubisProcessVersel env s buf opcode)
  | .auth => unlessClosing env s opcode token (anoubisProcessAuth env s buf opcode)
  | .optreq => unlessClosing env s opcode token (anoubisProcessOptreq env s buf opcode)
  | .protosel => unlessClosing env s opcode token (anoubisProcessProtosel env s buf opcode)
  | .register | .unregister =>
    unlessClosing env s opcode token (anoubisProcessNregister env s buf opcode token)
  | .version => unlessClosing env s opcode token (anoubisProcessVersion env s buf)
  | .authdata => processAuthdata env s opcode token
  | .closereq => returns (anoubisProcessClosereq env s .closereq)
  | .closeack => returns (anoubisProcessClosereq env s .closeack)
  | .reply | .delegate =>
    if !verifyLength buf 12 then (.ret (-eio), s)
    else returns (anoubisProcessReply env s buf opcode (tokenOf buf))
  | .notAllowed => returns (replyInvalidToken env s token opcode)
  | .other =>
    if !anoubisFindDispatcher s opcode then returns (replyInvalidToken env s token opcode)
    else if closing s then returns (replyInvalidToken env s token opcode)
    else anoubisProcessDispatcher s opcode

/-- `anoubis_server_process`. -/
def anoubisServerProcess (env : Env) (s : Server P) (buf : Bytes) : Outcome × Server P :=
  if !env.valid buf then (.ret (-efault), s)
  else if !s.chan || s.gotcloseack || s.flagError then (.ret (-ebadf), s)
  else if !verifyLength buf 4 then (.ret (-eio), s)
  else
    let opcode := u32 buf 0
    let s := s.emit (.recv opcode)
    if isNotify opcode then
      if !verifyLength buf 12 then (.ret (-eio), s)
      else if !s.proto.notify then returns (replyInvalidToken env s (tokenOf buf) opcode)
      else processOpcode env s buf opcode (tokenOf buf)
    else processOpcode env s buf opcode noToken

/-- `anoubis_server_destroy`, up to `free`. -/
def anoubisServerDestroy (s : Server P) : Server P := channelClose { s with auth := none, notify := false }

end Anoubis.Connection

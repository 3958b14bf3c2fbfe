import Anoubis.Client.Client

/-! Starting transactions, and the runs of a client.

    Requests of the policy protocol send their messages first and enter the list behind; a registration enters the
    list first. A run is any sequence of these calls and of messages from the server. -/

namespace Anoubis.Client

open Anoubis.Lib
open Anoubis.Connection (Bytes u16 u32 noToken ascii Protos)
open Anoubis.MsgVerify (opDel opAddsum opAddsig opDelsig opGet2 opGetsig2)
open Anoubis.Proto.PolicyComm (pRequest)

/-! ### Connecting and registering -/

/-- `anoubis_client_connect_start`; other bits of `proto` are refused. -/
def clientConnectStart (c : AnoubisClient) (proto : Protos) : Option ℕ × AnoubisClient :=
  if c.state ≠ .init ∨ proto = Protos.connect then (none, c)
  else
    let t := { Transaction.create noToken (.connect proto) with
      initself := false, initpeer := true, dequeue := true, stage := 1, opcodes := some [cHello, 0] }
    let r := c.insert t
    (some r.1, r.2)

/-- `__anoubis_client_register_start_common`. Where the message cannot be sent, the transaction is freed. -/
def clientRegisterStartCommon (env : Env) (c : AnoubisClient) (opcode : ℕ) (token : Bytes) (uid ruleId subsystem : ℕ) :
    Option ℕ × AnoubisClient :=
  if c.proto.notify = false ∨ c.state ≠ .connected ∨ token = noToken then (none, c)
  else
    let m := be32 opcode ++ token ++ be32 ruleId ++ be32 uid ++ be32 subsystem
    let t := { Transaction.create token .ack with dequeue := true, opcodes := some [pReply, 0] }
    let r := c.insert t
    let s := clientSend env r.2 (.bytes m)
    if s.1 then (some r.1, s.2) else (none, s.2.free r.1)

def clientRegisterStart (env : Env) (c : AnoubisClient) (token : Bytes) (uid ruleId subsystem : ℕ) :
    Option ℕ × AnoubisClient :=
  clientRegisterStartCommon env c nRegister token uid ruleId subsystem

def clientUnregisterStart (env : Env) (c : AnoubisClient) (token : Bytes) (uid ruleId subsystem : ℕ) :
    Option ℕ × AnoubisClient :=
  clientRegisterStartCommon env c nUnregister token uid ruleId subsystem

/-! ### The policy protocol -/

/-- The messages of a request, until one of them cannot be sent. -/
def sendAll (env : Env) : AnoubisClient → List Out → Bool × AnoubisClient
  | c, [] => (true, c)
  | c, m :: ms =>
    let r := clientSend env c m
    if r.1 then sendAll env r.2 ms else r

/-- The checks with which all requests of the policy protocol begin. -/
def policyReady (c : AnoubisClient) : Bool := decide (c.proto.policy = true ∧ c.state = .connected ∧ c.policyPending = false)

/-- The rest of such a request: its messages, and a transaction that waits for the answer. -/
def policyStart (env : Env) (c : AnoubisClient) (ms : List Out) (t : Transaction) : Option ℕ × AnoubisClient :=
  let r := sendAll env c ms
  if r.1 then
    let r := AnoubisClient.insert { r.2 with policyPending := true } t
    (some r.1, r.2)
  else (none, r.2)

/-- A request that nothing else stands against. -/
def simpleStart (env : Env) (c : AnoubisClient) (m : Bytes) (t : Transaction) : Option ℕ × AnoubisClient :=
  if policyReady c then policyStart env c [.bytes m] t else (none, c)

/-- SENDLEN. -/
def sendlen : ℕ := 3000

/-- The messages of a policy request; the flags are POLICY_FLAG_START and POLICY_FLAG_END. -/
def policyMessages : ℕ → ℕ → Bytes → List Out
  | 0, _, _ => []
  | fuel + 1, start, data =>
    if data = [] then []
    else
      let rest := data.drop sendlen
      .bytes (be32 pRequest ++ be32 (start + if rest = [] then 2 else 0) ++ data.take sendlen) ::
        policyMessages fuel 0 rest

/-- `anoubis_client_policyrequest_start`. -/
def clientPolicyrequestStart (env : Env) (c : AnoubisClient) (data : Bytes) : Option ℕ × AnoubisClient :=
  if policyReady c = false ∨ data = [] then (none, c)
  else policyStart env c (policyMessages data.length 1 data)
    { Transaction.create noToken .policy with wantall := true, opcodes := some [pPolicyreply, minusOne] }

/-- What `anoubis_client_csumrequest_start` asks for: a key for an operation on signatures, data for one that adds,
    no key for one by user, and a path. The payload is a null pointer where it is none. -/
def csumrequestOk (op : ℕ) (path : Bytes) (payload : Option Bytes) (cslen idlen : ℕ) : Bool :=
  let known := decide (op ∈ [opAddsig, opDelsig, opGetsig2, opAddsum, opDel, opGet2, opGenericList])
  let needsKey := decide (op ∈ [opAddsig, opDelsig, opGetsig2])
  let needsPayload := decide (op ∈ [opAddsig, opDelsig, opGetsig2, opAddsum])
  let noKey := decide (op ∈ [opAddsum, opDel, opGet2])
  known && !(needsKey && idlen == 0) && !(needsPayload && payload.isNone) && !(noKey && idlen != 0) &&
    path != [] && !((idlen != 0 || cslen != 0) && payload.isNone) && !(cslen != 0 && op != opAddsum && op != opAddsig)

/-- The message of `anoubis_client_csumrequest_start`; where there is no checksum, the key is copied for some of the
    operations only. -/
def csumrequestMsg (op : ℕ) (path payload : Bytes) (cslen idlen uid flags : ℕ) : Bytes :=
  let header := be32 pCsumrequest ++ be32 op ++ be32 flags ++ be32 uid ++ be16 idlen
  if cslen ≠ 0 then header ++ be16 cslen ++ payload.take (cslen + idlen) ++ path ++ [0]
  else if op = opGetsig2 ∨ op = opGenericList ∨ op = opDelsig then header ++ payload.take idlen ++ path ++ [0]
  else header ++ List.replicate idlen 0 ++ path ++ [0]

/-- `anoubis_client_csumrequest_start`. -/
def clientCsumrequestStart (env : Env) (c : AnoubisClient) (op : ℕ) (path : Bytes) (payload : Option Bytes)
    (cslen idlen uid flags : ℕ) : Option ℕ × AnoubisClient :=
  if policyReady c = false ∨ csumrequestOk op path payload cslen idlen = false then (none, c)
  else policyStart env c [.bytes (csumrequestMsg op path (payload.getD []) cslen idlen uid flags)]
    (if op = opGenericList then
      { Transaction.create noToken .listAck with wantall := true, opcodes := some [pCsumList, minusOne] }
    else { Transaction.create noToken .ack with
      dequeue := true, wantmessage := true, opcodes := some [pReply, minusOne] })

/-- `anoubis_client_csmulti_start`. -/
def clientCsmultiStart (env : Env) (c : AnoubisClient) (request : ℕ) : Except Fault (Option ℕ × AnoubisClient) :=
  match c.requests[request]? with
  | none => .ok (none, c)
  | some req =>
    if policyReady c = false ∨ req.client = true then .ok (none, c)
    else
      let compat := decide (c.selectedVersion < 5)
      match csmultiMsg req compat with
      | none => .error .buffer
      | some (none, req) => .ok (none, { c with requests := c.requests.set request req })
      | some (some m, req) =>
        let t := { Transaction.create noToken (.csmulti request) with
          dequeue := true, wantmessage := true,
          opcodes := some [if compat then pReply else pCsmultireply, minusOne] }
        let r := policyStart env { c with requests := c.requests.set request req } [.csmulti m] t
        match r.1 with
        | none => .ok r
        | some id => .ok (some id, { r.2 with requests := r.2.requests.modify request fun req =>
            { req with client := true } })

/-- `anoubis_client_passphrase_start`. -/
def clientPassphraseStart (env : Env) (c : AnoubisClient) (passphrase : Bytes) : Option ℕ × AnoubisClient :=
  simpleStart env c (be32 pPassphrase ++ passphrase ++ [0])
    { Transaction.create noToken .ack with dequeue := true, opcodes := some [pReply, minusOne] }

/-- `anoubis_client_version_start`. -/
def clientVersionStart (env : Env) (c : AnoubisClient) : Option ℕ × AnoubisClient :=
  simpleStart env c (be32 pVersion)
    { Transaction.create noToken .version with wantall := true, opcodes := some [pVersionreply, minusOne] }

/-- `anoubis_client_list_start`. -/
def clientListStart (env : Env) (c : AnoubisClient) (listtype arg : ℕ) : Option ℕ × AnoubisClient :=
  simpleStart env c (be32 pListreq ++ be16 listtype ++ be16 0 ++ be64 arg)
    { Transaction.create noToken .list with wantall := true, opcodes := some [pListrep, minusOne] }

/-- `anoubis_client_pgcommit_start`, for a path that is not a null pointer. -/
def clientPgcommitStart (env : Env) (c : AnoubisClient) (pgid : ℕ) (path : Bytes) (ignore : UInt8) :
    Option ℕ × AnoubisClient :=
  if pgid = 0 then (none, c)
  else simpleStart env c (be32 pPgcommit ++ be32 0 ++ be64 pgid ++ [ignore] ++ path ++ [0])
    { Transaction.create noToken .ack with wantall := true, dequeue := true, opcodes := some [pReply, minusOne] }

/-- `anoubis_client_pgunlink_start`. -/
def clientPgunlinkStart (env : Env) (c : AnoubisClient) (pgid dev ino : ℕ) : Option ℕ × AnoubisClient :=
  simpleStart env c (be32 pPgunlink ++ be32 0 ++ be64 pgid ++ be64 dev ++ be64 ino)
    { Transaction.create noToken .ack with wantall := true, dequeue := true, opcodes := some [pReply, minusOne] }

/-! ### Runs -/

/-- What a program does with its client. `request` creates a csmulti request; the messages `pending` arrive while a
    connect that has failed closes the connection. -/
inductive Act where
  | connectStart (proto : Protos)
  | closeStart
  | registerStart (token : Bytes) (uid ruleId subsystem : ℕ)
  | unregisterStart (token : Bytes) (uid ruleId subsystem : ℕ)
  | policyrequestStart (data : Bytes)
  | csumrequestStart (op : ℕ) (path : Bytes) (payload : Option Bytes) (cslen idlen uid flags : ℕ)
  | request (req : Request)
  | csmultiStart (request : ℕ)
  | passphraseStart (passphrase : Bytes)
  | versionStart
  | listStart (listtype arg : ℕ)
  | pgcommitStart (pgid : ℕ) (path : Bytes) (ignore : UInt8)
  | pgunlinkStart (pgid dev ino : ℕ)
  | process (m : Bytes) (pending : List Bytes)
  deriving DecidableEq

/-- One call. -/
def act (env : Env) (c : AnoubisClient) : Act → Except Fault AnoubisClient
  | .connectStart proto => .ok (clientConnectStart c proto).2
  | .closeStart => .ok (clientCloseStart env c).2
  | .registerStart token uid ruleId subsystem => .ok (clientRegisterStart env c token uid ruleId subsystem).2
  | .unregisterStart token uid ruleId subsystem => .ok (clientUnregisterStart env c token uid ruleId subsystem).2
  | .policyrequestStart data => .ok (clientPolicyrequestStart env c data).2
  | .csumrequestStart op path payload cslen idlen uid flags =>
    .ok (clientCsumrequestStart env c op path payload cslen idlen uid flags).2
  | .request req => .ok { c with requests := c.requests ++ [{ req with client := false }] }
  | .csmultiStart request => (clientCsmultiStart env c request).map Prod.snd
  | .passphraseStart passphrase => .ok (clientPassphraseStart env c passphrase).2
  | .versionStart => .ok (clientVersionStart env c).2
  | .listStart listtype arg => .ok (clientListStart env c listtype arg).2
  | .pgcommitStart pgid path ignore => .ok (clientPgcommitStart env c pgid path ignore).2
  | .pgunlinkStart pgid dev ino => .ok (clientPgunlinkStart env c pgid dev ino).2
  | .process m pending => (clientProcess env pending c m).map Prod.snd

/-- A call that did not fault. -/
def clientStep (env : Env) (c : AnoubisClient) (a : Act) : Option AnoubisClient := (act env c a).toOption

end Anoubis.Client

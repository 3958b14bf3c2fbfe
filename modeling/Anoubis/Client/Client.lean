import Anoubis.Client.Csmulti

/-! The client end of a connection (`anoubis_client.c`, `anoubis_transaction.c`).

    Every request is a transaction in the list `ops`. A message goes to the first transaction there that has its token
    and lists its opcode; the transaction processes it, and is done or waits for more.

        start --> ops: t₃ t₂ t₁ --message--> match --> process --> finish, dequeue
                                  closed with 0 or -1: opcodes of t

    The code of the caller is `auth_callback`, and what acc_sendmsg, crc32_check and anoubis_msg_verify answer is
    given by `Env`. Transactions are named by their number; one that was freed is none. A step faults where the
    code would read behind an array or use a transaction that was freed. Out of memory is left out. -/

namespace Anoubis.Client

open Anoubis.Lib
open Anoubis.Connection (Bytes u16 u32 tokenOf noToken stringlist ascii Protos protoVersion cAuthdata cClosereq
  cCloseack)
open Anoubis.MsgVerify (verifyLength opDel opAddsum opAddsig opDelsig opGet2 opGetsig2)
open Anoubis.Proto.PolicyComm (flagStart flagEnd pRequest)

/-! ### Constants -/

def protoMinversion : ℕ := 8

def cHello : ℕ := 0x2000
def cVersel : ℕ := 0x2001
def cAuth : ℕ := 0x2010
def cAuthreply : ℕ := 0x2012
def cOptreq : ℕ := 0x2020
def cOptack : ℕ := 0x2021
def cProtosel : ℕ := 0x2022
def pCsumrequest : ℕ := 0x3100
def pCsumList : ℕ := 0x3101
def pPassphrase : ℕ := 0x3201
def pPolicyreply : ℕ := 0x3801
def pVersion : ℕ := 0x3900
def pVersionreply : ℕ := 0x3901
def pListreq : ℕ := 0x3A00
def pListrep : ℕ := 0x3A01
def pPgcommit : ℕ := 0x3A02
def pPgunlink : ℕ := 0x3A04
def nRegister : ℕ := 0x4000
def nUnregister : ℕ := 0x4001

def eprotonosupport : ℕ := 93

/-- The terminator -1 of an array of u_int32_t. -/
def minusOne : ℕ := 4294967295

/-- ANOUBIS_CHECKSUM_OP_GENERIC_LIST. -/
def opGenericList : ℕ := 15

/-! ### Messages -/

/-- `set_value` of an u16n, u32n and u64n. -/
def be16 (n : ℕ) : Bytes := [UInt8.ofNat (n / 256), UInt8.ofNat n]
def be32 (n : ℕ) : Bytes := be16 (n / 65536) ++ be16 n
def be64 (n : ℕ) : Bytes := be32 (n / 4294967296) ++ be32 n

/-- What a client puts on its channel: the bytes of a message without its checksum, or a request for many
    checksums. -/
inductive Out where
  | bytes (buf : Bytes)
  | csmulti (m : ReqMsg)
  deriving DecidableEq

/-- `anoubis_stringlist_msg`, for strings of the options. -/
def stringlistMsg (type : ℕ) (strings : List Bytes) : Bytes := be32 type ++ ([44] : Bytes).intercalate strings

/-- `stringlist_iterator_get`: the strings of a list that are options. -/
def stringlistOptions (m : Bytes) (opts : List Bytes) : List Bytes := ((stringlist m).splitOn 44).filter (· ∈ opts)

/-! ### Transactions -/

/-- `process` with its `cbdata`: the protocols of a connect, the number of a csmulti request. -/
inductive Kind where
  | connect (proto : Protos)
  | close
  | ack
  | policy
  | listAck
  | csmulti (request : ℕ)
  | version
  | list
  deriving DecidableEq

/-- struct anoubis_transaction. The flags are those of `anoubis_transaction_create`, and ANOUBIS_T_DONE; only a
    csmulti transaction has a function `finish`. -/
structure Transaction where
  token : Bytes
  initself : Bool
  initpeer : Bool
  dequeue : Bool
  wantmessage : Bool
  wantall : Bool
  done : Bool
  result : ℤ
  opcodes : Option (List ℕ)
  process : Option Kind
  kind : Kind
  stage : ℤ
  msg : List Bytes
  deriving DecidableEq

/-- The loop of `anoubis_transaction_match` over an array, which it must not leave. -/
def opcodesMatch : List ℕ → ℕ → Option Bool
  | [], _ => none
  | o :: os, opcode => if o > 0 then if o = opcode then some true else opcodesMatch os opcode else some false

/-- `anoubis_transaction_match`. -/
def transactionMatch (t : Transaction) (token : Bytes) (self : Bool) (opcode : ℕ) : Option Bool :=
  match t.opcodes with
  | none => some false
  | some opcodes =>
    if t.token ≠ token then some false
    else if token ≠ noToken ∧ (t.initself ∧ self = false ∨ t.initpeer ∧ self = true) then some false
    else opcodesMatch opcodes opcode

/-- `anoubis_transaction_progress`. -/
def Transaction.progress (t : Transaction) (opcodes : List ℕ) : Transaction :=
  { t with opcodes := some opcodes, stage := t.stage + 1 }

/-- `anoubis_transaction_done`. -/
def Transaction.finished (t : Transaction) (error : ℤ) : Transaction :=
  { t with result := error, done := true, opcodes := none, stage := -1, process := none }

/-! ### Clients -/

/-- ANOUBIS_STATE_*. -/
inductive State where
  | init
  | error
  | connected
  | closing
  | closed
  deriving DecidableEq

/-- A message went to a transaction. -/
structure Handed where
  opcode : ℕ
  token : Bytes
  transaction : Transaction
  deriving DecidableEq

/-- struct anoubis_client with its transactions, and the csmulti requests of the program. `tries` counts the calls
    of `acc_sendmsg`; `sent`, `handed` and `finish` record the messages that were sent and handed out, and the
    transactions whose end was handled. -/
structure AnoubisClient where
  state : State
  proto : Protos
  multiplex : Bool
  pipeline : Bool
  sentclosereq : Bool
  gotclosereq : Bool
  sentcloseack : Bool
  gotcloseack : Bool
  policyPending : Bool
  chan : Bool
  authUid : ℕ
  serverVersion : ℤ
  serverMinVersion : ℤ
  selectedVersion : ℤ
  authType : ℕ
  authCallback : Bool
  ops : List ℕ
  ts : List (Option Transaction)
  requests : List Request
  notify : List Bytes
  tries : ℕ
  sent : List Out
  handed : List Handed
  finish : List ℕ
  deriving DecidableEq

/-- What the code around answers: by the number of the call whether a message can be sent, and for each message
    whether it passes the checks, and what `auth_callback` makes of it. -/
structure Env where
  sendmsg : ℕ → Bool
  verify : Bytes → Bool
  crc : Bytes → Bool
  auth : Bytes → ℤ × Option Bytes

inductive Fault where
  /-- A read behind the end of an array of opcodes. -/
  | beyond
  /-- A transaction that was freed. -/
  | freed
  /-- A csmulti request leaves its buffers. -/
  | buffer
  /-- A close message went to another transaction than that of a close. -/
  | nested
  deriving DecidableEq

/-- `anoubis_client_create`. -/
def AnoubisClient.create (authType : ℕ) (authCallback : Bool) : AnoubisClient :=
  ⟨.init, Protos.connect, false, false, false, false, false, false, false, true, uidDefault, -1, -1, -1, authType,
    authCallback, [], [], [], [], 0, [], [], []⟩

/-- The transaction with a number, if it was not freed. -/
def AnoubisClient.getT (c : AnoubisClient) (id : ℕ) : Option Transaction := (c.ts[id]?).join

def AnoubisClient.setT (c : AnoubisClient) (id : ℕ) (t : Transaction) : AnoubisClient :=
  { c with ts := c.ts.set id (some t) }

/-- `anoubis_transaction_destroy`. -/
def AnoubisClient.free (c : AnoubisClient) (id : ℕ) : AnoubisClient := { c with ts := c.ts.set id none }

/-- LIST_REMOVE. A second one in a row changes nothing. -/
def AnoubisClient.remove (c : AnoubisClient) (id : ℕ) : AnoubisClient := { c with ops := c.ops.erase id }

/-- `anoubis_transaction_create` and LIST_INSERT_HEAD. -/
def AnoubisClient.insert (c : AnoubisClient) (t : Transaction) : ℕ × AnoubisClient :=
  (c.ts.length, { c with ts := c.ts ++ [some t], ops := c.ts.length :: c.ops })

/-- `anoubis_client_send`. -/
def clientSend (env : Env) (c : AnoubisClient) (m : Out) : Bool × AnoubisClient :=
  if c.chan ∧ env.sendmsg c.tries then (true, { c with tries := c.tries + 1, sent := c.sent ++ [m] })
  else (false, { c with tries := c.tries + 1 })

/-- `anoubis_send_general`. -/
def sendGeneral (env : Env) (c : AnoubisClient) (opcode : ℕ) : Bool × AnoubisClient :=
  clientSend env c (.bytes (be32 opcode))

/-- The flags for a close message in `anoubis_client_verify` and `anoubis_client_rcv`. -/
def AnoubisClient.noteClose (c : AnoubisClient) (m : Bytes) : AnoubisClient :=
  if u32 m 0 = cClosereq then { c with state := .closing, gotclosereq := true }
  else if u32 m 0 = cCloseack then { c with state := .closing, gotcloseack := true }
  else c

/-- `anoubis_client_verify`. -/
def clientVerify (env : Env) (c : AnoubisClient) (m : Bytes) : Bool × AnoubisClient :=
  if verifyLength m 4 ∧ env.crc m then (true, c.noteClose m) else (false, c)

/-! ### Connecting -/

/-- `anoubis_verify_reply`; the answer of `anoubis_client_verify` is not looked at. -/
def verifyReply (env : Env) (c : AnoubisClient) (origop : ℕ) (m : Bytes) : ℤ × AnoubisClient :=
  let c := (clientVerify env c m).2
  if u32 m 0 ≠ pReply ∨ verifyLength m 20 = false then (-eproto, c)
  else if tokenOf m ≠ noToken ∨ u32 m 16 ≠ 0 ∨ u32 m 12 ≠ origop then (-eperm, c)
  else (0, c)

/-- The version that `anoubis_verify_hello` selects. -/
def selectVersion (serverVersion serverMinVersion : ℕ) : Option ℕ :=
  if serverMinVersion ≤ protoVersion ∧ protoVersion ≤ serverVersion then some protoVersion
  else if protoMinversion ≤ serverVersion ∧ serverVersion ≤ protoVersion then some serverVersion
  else none

/-- `anoubis_verify_hello`. -/
def verifyHello (env : Env) (c : AnoubisClient) (m : Bytes) : ℤ × AnoubisClient :=
  let r := clientVerify env c m
  if r.1 = false then (-erange, r.2)
  else if u32 m 0 ≠ cHello ∨ verifyLength m 8 = false then (-eproto, r.2)
  else
    let c := { r.2 with serverVersion := u16 m 4, serverMinVersion := u16 m 6 }
    if u16 m 6 ≤ protoVersion ∧ protoVersion ≤ u16 m 4 then (0, { c with selectedVersion := protoVersion })
    else match selectVersion (u16 m 4) (u16 m 6) with
      | none => (-eprotonosupport, c)
      | some version =>
        let c := { c with selectedVersion := version }
        if version = 4 then (0, c)
        else if version = 3 then (0, { c with authCallback := false, authType := 0 })
        else (-eprotonosupport, c)

/-- `anoubis_verify_authreply`. -/
def verifyAuthreply (env : Env) (c : AnoubisClient) (m : Bytes) : ℤ × AnoubisClient :=
  let r := clientVerify env c m
  if r.1 = false then (-erange, r.2)
  else if u32 m 0 ≠ cAuthreply ∨ verifyLength m 12 = false then (-eproto, r.2)
  else if u32 m 4 ≠ 0 then (-eperm, r.2)
  else (0, { r.2 with authUid := u32 m 8 })

/-- The options of `anoubis_proto_opts`. -/
def multiplexOpt : Bytes := ascii "PROTOMULTIPLEX"
def pipelineOpt : Bytes := ascii "PIPELINE"

/-- `anoubis_verify_stringlist` for the options, and the flags it selects. -/
def verifyOptack (env : Env) (c : AnoubisClient) (m : Bytes) : ℤ × AnoubisClient :=
  let r := clientVerify env c m
  if r.1 = false then (-erange, r.2)
  else if u32 m 0 ≠ cOptack ∨ verifyLength m 4 = false then (-eproto, r.2)
  else
    let opts := stringlistOptions m [multiplexOpt, pipelineOpt]
    (0, { r.2 with multiplex := r.2.multiplex || opts.contains multiplexOpt,
                   pipeline := r.2.pipeline || opts.contains pipelineOpt })

/-- What a step of `anoubis_client_connect_steps` does with its transaction. -/
inductive Next where
  | progress (opcodes : List ℕ)
  | stay
  | done
  deriving DecidableEq

/-- A step ends with a message. -/
def sendNext (env : Env) (c : AnoubisClient) (m : Out) (next : Next) : Except ℤ Next × AnoubisClient :=
  let r := clientSend env c m
  (if r.1 then .ok next else .error (-eio), r.2)

/-- The strings of a PROTOSEL. -/
def protoStrings (proto : Protos) : List Bytes :=
  (if proto.policy then [ascii "POLICY"] else []) ++ (if proto.notify then [ascii "NOTIFY"] else [])

/-- The second half of the step 4: the message of `auth_callback`. -/
def sendAuthdata (env : Env) (c : AnoubisClient) (m : Bytes) : Except ℤ Next × AnoubisClient :=
  let r := if c.authCallback then env.auth m else (0, none)
  if r.1 < 0 then (.error r.1, c)
  else match r.2 with
    | none => (.error (-eperm), c)
    | some out => sendNext env c (.bytes out) .stay

/-- The switch of `anoubis_client_connect_steps`: an error that is negative, or what comes next. Behind the last
    case the error is still -EPROTO. -/
def connectStage (env : Env) (c : AnoubisClient) (proto : Protos) (stage : ℤ) (m : Bytes) :
    Except ℤ Next × AnoubisClient :=
  if stage = 1 then
    let r := verifyHello env c m
    if r.1 < 0 then (.error r.1, r.2)
    else sendNext env r.2 (.bytes (be32 cVersel ++ be16 r.2.selectedVersion.toNat ++ be16 0)) (.progress [pReply, 0])
  else if stage = 2 then
    let r := verifyReply env c cVersel m
    if r.1 < 0 then (.error r.1, r.2)
    else sendNext env r.2 (.bytes (be32 cAuth)) (.progress [pReply, 0])
  else if stage = 3 then
    let r := verifyReply env c cAuth m
    if r.1 < 0 then (.error r.1, r.2)
    else sendNext env r.2 (.bytes (be32 cAuthdata ++ be32 r.2.authType)) (.progress [cAuthreply, cAuthdata, 0])
  else if stage = 4 then
    if u32 m 0 = cAuthdata then sendAuthdata env c m
    else
      let r := verifyAuthreply env c m
      if r.1 < 0 then (.error r.1, r.2)
      else sendNext env r.2 (.bytes (stringlistMsg cOptreq [multiplexOpt, pipelineOpt])) (.progress [cOptack, 0])
  else if stage = 5 then
    let r := verifyOptack env c m
    let opts := stringlistOptions m [multiplexOpt, pipelineOpt]
    if r.1 < 0 then (.error r.1, r.2)
    else if proto.policy ∧ proto.notify ∧ opts.contains multiplexOpt = false then (.error (-eprotonosupport), r.2)
    else sendNext env r.2 (.bytes (stringlistMsg cProtosel (protoStrings proto))) (.progress [pReply, 0])
  else if stage = 6 then
    let r := verifyReply env c cProtosel m
    if r.1 < 0 then (.error r.1, r.2) else (.ok .done, { r.2 with proto := proto, state := .connected })
  else (.error (-eproto), c)

/-! ### Closing -/

/-- A new transaction. -/
def Transaction.create (token : Bytes) (kind : Kind) : Transaction :=
  ⟨token, true, false, false, false, false, false, -1, none, some kind, kind, -1, []⟩

/-- `anoubis_client_close_start`. -/
def clientCloseStart (env : Env) (c : AnoubisClient) : Option ℕ × AnoubisClient :=
  if c.sentclosereq then (none, c)
  else
    let t := { Transaction.create noToken .close with
      dequeue := true, opcodes := some [cClosereq, cCloseack, 0] }
    let r := sendGeneral env c cClosereq
    if r.1 = false then (none, { r.2 with chan := false, state := .error })
    else
      let r := AnoubisClient.insert { r.2 with state := .closing, sentclosereq := true } t
      (some r.1, r.2)

/-- `anoubis_client_close_steps` up to its last lines: an error, or whether the connection is closed. -/
def closeStage (env : Env) (c : AnoubisClient) (m : Bytes) : Except ℤ Bool × AnoubisClient :=
  let r := clientVerify env c m
  if r.1 = false then (.error (-erange), r.2)
  else if u32 m 0 ≠ cClosereq ∧ u32 m 0 ≠ cCloseack then (.error (-eproto), r.2)
  else if r.2.sentclosereq = false then (.error (-eproto), r.2)
  else if r.2.gotcloseack ∧ r.2.gotclosereq = false then (.error (-eproto), r.2)
  else if r.2.gotclosereq ∧ r.2.sentcloseack = false then
    let r := sendGeneral env r.2 cCloseack
    if r.1 = false then (.error (-eio), r.2) else (.ok r.2.gotcloseack, { r.2 with sentcloseack := true })
  else (.ok (r.2.gotcloseack && r.2.sentcloseack), r.2)

/-- `anoubis_client_close_steps`. -/
def clientCloseSteps (env : Env) (c : AnoubisClient) (id : ℕ) (t : Transaction) (m : Bytes) : AnoubisClient :=
  let r := closeStage env c m
  match r.1 with
  | .error ret => AnoubisClient.setT { r.2 with chan := false, state := .error } id (t.finished (-ret))
  | .ok true => AnoubisClient.setT { r.2 with chan := false, state := .closed } id (t.finished 0)
  | .ok false => r.2

/-! ### Dispatch -/

/-- The loop of `__anoubis_client_continue`. -/
def findMatch (c : AnoubisClient) (token : Bytes) (self : Bool) (opcode : ℕ) :
    List ℕ → Except Fault (Option (ℕ × Transaction))
  | [] => .ok none
  | id :: ids =>
    match c.getT id with
    | none => .error .freed
    | some t => match transactionMatch t token self opcode with
      | none => .error .beyond
      | some true => .ok (some (id, t))
      | some false => findMatch c token self opcode ids

/-- The token of a message; only an acknowledgement has one here. -/
def msgToken (m : Bytes) : Bytes := if u32 m 0 = pReply then tokenOf m else noToken

/-- `anoubis_client_csmulti_finish`, where the transaction has it: the request takes over the message. -/
def finishRequest (c : AnoubisClient) (id : ℕ) (t : Transaction) (m : Bytes) : AnoubisClient :=
  match t.kind with
  | .csmulti r =>
    let c := c.setT id (if t.result = 0 then { t with msg := [] } else t)
    { c with requests := c.requests.modify r fun req => clientCsmultiFinish req t.result m }
  | _ => c.setT id t

/-- A transaction that is done keeps its last message, and the caller's `finish` runs. -/
def transactionDone (c : AnoubisClient) (id : ℕ) (t : Transaction) (m : Bytes) : AnoubisClient :=
  let r := finishRequest c id { t with msg := if t.wantmessage then [m] else t.msg } m
  { (if t.dequeue then r.remove id else r) with finish := r.finish ++ [id] }

/-- The end of `anoubis_transaction_process`, behind the call of `process`. -/
def transactionEnd (c : AnoubisClient) (id : ℕ) (m : Bytes) : Except Fault AnoubisClient :=
  match c.getT id with
  | none => .error .freed
  | some t =>
    let t := { t with msg := if t.wantall then t.msg ++ [m] else t.msg }
    if t.done = false then .ok (c.setT id t) else .ok (transactionDone c id t m)

/-- What `process` of a transaction does. -/
abbrev Steps := AnoubisClient → ℕ → Transaction → Bytes → Except Fault AnoubisClient

/-- `anoubis_transaction_process`. -/
def transactionProcess (steps : Steps) (c : AnoubisClient) (id : ℕ) (t : Transaction) (m : Bytes) :
    Except Fault AnoubisClient := do
  let c ← steps { c with handed := c.handed ++ [⟨u32 m 0, msgToken m, t⟩] } id t m
  transactionEnd c id m

/-- `__anoubis_client_continue`. -/
def clientContinue (steps : Steps) (c : AnoubisClient) (m : Bytes) (token : Bytes) (self : Bool) :
    Except Fault (ℤ × AnoubisClient) := do
  match ← findMatch c token self (u32 m 0) c.ops with
  | none => .ok (0, c)
  | some (id, t) => (transactionProcess steps c id t m).map fun c => (1, c)

/-- The only `process` that the two close messages reach. -/
def closeOnly (env : Env) : Steps := fun c id t m =>
  if t.process = some .close then .ok (clientCloseSteps env c id t m) else .error .nested

/-- A message in the loop of `anoubis_client_close`. -/
def closeMessage (env : Env) (c : AnoubisClient) (m : Bytes) : Except Fault AnoubisClient :=
  if u32 m 0 = cClosereq ∨ u32 m 0 = cCloseack then
    (clientContinue (closeOnly env) (c.noteClose m) m noToken false).map Prod.snd
  else .ok c

/-- The loop of `anoubis_client_close`, for the messages that still arrive. -/
def closeLoop (env : Env) (id : ℕ) : AnoubisClient → List Bytes → Except Fault AnoubisClient
  | c, [] => .ok c
  | c, m :: ms =>
    if c.chan = false ∨ env.verify m = false ∨ env.crc m = false then .ok c
    else do
      let c ← closeMessage env c m
      match c.getT id with
      | none => .error .freed
      | some t => if t.done then .ok c else closeLoop env id c ms

/-- `anoubis_client_close`. -/
def clientClose (env : Env) (c : AnoubisClient) (pending : List Bytes) : Except Fault AnoubisClient :=
  let r := clientCloseStart env c
  match r.1 with
  | none => .ok { r.2 with chan := false, state := .error }
  | some id => (closeLoop env id r.2 pending).map fun c => c.free id

/-- `anoubis_client_connect_steps`; `pending` are the messages that arrive while it closes the connection. -/
def clientConnectSteps (env : Env) (pending : List Bytes) (proto : Protos) : Steps := fun c id t m =>
  let r := connectStage env c proto t.stage m
  match r.1 with
  | .ok (.progress opcodes) => .ok (r.2.setT id (t.progress opcodes))
  | .ok .stay => .ok r.2
  | .ok .done => .ok (r.2.setT id (t.finished 0))
  | .error ret => clientClose env (AnoubisClient.setT { r.2 with state := .error } id (t.finished (-ret))) pending

/-! ### Steps of the policy protocol -/

/-- The end of most of these functions: the transaction is done and leaves the list. -/
def policyDone (c : AnoubisClient) (id : ℕ) (t : Transaction) (ret : ℤ) : AnoubisClient :=
  { (c.setT id (t.finished (-ret))).remove id with policyPending := false }

/-- `anoubis_client_ack_steps`. -/
def clientAckSteps (env : Env) (c : AnoubisClient) (id : ℕ) (t : Transaction) (m : Bytes) : AnoubisClient :=
  let r := clientVerify env c m
  let ret : ℤ := if r.1 = false then -erange
    else if verifyLength m 20 = false ∨ u32 m 0 ≠ pReply then -eproto
    else -u32 m 16
  let c := if tokenOf m = noToken then { r.2 with policyPending := false } else r.2
  c.setT id (t.finished (-ret))

/-- START must be set on the first message and nowhere else. -/
def startMissing (t : Transaction) (flags : ℕ) : Bool := decide (t.msg = []) == !flagStart flags

/-- `anoubis_client_policy_steps` and `anoubis_client_list_ack_steps`, for messages of a type. -/
def streamSteps (env : Env) (type : ℕ) (c : AnoubisClient) (id : ℕ) (t : Transaction) (m : Bytes) :
    AnoubisClient :=
  let r := clientVerify env c m
  if r.1 = false then policyDone r.2 id t (-erange)
  else if verifyLength m 12 = false ∨ u32 m 0 ≠ type then policyDone r.2 id t (-eproto)
  else if u32 m 8 ≠ 0 then policyDone r.2 id t (-u32 m 8)
  else if startMissing t (u32 m 4) then policyDone r.2 id t (-eproto)
  else if flagEnd (u32 m 4) = false then r.2
  else policyDone r.2 id t 0

def clientPolicySteps (env : Env) : AnoubisClient → ℕ → Transaction → Bytes → AnoubisClient :=
  streamSteps env pPolicyreply

def clientListAckSteps (env : Env) : AnoubisClient → ℕ → Transaction → Bytes → AnoubisClient :=
  streamSteps env pCsumList

/-- `anoubis_client_csmulti_steps`. -/
def clientCsmultiProcess (request : ℕ) : Steps := fun c id t m =>
  match c.requests[request]? with
  | none => .ok ((c.setT id (t.finished eproto)).remove id)
  | some req =>
    if req.client = false then .ok ((c.setT id (t.finished eproto)).remove id)
    else match clientCsmultiSteps req m with
      | none => .error .buffer
      | some (ret, req) => .ok (policyDone { c with requests := c.requests.set request req } id t ret)

/-- `anoubis_client_version_steps`. -/
def clientVersionSteps (env : Env) (c : AnoubisClient) (id : ℕ) (t : Transaction) (m : Bytes) : AnoubisClient :=
  let r := clientVerify env c m
  policyDone r.2 id t (if r.1 = false then -erange
    else if verifyLength m 16 = false ∨ u32 m 0 ≠ pVersionreply then -eproto
    else -u32 m 4)

/-- `anoubis_client_list_steps`; here an error does not end the list. -/
def clientListSteps (env : Env) (c : AnoubisClient) (id : ℕ) (t : Transaction) (m : Bytes) : AnoubisClient :=
  let r := clientVerify env c m
  if r.1 = false then policyDone r.2 id t (-erange)
  else if verifyLength m 16 = false ∨ u32 m 0 ≠ pListrep then policyDone r.2 id t (-eproto)
  else if startMissing t (u32 m 4) then policyDone r.2 id t (-eproto)
  else if flagEnd (u32 m 4) = false then r.2
  else policyDone r.2 id t (-u32 m 8)

/-- `process` of a transaction. -/
def processSteps (env : Env) (pending : List Bytes) : Steps := fun c id t m =>
  match t.process with
  | none => .ok c
  | some (.connect proto) => clientConnectSteps env pending proto c id t m
  | some .close => .ok (clientCloseSteps env c id t m)
  | some .ack => .ok (clientAckSteps env c id t m)
  | some .policy => .ok (clientPolicySteps env c id t m)
  | some .listAck => .ok (clientListAckSteps env c id t m)
  | some (.csmulti request) => clientCsmultiProcess request c id t m
  | some .version => .ok (clientVersionSteps env c id t m)
  | some .list => .ok (clientListSteps env c id t m)

/-! ### anoubis_client_process -/

/-- The length that `anoubis_client_process_event` asks for. -/
def notifyLength (opcode : ℕ) : Option ℕ :=
  if opcode = 0x4010 ∨ opcode = 0x4014 ∨ opcode = 0x4015 then some 72
  else if opcode = 0x4016 ∨ opcode = 0x4017 then some 12
  else if opcode = 0x4018 ∨ opcode = 0x4012 ∨ opcode = 0x4013 then some 20
  else none

/-- `anoubis_client_process_event`. -/
def clientProcessEvent (c : AnoubisClient) (m : Bytes) : ℤ × AnoubisClient :=
  match notifyLength (u32 m 0) with
  | none => (-einval, c)
  | some size => if verifyLength m size = false then (-erange, c) else (1, { c with notify := c.notify ++ [m] })

/-- `anoubis_client_process`. -/
def clientProcess (env : Env) (pending : List Bytes) (c : AnoubisClient) (m : Bytes) :
    Except Fault (ℤ × AnoubisClient) :=
  if env.verify m = false then .ok (-efault, c)
  else
    let r := clientVerify env c m
    if r.1 = false then .ok (-erange, r.2)
    else if r.2.state = .closed ∨ r.2.state = .error then .ok (-eproto, r.2)
    else if r.2.proto = Protos.connect then clientContinue (processSteps env pending) r.2 m noToken false
    else if u32 m 0 = pReply then
      if verifyLength m 20 = false then .ok (-erange, r.2)
      else clientContinue (processSteps env pending) r.2 m (tokenOf m) true
    else if Connection.isNotify (u32 m 0) then
      if verifyLength m 12 = false then .ok (-erange, r.2)
      else if r.2.proto.notify = false then .ok (-eproto, r.2)
      else .ok (clientProcessEvent r.2 m)
    else clientContinue (processSteps env pending) r.2 m noToken true

end Anoubis.Client

import Anoubis.Proto.Server

/-! Authentication (`session.c`, `main.c`).

    A client asks to be authenticated; the session engine asks the master, who lets it pass or sends a
    challenge; the client signs the challenge and the master checks the signature.

        client --AUTH--> object            --AUTHDATA (TRANSPORT, TRANSPORTANDKEY)--> AUTH_REQUEST --> master
        client <--AUTHDATA (CHALLENGE)--   auth_private   <-- AUTH_CHALLENGE <--
        client --AUTHDATA (CHALLENGEREPLY)--> AUTH_VERIFY --> master
        client <--AUTHREPLY-- finish_callback <-- AUTH_RESULT <--

    A connection is its number; the channel and the server object have the same one. The requests to the
    master are in the table of `anoubis_policy.c`, which all connections share. The objects of
    `anoubis_auth_create` are numbered, so that `log` can tell which of them a handler reads or writes. A write
    to an object that is gone has no effect here. Two handlers do not run at the same time: a step is one
    message. -/

namespace Anoubis.Daemon.Auth

open Anoubis.Lib Anoubis.Proto Anoubis.Connection

/-- ANOUBIS_AUTH_TRANSPORT, TRANSPORTANDKEY and CHALLENGEREPLY. -/
def transport : ℕ := 0
def transportandkey : ℕ := 1
def challengereply : ℕ := 3

/-- `struct anoubisd_msg_authchallenge`. -/
structure Challenge where
  token : ℕ
  authUid : ℕ
  error : ℕ
  challenge : Bytes
  keyid : Bytes
  deriving DecidableEq

/-- ANOUBISD_MSG_AUTH_REQUEST and ANOUBISD_MSG_AUTH_VERIFY. -/
inductive ToMaster where
  | request (token authUid : ℕ)
  | verify (token authUid : ℕ) (data sig : Bytes)
  deriving DecidableEq

/-- ANOUBISD_MSG_AUTH_CHALLENGE and ANOUBISD_MSG_AUTH_RESULT. -/
inductive ToSession where
  | challenge (c : Challenge)
  | result (token authUid error : ℕ)
  deriving DecidableEq

/-- `anoubisd_config.auth_mode`; the last one stands for all other values. -/
inductive AuthMode where
  | enabled
  | optional
  | off
  | bad
  deriving DecidableEq

/-- `struct cert`, without its name and its file. -/
structure Cert (K : Type) where
  ignore : Bool
  keyid : Bytes
  pubkey : Option K
  deriving DecidableEq

/-- What the master finds when it handles a message: the configuration, the certificates, `RAND_status`,
    the error of `gettimeofday`, and the time and the random bytes of `cdata`. -/
structure MasterEnv (K : Type) where
  authMode : AuthMode
  certs : ℕ → Option (Cert K)
  randStatus : Bool
  timeError : ℕ
  cdata : Bytes
  cdata_size : cdata.length = 32

/-- A session: the credentials of the peer, the server object, and the number of its last authentication
    object. -/
structure Conn where
  euid : ℕ
  server : Server Challenge
  obj : ℕ

inductive Event (K : Type) where
  | connect (id euid : ℕ)
  /-- `anoubis_process_auth` made an object. -/
  | attempt (id obj : ℕ)
  /-- An AUTH_REQUEST went to the master. -/
  | request (id obj token uid : ℕ)
  /-- The master answered it, with this mode and this certificate of the user. -/
  | answer (token uid : ℕ) (mode : AuthMode) (cert : Option (Cert K)) (c : Challenge)
  /-- An AUTH_VERIFY went to the master. -/
  | verify (id obj token uid : ℕ) (iv challenge sig : Bytes)
  /-- The master checked a signature, with this certificate of the user. -/
  | verified (token uid : ℕ) (data sig : Bytes) (cert : Option (Cert K)) (ok : Bool)
  /-- A handler reads or writes the object. -/
  | touch (id obj : ℕ)
  /-- A challenge is sent for the object. -/
  | challenge (id obj : ℕ)
  /-- The finish callback of the object: the error of its AUTHREPLY, and whether it has authenticated the
      connection, as which user. -/
  | finish (id obj error : ℕ) (ok : Bool) (uid : ℕ)
  | disconnect (id : ℕ)
  deriving DecidableEq

/-- The session engine and the master. -/
structure Sys (K : Type) where
  conns : ℕ → Option Conn
  comm : PolicyComm.Comm
  s2m : List ToMaster
  m2s : List ToSession
  rndInitialized : Bool
  nextConn : ℕ
  nextObj : ℕ
  log : List (Event K)

variable {K : Type}

def Sys.init : Sys K := ⟨fun _ => none, PolicyComm.Comm.create, [], [], false, 0, 0, []⟩

def Sys.emit (y : Sys K) (x : Event K) : Sys K := { y with log := y.log ++ [x] }

/-- The server object after a call; `channel_close` takes the requests of the channel out of the table. -/
def Sys.put (y : Sys K) (id : ℕ) (conn : Conn) (server : Server Challenge) : Sys K :=
  { y with
    conns := Function.update y.conns id (some { conn with server := server })
    comm := if conn.server.chan && !server.chan then PolicyComm.destroy y.comm id else y.comm }

/-! ### The session engine -/

/-- The callbacks of the two requests, with the server object as their data. -/
def authChallengeCb (id : ℕ) : PolicyComm.Callback := .reply 0 id
def authResultCb (id : ℕ) : PolicyComm.Callback := .reply 1 id

/-- The handler sets the result in the object and calls `finish_callback`. -/
def finish (env : Env) (y : Sys K) (id : ℕ) (conn : Conn) (auth : Auth Challenge) : Option (Sys K) :=
  let y := (y.emit (.touch id conn.obj)).emit
    (.finish id conn.obj (if auth.state = .success then 0 else auth.error) (decide (auth.state = .success))
      auth.uid)
  (anoubisAuthFinishCallback env { conn.server with auth := some auth }).map (y.put id conn)

/-- A failure. -/
def fail (env : Env) (y : Sys K) (id : ℕ) (conn : Conn) (auth : Auth Challenge) (error : ℕ) :
    Option (Sys K) :=
  finish env y id conn { auth with state := .failure, error := error, uid := uidDefault, authPrivate := none }

/-- The end of `dispatch_auth_challenge`: the challenge is saved and sent. The object is read and written
    without a look whether it is still there. -/
def saveChallenge (env : Env) (y : Sys K) (id obj : ℕ) (c : Challenge) : Option (Sys K) :=
  let y := (y.emit (.touch id obj)).emit (.challenge id obj)
  (y.conns id).map (fun conn =>
    let server := match conn.server.auth with
      | some auth => { conn.server with auth := some { auth with authPrivate := some c } }
      | none => conn.server
    y.put id conn (accSendmsg env server .other).2)

/-- `dispatch_auth_challenge`. -/
def dispatchAuthChallenge (env : Env) (y : Sys K) (id : ℕ) (c : Challenge) : Option (Sys K) :=
  (y.conns id).bind (fun conn =>
    match conn.server.auth with
    | none => some y
    | some auth =>
      let y := y.emit (.touch id conn.obj)
      if auth.state ≠ .inprogress then some y
      else if c.error ≠ 0 ∨ conn.euid ≠ c.authUid then
        finish env y id conn { auth with error := c.error, state := .failure, uid := uidDefault }
      else if c.challenge = [] ∧ c.keyid = [] then
        finish env y id conn { auth with error := 0, state := .success, uid := conn.euid }
      else if auth.authType ≠ some transportandkey then
        -- a failure as well, but it goes on
        (finish env y id conn { auth with error := eperm, state := .failure, uid := uidDefault }).bind
          (fun y => saveChallenge env y id conn.obj c)
      else saveChallenge env y id conn.obj c)

/-- `dispatch_auth_result`. -/
def dispatchAuthResult (env : Env) (y : Sys K) (id error : ℕ) : Option (Sys K) :=
  (y.conns id).bind (fun conn =>
    match conn.server.auth with
    | none => some y
    | some auth =>
      let y := y.emit (.touch id conn.obj)
      if auth.state ≠ .inprogress ∨ auth.authPrivate.isSome then some y
      else if error ≠ 0 then
        finish env y id conn { auth with error := error, state := .failure, uid := uidDefault }
      else finish env y id conn { auth with error := 0, state := .success, uid := conn.euid })

/-- An AUTHDATA that starts the authentication. -/
def startAuth (env : Env) (y : Sys K) (id : ℕ) (conn : Conn) (auth : Auth Challenge) (authType : ℕ) :
    Option (Sys K) :=
  if auth.state ≠ .init then fail env y id conn auth einval
  else
    let auth := { auth with authType := some authType }
    if conn.euid = uidDefault then fail env y id conn auth eperm
    else match PolicyComm.addrequest y.comm id 3 (authChallengeCb id) false with
      | .error err => fail env y id conn { auth with state := .inprogress } err
      | .ok (token, comm) =>
        let y := { y with comm := comm, s2m := y.s2m ++ [ToMaster.request token conn.euid] }
        some ((y.emit (.request id conn.obj token conn.euid)).put id conn
          { conn.server with auth := some { auth with state := .inprogress } })

/-- ANOUBIS_MESSAGE_MAXLEN. -/
def messageMaxlen : ℕ := 100000

/-- VERIFY_BUFFER for `payload` of an `Anoubis_AuthChallengeReplyMessage`, with the wrap of its unsigned
    sums and the bound in VERIFY_LENGTH. -/
def verifyBuffer (buf : Bytes) (start len : ℕ) : Bool :=
  let sum := (start + len) % 4294967296
  decide (start ≤ sum) && decide (sum ≤ messageMaxlen) &&
    decide (20 + sum ≤ messageMaxlen) && verifyLength buf (20 + sum)

/-- An AUTHDATA that answers the challenge. -/
def answerChallenge (env : Env) (y : Sys K) (id : ℕ) (conn : Conn) (auth : Auth Challenge) (buf : Bytes) :
    Option (Sys K) :=
  if auth.authType ≠ some transportandkey ∨ auth.state ≠ .inprogress then fail env y id conn auth einval
  else match auth.authPrivate with
    | none => fail env y id conn auth einval
    | some c =>
      let ivlen := u32 buf 12
      let siglen := u32 buf 16
      if !verifyLength buf 20 || !verifyBuffer buf 0 ivlen || !verifyBuffer buf ivlen siglen then
        fail env y id conn auth efault
      else if conn.euid ≠ u32 buf 8 ∨ c.authUid ≠ u32 buf 8 then fail env y id conn auth eperm
      else
        let iv := (buf.drop 20).take ivlen
        let sig := (buf.drop (20 + ivlen)).take siglen
        let auth := { auth with authPrivate := none }
        match PolicyComm.addrequest y.comm id 3 (authResultCb id) false with
        | .error err => fail env y id conn auth err
        | .ok (token, comm) =>
          let msg := ToMaster.verify token (u32 buf 8) (iv ++ c.challenge) sig
          let y := { y with comm := comm, s2m := y.s2m ++ [msg] }
          some ((y.emit (.verify id conn.obj token (u32 buf 8) iv c.challenge sig)).put id conn
            { conn.server with auth := some auth })

/-- `dispatch_authdata`. -/
def dispatchAuthdata (env : Env) (y : Sys K) (id : ℕ) (conn : Conn) (buf : Bytes) : Option (Sys K) :=
  match conn.server.auth with
  | none => some y
  | some auth =>
    let y := y.emit (.touch id conn.obj)
    if !verifyLength buf 8 then fail env y id conn auth einval
    else if u32 buf 4 = transport ∨ u32 buf 4 = transportandkey then startAuth env y id conn auth (u32 buf 4)
    else if u32 buf 4 = challengereply then answerChallenge env y id conn auth buf
    else finish env y id conn { auth with state := .failure, error := einval, uid := uidDefault }

/-! ### The master -/

/-- `dispatch_auth_request`: whether a challenge is needed, and the error of the configuration. -/
def needChallenge (m : MasterEnv K) (uid : ℕ) : Bool × ℕ :=
  match m.authMode with
  | .enabled => (true, 0)
  | .optional =>
    match m.certs uid with
    | some cert => if cert.ignore then (false, eperm) else (true, 0)
    | none => (false, 0)
  | .off => (false, 0)
  | .bad => (false, eacces)

/-- `dispatch_auth_request`: the answer, and whether the random numbers are initialised. -/
def dispatchAuthRequest (m : MasterEnv K) (rnd : Bool) (token uid : ℕ) : Challenge × Bool :=
  let (need, error) := needChallenge m uid
  let error := if need && !rnd && !m.randStatus then eacces else error
  let rnd := rnd || (need && m.randStatus)
  let noChallenge : Challenge := ⟨token, uid, if need then eperm else error, [], []⟩
  match m.certs uid with
  | none => (noChallenge, rnd)
  | some cert =>
    let error := if need && !cert.keyid.isEmpty && rnd && m.timeError ≠ 0 then m.timeError else error
    if error ≠ 0 ∨ need = false ∨ cert.keyid = [] then
      (⟨token, uid, if need then eperm else error, [], []⟩, rnd)
    else (⟨token, uid, 0, m.cdata, cert.keyid⟩, rnd)

/-- `cert_get_by_uid`: the certificate of the user, unless it is ignored. -/
def certGetByUid (m : MasterEnv K) (uid : ℕ) : Option (Cert K) := (m.certs uid).filter (fun c => !c.ignore)

/-- The check in `dispatch_auth_verify`; `sigOk` is `anoubis_sig_verify_buffer`. -/
def dispatchAuthVerify (sigOk : K → Bytes → Bytes → Bool) (cert : Option (Cert K)) (data sig : Bytes) : Bool :=
  match cert.bind Cert.pubkey with
  | none => false
  | some key => sigOk key data sig

/-! ### Steps -/

inductive Op (K : Type) where
  /-- `session_connect`. -/
  | connect (euid : ℕ)
  /-- `session_rxclient` with one message. -/
  | client (id : ℕ) (buf : Bytes)
  /-- The master handles the next message of the session engine. -/
  | master (m : MasterEnv K)
  /-- The session engine handles the next message of the master. -/
  | deliver
  /-- Something else happens to the table of requests. -/
  | other (op : PolicyComm.Op)
  /-- `session_destroy`. -/
  | disconnect (id : ℕ)

/-- The dispatchers that `session_connect` registers. -/
def dispatchers : List ℕ := [cAuthdata, 0x3A04, 0x3A02, 0x3A00, 0x3201, 0x3110, 0x3100]

/-- The server object of a new session. -/
def newServer : Server Challenge := { Server.create with dispatch := dispatchers }

/-- The request is one of the two of an authentication. -/
def isAuth : PolicyComm.Callback → Bool
  | .reply function _ => decide (function < 2)
  | .request _ => false

/-- What the rest of the daemon does to the table: it enters requests with callbacks of its own and has
    these answered. -/
def foreign (c : PolicyComm.Comm) : PolicyComm.Op → Bool
  | .addrequest _ _ cb _ => !isAuth cb
  | .process _ _ _ => true
  | .answer token _ _ _ => !c.req.any (fun r => r.token == token && isAuth r.callback)
  | .destroy _ => false

/-- `dispatch_m2s`: the answer to a request goes to its callback. -/
def dispatchM2s (env : Env) (y : Sys K) : ToSession → Option (Sys K)
  | .challenge c =>
    match y.comm.req.find? (fun r => r.token == c.token), PolicyComm.answer y.comm c.token c.error [] true with
    | some r, .ok comm =>
      match r.callback with
      | .reply 0 id => dispatchAuthChallenge env { y with comm := comm } id c
      | .reply 1 id => dispatchAuthResult env { y with comm := comm } id c.error
      | _ => some { y with comm := comm }
    | _, _ => some y
  | .result token _ error =>
    match y.comm.req.find? (fun r => r.token == token), PolicyComm.answer y.comm token error [] true with
    | some r, .ok comm =>
      match r.callback with
      | .reply 1 id => dispatchAuthResult env { y with comm := comm } id error
      | .reply 0 _ => none
      | _ => some { y with comm := comm }
    | _, _ => some y

/-- `session_rxclient` for one message: the server object processes it, and an AUTHDATA goes on to
    `dispatch_authdata`. -/
def sessionRxclient (env : Env) (y : Sys K) (id : ℕ) (buf : Bytes) : Option (Sys K) :=
  (y.conns id).bind (fun conn =>
    let r := anoubisServerProcess env conn.server buf
    let y :=
      if conn.server.auth.isNone && r.2.auth.isSome then
        ({ y with nextObj := y.nextObj + 1 }.emit (.attempt id y.nextObj)).put id { conn with obj := y.nextObj } r.2
      else y.put id conn r.2
    if r.1 = .dispatch cAuthdata then
      (y.conns id).bind (fun conn => dispatchAuthdata env y id conn buf)
    else some y)

/-- `session_connect`. -/
def sessionConnect (env : Env) (y : Sys K) (euid : ℕ) : Option (Sys K) :=
  (anoubisServerStart env newServer).map (fun r =>
    if r.1 < 0 then y
    else
      { y with
        conns := Function.update y.conns y.nextConn (some ⟨euid, r.2, 0⟩)
        nextConn := y.nextConn + 1 }.emit (.connect y.nextConn euid))

/-- `session_destroy`. -/
def sessionDestroy (y : Sys K) (id : ℕ) : Option (Sys K) :=
  (y.conns id).map (fun conn =>
    { y with
      conns := Function.update y.conns id none
      comm := if conn.server.chan then PolicyComm.destroy y.comm id else y.comm }.emit (.disconnect id))

/-- The master and the next message of the session engine. -/
def dispatchS2m (sigOk : K → Bytes → Bytes → Bool) (y : Sys K) (m : MasterEnv K) : ToMaster → Sys K
  | .request token uid =>
    let (c, rnd) := dispatchAuthRequest m y.rndInitialized token uid
    { y with m2s := y.m2s ++ [ToSession.challenge c], rndInitialized := rnd }.emit
      (.answer token uid m.authMode (m.certs uid) c)
  | .verify token uid data sig =>
    let cert := certGetByUid m uid
    let ok := dispatchAuthVerify sigOk cert data sig
    { y with m2s := y.m2s ++ [ToSession.result token uid (if ok then 0 else eperm)] }.emit
      (.verified token uid data sig cert ok)

def step (env : Env) (sigOk : K → Bytes → Bytes → Bool) (y : Sys K) : Op K → Option (Sys K)
  | .connect euid => sessionConnect env y euid
  | .client id buf => sessionRxclient env y id buf
  | .master m =>
    match y.s2m with
    | [] => none
    | msg :: rest => some (dispatchS2m sigOk { y with s2m := rest } m msg)
  | .deliver =>
    match y.m2s with
    | [] => none
    | msg :: rest => dispatchM2s env { y with m2s := rest } msg
  | .other op => if foreign y.comm op then some { y with comm := PolicyComm.step y.comm op } else none
  | .disconnect id => sessionDestroy y id

end Anoubis.Daemon.Auth

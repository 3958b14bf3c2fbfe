import Anoubis.Basic
import Anoubis.Lib.Run
import Anoubis.Lib.Trace

/-! The table of open requests (`anoubis_policy.c`).

    The session engine forwards requests of all its clients to the policy engine and to the master. One
    table remembers them: each request has a token of its own, the channel it came from and the callback
    for its answers.

        P_REQUEST --> comm_process --> addrequest --> comm->dispatch (token)      -- to the daemon -->
        P_REPLY   <-- callback     <-- comm_answer (token)                        <-- answer --
        connection closed          --> comm_destroy --> req->dispatch (abort)

    Callback and dispatcher are code of the caller and may come back with calls of their own, on the
    same channel as well: a `Call` carries the calls made inside. The table is in its final state
    whenever such code runs, so that a nested call is the sequence of its parts. `trace` is the record of
    what the table did. A request is always created with a channel and a callback, so that the tests for
    NULL in `anoubis_policy_comm_answer` have no counterpart. -/

namespace Anoubis.Proto.PolicyComm

open Anoubis.Lib

/-- POLICY_FLAG_START and POLICY_FLAG_END. -/
def flagStart (flags : ℕ) : Bool := flags.testBit 0
def flagEnd (flags : ℕ) : Bool := flags.testBit 1

/-- ANOUBIS_P_REQUEST. -/
def pRequest : ℕ := 0x3800

/-- A callback with its data: `anoubis_policy_request_callback` for a channel, or one of the functions
    of `session.c` for a server object. -/
inductive Callback where
  | request (chan : ℕ)
  | reply (function server : ℕ)
  deriving DecidableEq

/-- `struct policy_request`; `dispatch` says whether there is a dispatcher for the abort. -/
structure Request where
  token : ℕ
  chan : ℕ
  requestDataend : Bool
  replyDatastart : Bool
  replyDataend : Bool
  callback : Callback
  dispatch : Bool
  deriving DecidableEq

/-- A message as `anoubis_policy_comm_process` reads it. -/
structure Msg where
  long : Bool
  type : ℕ
  flags : ℕ
  payload : List UInt8
  deriving DecidableEq

inductive Event where
  /-- A request was entered into the table. -/
  | request (token chan : ℕ) (callback : Callback) (dispatch : Bool)
  /-- A message went to the dispatcher. -/
  | dispatch (token uid chan flags : ℕ) (payload : List UInt8)
  /-- An answer went to a callback, with POLICY_FLAG_START and POLICY_FLAG_END. -/
  | callback (token chan : ℕ) (callback : Callback) (error : ℕ) (data : List UInt8) (start fin : Bool)
  /-- `anoubis_policy_comm_destroy` was called. -/
  | destroy (chan : ℕ)
  /-- The dispatcher was told that a request is gone. -/
  | abort (token chan : ℕ)
  deriving DecidableEq

/-- `struct anoubis_policy_comm`. -/
structure Comm where
  nexttoken : ℕ
  req : List Request
  trace : List Event
  deriving DecidableEq

def Comm.emit (c : Comm) (x : Event) : Comm := { c with trace := c.trace ++ [x] }

/-- `anoubis_policy_comm_create`. -/
def Comm.create : Comm := ⟨0x10000000, [], []⟩

/-- `anoubis_policy_comm_addrequest`: the token, or an error. -/
def addrequest (c : Comm) (chan flags : ℕ) (callback : Callback) (dispatch : Bool) :
    Except ℕ (ℕ × Comm) :=
  match c.req.find? (fun r => r.chan == chan) with
  | some req =>
    if flagStart flags then .error ebusy
    else if req.requestDataend then .error einval
    else .ok (req.token, c)
  | none =>
    let token := c.nexttoken + 1
    .ok (token, { nexttoken := token
                  req := ⟨token, chan, flagEnd flags, false, false, callback, dispatch⟩ :: c.req
                  trace := c.trace ++ [.request token chan callback dispatch] })

/-- `anoubis_policy_comm_process` up to the call of the dispatcher. -/
def processBegin (c : Comm) (m : Msg) (uid chan : ℕ) : Except ℕ Comm :=
  if !m.long then .error erange
  else if m.type ≠ pRequest then .error einval
  else (addrequest c chan m.flags (.request chan) true).map (fun r =>
    r.2.emit (.dispatch r.1 uid chan m.flags m.payload))

/-- `anoubis_policy_comm_answer` up to the call of the callback. -/
def answer (c : Comm) (token error : ℕ) (data : List UInt8) (fin : Bool) : Except ℕ Comm :=
  match c.req.find? (fun r => r.token == token) with
  | none => .error esrch
  | some req =>
    if req.replyDataend then .error einval
    else
      let req' := if fin then c.req.eraseP (fun r => r.token == token)
        else c.req.map (fun r => if r.token == token then { r with replyDatastart := true } else r)
      .ok ({ c with req := req' }.emit
        (.callback token req.chan req.callback error data (!req.replyDatastart) fin))

/-- `anoubis_policy_comm_destroy` up to the call of the dispatcher. -/
def destroy (c : Comm) (chan : ℕ) : Comm :=
  match c.req.find? (fun r => r.chan == chan) with
  | none => c.emit (.destroy chan)
  | some req =>
    let c' := { c with req := c.req.eraseP (fun r => r.chan == chan) }.emit (.destroy chan)
    if req.dispatch then c'.emit (.abort req.token chan) else c'

/-! ### Calls with the calls inside -/

/-- `inner` are the calls made by the callback or the dispatcher; `ret` is what the dispatcher
    returns. -/
inductive Call where
  | addrequest (chan flags : ℕ) (callback : Callback) (dispatch : Bool)
  | process (m : Msg) (uid chan : ℕ) (inner : List Call) (ret : ℤ) (abort : List Call)
  | answer (token error : ℕ) (data : List UInt8) (fin : Bool) (inner : List Call)
  | destroy (chan : ℕ) (inner : List Call)

mutual

/-- One call with everything that happens inside. -/
def Call.exec : Call → Comm → Comm
  | .addrequest chan flags callback dispatch, c =>
    match addrequest c chan flags callback dispatch with
    | .error _ => c
    | .ok r => r.2
  | .process m uid chan inner ret abort, c =>
    match processBegin c m uid chan with
    | .error _ => c
    | .ok c =>
      let c := execs inner c
      if ret < 0 then execs abort (destroy c chan) else c
  | .answer token error data fin inner, c =>
    match answer c token error data fin with
    | .error _ => c
    | .ok c => execs inner c
  | .destroy chan inner, c => execs inner (destroy c chan)

def execs : List Call → Comm → Comm
  | [], c => c
  | call :: calls, c => execs calls (call.exec c)

end

/-! ### Single steps -/

/-- What happens between two calls of foreign code. -/
inductive Op where
  | addrequest (chan flags : ℕ) (callback : Callback) (dispatch : Bool)
  | process (m : Msg) (uid chan : ℕ)
  | answer (token error : ℕ) (data : List UInt8) (fin : Bool)
  | destroy (chan : ℕ)
  deriving DecidableEq

def step (c : Comm) : Op → Comm
  | .addrequest chan flags callback dispatch =>
    match addrequest c chan flags callback dispatch with
    | .error _ => c
    | .ok r => r.2
  | .process m uid chan =>
    match processBegin c m uid chan with
    | .error _ => c
    | .ok c => c
  | .answer token error data fin =>
    match answer c token error data fin with
    | .error _ => c
    | .ok c => c
  | .destroy chan => destroy c chan

mutual

/-- What the single steps keep, the calls keep, however deep they are nested. -/
theorem exec_keeps {I : Comm → Prop} (h : ∀ c op, I c → I (step c op)) :
    ∀ (call : Call) (c : Comm), I c → I (call.exec c)
  | .addrequest chan flags callback dispatch, c, hc => by
    have := h c (.addrequest chan flags callback dispatch) hc
    rw [Call.exec]
    exact this
  | .process m uid chan inner ret abort, c, hc => by
    have hbegin := h c (.process m uid chan) hc
    rw [step] at hbegin
    rw [Call.exec]
    cases hp : processBegin c m uid chan with
    | error e => exact hc
    | ok c₁ =>
      rw [hp] at hbegin
      have hinner : I (execs inner c₁) := execs_keeps h inner c₁ hbegin
      simp only
      split
      · exact execs_keeps h abort _ (h _ (.destroy chan) hinner)
      · exact hinner
  | .answer token error data fin inner, c, hc => by
    have hans := h c (.answer token error data fin) hc
    rw [step] at hans
    rw [Call.exec]
    cases ha : answer c token error data fin with
    | error e => exact hc
    | ok c₁ =>
      rw [ha] at hans
      exact execs_keeps h inner c₁ hans
  | .destroy chan inner, c, hc => by
    rw [Call.exec]
    exact execs_keeps h inner _ (h c (.destroy chan) hc)

theorem execs_keeps {I : Comm → Prop} (h : ∀ c op, I c → I (step c op)) :
    ∀ (calls : List Call) (c : Comm), I c → I (execs calls c)
  | [], c, hc => by
    rw [execs]
    exact hc
  | call :: calls, c, hc => by
    rw [execs]
    exact execs_keeps h calls _ (exec_keeps h call c hc)

end

end Anoubis.Proto.PolicyComm

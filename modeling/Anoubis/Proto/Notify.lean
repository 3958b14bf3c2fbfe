import Anoubis.Basic
import Anoubis.Lib.Refs
import Anoubis.Lib.Run
import Mathlib.Data.BitVec

/-! Notifications and escalations (`anoubis_notify.c`; the callback is `notify_callback` of
    `session.c`).

    A group is the notification side of one client connection: the uid it authenticated as, what it
    registered for, and the escalations it has not settled yet. A head is one message on its way to
    the groups. An escalation (ASK) leaves an event in every group it was sent to; the event stands on
    two lists until both of its flags are set.

        group.pending --> event <-- head.events        FLAG_VERDICT: no (further) answer from this peer
                          event.head --> head          FLAG_REPLY:   the result was sent, head = NULL

    `eventcount` of the head counts the events without FLAG_VERDICT. When the first peer decides or the
    last one is gone, `anoubis_notify_sendreply` tells every peer the result and runs the callback,
    which sends the verdict to the policy engine and destroys the head.

    Objects have addresses, `malloc` returns one that was not used before, and a program that follows a
    pointer to a freed object fails. `sent` is the trace of what was put on the channels, `log` what
    happened to each head. `stat` is ANOUBIS_SOURCE_STAT of the kernel headers. -/

namespace Anoubis.Proto.Notify

open Anoubis.Lib

/-- `u_int32_t`, `uid_t`, and an `int` as its 32 bits. -/
abbrev U32 := BitVec 32

/-- ANOUBIS_E_IO. -/
def eIo : U32 := 5

/-! ### Messages -/

/-- The opcodes of an Anoubis_NotifyMessage. -/
inductive Kind where
  | ask
  | notify
  | lognotify
  deriving DecidableEq

/-- The messages `anoubis_notify_create_head` accepts, with the fields that decide who gets them. -/
inductive Msg where
  | policychange (uid : U32)
  | pgchange (uid : U32)
  | statusnotify
  | event (kind : Kind) (uid ruleid subsystem : U32) (token : ℕ)
  deriving DecidableEq

/-- Only an ANOUBIS_N_ASK expects an answer. -/
def Msg.isAsk : Msg → Bool
  | .event .ask _ _ _ _ => true
  | _ => false

/-- The token of a message; only an Anoubis_NotifyMessage carries one. -/
def Msg.token : Msg → ℕ
  | .event _ _ _ _ token => token
  | _ => 0

/-! ### Memory -/

/-- `struct anoubis_notify_reg`. -/
structure Reg where
  ruleid : U32
  uid : U32
  subsystem : U32
  deriving DecidableEq

/-- `struct anoubis_notify_group`. -/
structure Group where
  uid : U32
  regs : List Reg
  pending : List ℕ
  deriving DecidableEq

/-- `struct anoubis_notify_head`; `finish` says whether the callback is `notify_callback` or NULL. -/
structure Head where
  events : List ℕ
  m : Msg
  verdict : U32
  eventcount : ℤ
  finish : Bool
  you : Option ℕ
  uid : U32
  reply : Bool
  deriving DecidableEq

/-- `struct anoubis_notify_event`, the two bits of `flags` apart. -/
structure Event where
  grp : ℕ
  head : Option ℕ
  verdict : Bool
  reply : Bool
  token : ℕ
  deriving DecidableEq

/-- What goes over a channel: a notification, or ANOUBIS_N_RESYOU / ANOUBIS_N_RESOTHER. -/
inductive Out where
  | msg (m : Msg)
  | result (token : ℕ) (uid error : U32) (you : Bool)
  deriving DecidableEq

/-- A message on the channel of the group `grp`, which belongs to the user `uid`. -/
structure Sent where
  grp : ℕ
  uid : U32
  out : Out
  deriving DecidableEq

/-- What happens to a head. -/
inductive Deed where
  | deliver (grp : ℕ)
  | answer (verdict : U32) (delegate : Bool)
  | cancel (verdict : U32)
  | finish (verdict : U32)
  | destroy
  deriving DecidableEq

structure Store where
  groups : ℕ → Option Group
  heads : ℕ → Option Head
  events : ℕ → Option Event
  next : ℕ
  sent : List Sent
  log : List (ℕ × Deed)

abbrev M := StateT Store Option

def readGroup (g : ℕ) : M Group := fun s => (s.groups g).map (fun x => (x, s))
def readHead (h : ℕ) : M Head := fun s => (s.heads h).map (fun x => (x, s))
def readEvent (e : ℕ) : M Event := fun s => (s.events e).map (fun x => (x, s))

def writeGroup (g : ℕ) (x : Option Group) : M Unit :=
  fun s => some ((), { s with groups := Function.update s.groups g x })

def writeHead (h : ℕ) (x : Option Head) : M Unit :=
  fun s => some ((), { s with heads := Function.update s.heads h x })

def writeEvent (e : ℕ) (x : Option Event) : M Unit :=
  fun s => some ((), { s with events := Function.update s.events e x })

/-- The address behind a pointer that must not be NULL. -/
def deref (p : Option ℕ) : M ℕ := fun s => p.map (fun a => (a, s))

/-- `malloc`. -/
def malloc : M ℕ := fun s => some (s.next, { s with next := s.next + 1 })

/-- A message that `anoubis_msg_send` took. -/
def send (x : Sent) : M Unit := fun s => some ((), { s with sent := s.sent ++ [x] })

def note (h : ℕ) (d : Deed) : M Unit := fun s => some ((), { s with log := s.log ++ [(h, d)] })

/-! ### Groups and registrations -/

/-- `anoubis_notify_create`. -/
def anoubisNotifyCreate (uid : U32) : M ℕ := do
  let g ← malloc
  writeGroup g (some ⟨uid, [], []⟩)
  pure g

/-- `anoubis_register_ok`. -/
def anoubisRegisterOk (stat : U32) (ng : Group) (uid ruleid subsystem : U32) : Bool :=
  if subsystem = stat then uid == 0 && ruleid == 0
  else ng.uid == 0 || (ng.uid == uid && ng.uid != -1)

/-- `anoubis_notify_register`. -/
def anoubisNotifyRegister (stat : U32) (g : ℕ) (uid ruleid subsystem : U32) : M ℤ := do
  let ng ← readGroup g
  if !anoubisRegisterOk stat ng uid ruleid subsystem then pure (-eperm)
  else do
    writeGroup g (some { ng with regs := ⟨ruleid, uid, subsystem⟩ :: ng.regs })
    pure 0

/-- `reg_match`: uid -1, rule 0 and subsystem 0 are wildcards. -/
def regMatch (uid ruleid subsystem : U32) (reg : Reg) : Bool :=
  (reg.uid == -1 || reg.uid == uid) && (reg.ruleid == 0 || reg.ruleid == ruleid)
    && (reg.subsystem == 0 || reg.subsystem == subsystem)

/-- `reg_match_all`. -/
def regMatchAll (ng : Group) (uid ruleid subsystem : U32) : Bool :=
  ng.regs.any (regMatch uid ruleid subsystem)

/-- `anoubis_notify_unregister`. -/
def anoubisNotifyUnregister (g : ℕ) (uid ruleid subsystem : U32) : M ℤ := do
  let ng ← readGroup g
  if regMatchAll ng uid ruleid subsystem then do
    writeGroup g (some { ng with regs := ng.regs.eraseP (regMatch uid ruleid subsystem) })
    pure 0
  else pure (-esrch)

/-! ### Dropping events -/

/-- The FLAG_VERDICT part of `drop_event`. -/
def dropVerdict (e : ℕ) : M Unit := do
  let ev ← readEvent e
  if ev.verdict then pure ()
  else if ev.reply then writeEvent e (some { ev with verdict := true })
  else do
    let h ← deref ev.head
    let head ← readHead h
    writeEvent e (some { ev with verdict := true })
    writeHead h (some { head with eventcount := head.eventcount - 1 })

/-- The FLAG_REPLY part of `drop_event`. -/
def dropReply (e : ℕ) : M Unit := do
  let ev ← readEvent e
  if ev.reply then pure ()
  else do
    let h ← deref ev.head
    let head ← readHead h
    writeEvent e (some { ev with head := none, reply := true })
    writeHead h (some { head with events := head.events.erase e })

/-- The end of `drop_event`: with both flags set, leave the group and free the event. -/
def dropFree (e : ℕ) : M Unit := do
  let ev ← readEvent e
  if ev.verdict && ev.reply then do
    let ng ← readGroup ev.grp
    writeGroup ev.grp (some { ng with pending := ng.pending.erase e })
    writeEvent e none
  else pure ()

def onlyIf (c : Bool) (m : M Unit) : M Unit := if c then m else pure ()

/-- `drop_event`; `verdict` and `reply` are the bits of the argument. -/
def dropEvent (e : ℕ) (verdict reply : Bool) : M Unit := do
  onlyIf verdict (dropVerdict e)
  onlyIf reply (dropReply e)
  dropFree e

/-! ### Heads -/

/-- `anoubis_notify_create_head`. The escalations are created with the callback, all other messages
    without one. -/
def anoubisNotifyCreateHead (m : Msg) : M ℕ := do
  let h ← malloc
  writeHead h (some ⟨[], m, eIo, 0, m.isAsk, none, 0, false⟩)
  pure h

/-- The loop of `anoubis_notify_destroy_head`; every round takes the first event off the list. -/
def dropEvents (h : ℕ) : ℕ → M Unit
  | 0 => failure
  | n + 1 => do
    let head ← readHead h
    match head.events with
    | [] => pure ()
    | e :: _ => do
      dropEvent e false true
      dropEvents h n

/-- `anoubis_notify_destroy_head`. -/
def anoubisNotifyDestroyHead (h : ℕ) : M Unit := do
  let head ← readHead h
  dropEvents h (head.events.length + 1)
  writeHead h none

/-- `notify_callback` on a live head. -/
def notifyCallback (h : ℕ) (verdict : U32) : M Unit := do
  note h (.finish verdict)
  anoubisNotifyDestroyHead h

/-- The result for one peer. `ret` is what `anoubis_msg_send` returns on the channel of a group. -/
def sendResult (ret : ℕ → ℤ) (verdict : U32) (you : Option ℕ) (uid : U32) (e : ℕ) : M Unit := do
  let nev ← readEvent e
  let ng ← readGroup nev.grp
  if ret nev.grp < 0 then dropEvent e true false
  else send ⟨nev.grp, ng.uid, .result nev.token uid verdict (you == some e)⟩

/-- The loop of `anoubis_notify_sendreply`. -/
def sendResults (ret : ℕ → ℤ) (verdict : U32) (you : Option ℕ) (uid : U32) (h : ℕ) : ℕ → M Unit
  | 0 => failure
  | n + 1 => do
    let head ← readHead h
    match head.events with
    | [] => pure ()
    | e :: _ => do
      sendResult ret verdict you uid e
      dropEvent e false true
      sendResults ret verdict you uid h n

/-- The end of `anoubis_notify_sendreply`. -/
def runFinish (h : ℕ) : M Unit := do
  let head ← readHead h
  if head.finish then notifyCallback h head.verdict else pure ()

/-- `anoubis_notify_sendreply`. -/
def anoubisNotifySendreply (ret : ℕ → ℤ) (h : ℕ) (verdict : U32) (you : Option ℕ) (uid : U32) : M ℤ :=
  if verdict.toInt < 0 then pure (-einval)
  else do
    let head ← readHead h
    if head.reply then pure 0
    else do
      writeHead h (some { head with reply := true, verdict := verdict, uid := uid })
      sendResults ret verdict you uid h (head.events.length + 1)
      runFinish h
      pure 0

/-! ### Notification and answer -/

/-- `anoubis_notify` behind the registration check. `ret` is the result of `anoubis_msg_send`. -/
def deliver (g h : ℕ) (ng : Group) (head : Head) (limit : ℕ) (ret : ℤ) (known : Bool) : M ℤ :=
  if known then pure (-eexist)
  else if !head.m.isAsk then
    if ret < 0 then pure ret
    else do
      send ⟨g, ng.uid, .msg head.m⟩
      pure 1
  else if limit ≠ 0 ∧ limit ≤ ng.pending.length then pure (-enospc)
  else if ret < 0 then pure ret
  else do
    let nev ← malloc
    send ⟨g, ng.uid, .msg head.m⟩
    note h (.deliver g)
    writeEvent nev (some ⟨g, some h, false, false, head.m.token⟩)
    writeGroup g (some { ng with pending := nev :: ng.pending })
    writeHead h (some { head with events := nev :: head.events, eventcount := head.eventcount + 1 })
    pure 1

/-- The events of a group that carry the token. -/
def findToken (ng : Group) (token : ℕ) : M (Option ℕ) :=
  fun s => some (ng.pending.find? (fun e => (s.events e).any (·.token == token)), s)

/-- `anoubis_notify`: who may get the message, and under which uid, rule and subsystem it counts. -/
def anoubisNotify (stat : U32) (g h : ℕ) (limit : ℕ) (ret : ℤ) : M ℤ := do
  let ng ← readGroup g
  let head ← readHead h
  let known ← findToken ng head.m.token
  match head.m with
  | .policychange uid =>
    if ng.uid ≠ 0 ∧ ng.uid ≠ uid then pure 0
    else if !regMatchAll ng uid 0 stat then pure 0
    else deliver g h ng head limit ret known.isSome
  | .pgchange uid =>
    if ng.uid ≠ uid then pure 0
    else if !regMatchAll ng uid 0 stat then pure 0
    else deliver g h ng head limit ret known.isSome
  | .statusnotify =>
    if !regMatchAll ng 0 0 stat then pure 0
    else deliver g h ng head limit ret known.isSome
  | .event _ uid ruleid subsystem token =>
    if token = 0 then pure (-einval)
    else if !regMatchAll ng uid ruleid subsystem then pure 0
    else deliver g h ng head limit ret known.isSome

/-- `anoubis_notify_answer` for an event whose head still waits. -/
def answerHead (ret : ℕ → ℤ) (ng : Group) (e h : ℕ) (verdict : U32) (delegate : Bool) : M ℤ := do
  dropEvent e true false
  let head ← readHead h
  writeHead h (some { head with verdict := verdict, uid := ng.uid, you := some e })
  note h (.answer verdict delegate)
  if delegate && head.eventcount != 0 then pure 0
  else do
    let _ ← anoubisNotifySendreply ret h verdict (some e) ng.uid
    pure 0

/-- `anoubis_notify_answer` for the event with the token. -/
def answerEvent (ret : ℕ → ℤ) (ng : Group) (e : ℕ) (verdict : U32) (delegate : Bool) : M ℤ := do
  let nev ← readEvent e
  if nev.verdict then pure (-esrch)
  else if nev.reply then do
    dropEvent e true false
    pure 0
  else do
    let h ← deref nev.head
    answerHead ret ng e h verdict delegate

/-- `anoubis_notify_answer`. -/
def anoubisNotifyAnswer (ret : ℕ → ℤ) (g : ℕ) (token : ℕ) (verdict : U32) (delegate : Bool) :
    M ℤ := do
  let ng ← readGroup g
  let nev ← findToken ng token
  match nev with
  | none => pure (-esrch)
  | some e => answerEvent ret ng e verdict delegate

/-! ### The end of a group -/

/-- After an event was dropped: finish its head if that was the last one. -/
def orphan (ret : ℕ → ℤ) : Option ℕ → M Unit
  | none => pure ()
  | some h => do
    let head ← readHead h
    if head.eventcount ≠ 0 then pure ()
    else do
      let _ ← anoubisNotifySendreply ret h head.verdict head.you head.uid
      pure ()

/-- The loop of `anoubis_notify_destroy`; every round takes the first event off the list. -/
def dropPending (ret : ℕ → ℤ) (g : ℕ) : ℕ → M Unit
  | 0 => failure
  | n + 1 => do
    let ng ← readGroup g
    match ng.pending with
    | [] => pure ()
    | e :: _ => do
      let nev ← readEvent e
      dropEvent e true true
      orphan ret nev.head
      dropPending ret g n

/-- `anoubis_notify_destroy`. -/
def anoubisNotifyDestroy (ret : ℕ → ℤ) (g : ℕ) : M Unit := do
  let ng ← readGroup g
  writeGroup g (some { ng with regs := [] })
  dropPending ret g (ng.pending.length + 1)
  writeGroup g none

/-! ### Runs -/

/-- What the session engine calls, with the results of `anoubis_msg_send`. -/
inductive Op where
  | create (uid : U32)
  | register (g : ℕ) (uid ruleid subsystem : U32)
  | unregister (g : ℕ) (uid ruleid subsystem : U32)
  | createHead (m : Msg)
  | notify (g h limit : ℕ) (ret : ℤ)
  | answer (g token : ℕ) (verdict : U32) (delegate : Bool) (ret : ℕ → ℤ)
  | sendreply (h : ℕ) (verdict : U32) (you : Option ℕ) (uid : U32) (ret : ℕ → ℤ)
  | destroy (g : ℕ) (ret : ℕ → ℤ)
  | destroyHead (h : ℕ)

/-- A cancellation counts if `anoubis_notify_sendreply` takes it. -/
def noteCancel (h : ℕ) (verdict : U32) : M Unit := do
  let head ← readHead h
  if head.finish ∧ ¬ verdict.toInt < 0 then note h (.cancel verdict) else pure ()

def noteDestroy (h : ℕ) : M Unit := note h .destroy

def Op.call (stat : U32) : Op → M Unit
  | .create uid => do
    let _ ← anoubisNotifyCreate uid
    pure ()
  | .register g uid ruleid subsystem => do
    let _ ← anoubisNotifyRegister stat g uid ruleid subsystem
    pure ()
  | .unregister g uid ruleid subsystem => do
    let _ ← anoubisNotifyUnregister g uid ruleid subsystem
    pure ()
  | .createHead m => do
    let _ ← anoubisNotifyCreateHead m
    pure ()
  | .notify g h limit ret => do
    let _ ← anoubisNotify stat g h limit ret
    pure ()
  | .answer g token verdict delegate ret => do
    let _ ← anoubisNotifyAnswer ret g token verdict delegate
    pure ()
  | .sendreply h verdict you uid ret => do
    noteCancel h verdict
    let _ ← anoubisNotifySendreply ret h verdict you uid
    pure ()
  | .destroy g ret => anoubisNotifyDestroy ret g
  | .destroyHead h => do
    noteDestroy h
    anoubisNotifyDestroyHead h

/-- One call; it fails if it follows a pointer to a freed object. -/
def step (stat : U32) (s : Store) (op : Op) : Option Store :=
  ((op.call stat).run s).map Prod.snd

/-- No group, no head. -/
def Store.init : Store := ⟨fun _ => none, fun _ => none, fun _ => none, 0, [], []⟩

end Anoubis.Proto.Notify

import Anoubis.Daemon.Amsg
import Anoubis.Daemon.Sizes

/-! Scanner children of the master (`scanner.c`).

    The master forks a child that scans a file for a user and writes one reply message into a pipe. The
    event loop is told to watch a descriptor for the scan, SIGCHLD reports the exit of the child; the exit
    handler reads what is left in the pipe and answers the commit request.

        start --> scanprocs --child exits--> drain the pipe --> eventq_m2p
                     │
                  event loop --readable--> dispatch_scand2m

    The unread bytes of the pipe and those the child still has to write belong to the kernel and to the
    child. The message of the child is that of `scanner_main`, so its size field is its length.
    `master_terminate`, and a loop that does not end within its rounds, is `none`. -/

namespace Anoubis.Daemon.Scanner

open Anoubis.Daemon.Amsg (Bytes Msg msgSize fillFrom)
open Anoubis.Daemon.Sizes (Kernel anoubisdMsgSize host)

/-! ### Data -/

/-- EINTR. -/
def eintr : ℕ := 4

/-- The index of ANOUBISD_MSG_PGCOMMIT_REPLY. -/
def pgcommitReply : ℕ := 27

/-- `struct scanproc`. `sp` is its address; `pipe` is pipe[0], where -1 is `none`. -/
structure ScanProc where
  sp : ℕ
  token : ℕ
  scanfile : ℕ
  pipe : Option ℕ
  uid : ℕ
  childpid : ℕ
  msgbuf : Bytes
  msgoff : ℕ
  unread : Bytes
  unwritten : Bytes

/-- A registered read event: its descriptor and its callback data. -/
structure Registered where
  fd : ℕ
  sp : ℕ
  deriving DecidableEq

/-- `struct anoubisd_msg_pgcommit_reply`. -/
structure Reply where
  token : ℕ
  error : ℕ
  payload : Bytes
  deriving DecidableEq

/-- `scanprocs`, the events of the event loop, and the messages that were enqueued. -/
structure Master where
  scanprocs : List ScanProc
  events : List Registered
  queue : List Reply

/-- The status of waitpid(2). -/
inductive Status where
  | exited (code : ℕ)
  | signaled (sig : ℕ)
  deriving DecidableEq

/-! ### Reading the reply of the child -/

/-- The size that a reply may have. -/
def replyLimit : ℕ := 8000

/-- `if (msg->size > 8000) msg->size = 8000;`, in the byte order of the machine. -/
def limitSize (m : Bytes) : Bytes := if msgSize m > replyLimit then [0x40, 0x1f, 0, 0] ++ m.drop 4 else m

/-- The start of a round: the size is limited once the header is there. -/
def limited (sp : ScanProc) : ScanProc :=
  if sp.msgoff < 8 then sp else { sp with msgbuf := limitSize sp.msgbuf }

/-- `len`, an unsigned int. -/
def wanted (sp : ScanProc) : ℕ :=
  if sp.msgoff < 8 then 8 else (msgSize (limitSize sp.msgbuf) % 4294967296).toNat

theorem eight_le_limit : 8 ≤ replyLimit := by decide

/-- The size that the reading goes for, once the header is there. -/
theorem wanted_header {sp : ScanProc} (hoff : 8 ≤ sp.msgoff) {n : ℕ} (hn : msgSize (limitSize sp.msgbuf) = n)
    (hmax : n ≤ replyLimit) : wanted sp = n := by
  have hlim : replyLimit < 4294967296 := by decide
  rw [wanted, if_neg (by omega), hn]
  omega

/-- `abuf_realloc`; what is in new memory is up to malloc. -/
def grow (junk : ℕ → UInt8) (len : ℕ) (m : Bytes) : Bytes :=
  if len > m.length then m ++ (List.range (len - m.length)).map junk else m

/-- One round of the loop of `dispatch_scand2m`: it goes on, or it is left by `break` (true) or `return`.
    read(2) returns zero at the end of the data if nobody can write any more, and an error otherwise. -/
def readRound (junk : ℕ → UInt8) (eof : Bool) (sp : ScanProc) : ScanProc ⊕ (ScanProc × Bool) :=
  let len := wanted sp
  let sp := limited sp
  if len ≤ sp.msgoff then .inr (sp, true)
  else
    let sp := { sp with msgbuf := grow junk len sp.msgbuf }
    let data := sp.unread.take (len - sp.msgoff)
    if data = [] then .inr (sp, eof)
    else .inl { sp with
      msgbuf := sp.msgbuf.take sp.msgoff ++ data ++ sp.msgbuf.drop (sp.msgoff + data.length)
      msgoff := sp.msgoff + data.length
      unread := sp.unread.drop data.length }

/-- A round that goes on has read something. -/
theorem readRound_unread {junk : ℕ → UInt8} {eof : Bool} {sp sp' : ScanProc}
    (h : readRound junk eof sp = .inl sp') : sp'.unread.length < sp.unread.length := by
  have hunread : (limited sp).unread = sp.unread := by
    rw [limited]
    split
    · rfl
    · rfl
  rw [readRound] at h
  dsimp only at h
  split at h
  · cases h
  · split at h
    · cases h
    · rename_i hlen hdata
      have hpos : 0 < ((limited sp).unread.take (wanted sp - (limited sp).msgoff)).length :=
        List.length_pos_iff.mpr hdata
      rw [← Sum.inl.inj h]
      dsimp only
      rw [List.length_drop, ← hunread]
      have hle := List.length_take_le' (wanted sp - (limited sp).msgoff) (limited sp).unread
      omega

/-- The loop of `dispatch_scand2m`. -/
def readMsg (junk : ℕ → UInt8) (eof : Bool) (sp : ScanProc) : ScanProc × Bool :=
  match _h : readRound junk eof sp with
  | .inl sp' => readMsg junk eof sp'
  | .inr r => r
termination_by sp.unread.length
decreasing_by exact readRound_unread _h

/-- `dispatch_scand2m`; the second component says that the event was deleted and the pipe closed. -/
def dispatchScand2m (junk : ℕ → UInt8) (eof : Bool) (fd : ℕ) (sp : ScanProc) : Option (ScanProc × Bool) :=
  match sp.pipe with
  | none => some (sp, false)
  | some p =>
    if p ≠ fd then none
    else
      let r := readMsg junk eof sp
      if r.2 then some ({ r.1 with pipe := none }, true) else some (r.1, false)

/-- The loop of `anoubisd_scanproc_exit`, for at most so many rounds. The child has exited. -/
def drain (junk : ℕ → UInt8) : ℕ → ScanProc → Bool → Option (ScanProc × Bool)
  | 0, _, _ => none
  | n + 1, sp, deleted =>
    match sp.pipe with
    | none => some (sp, deleted)
    | some fd => (dispatchScand2m junk true fd sp).bind fun r => drain junk n r.1 (deleted || r.2)

/-! ### The exit of a child -/

/-- The size of a reply is an int. -/
theorem bmod_limit {n : ℕ} (h : n ≤ replyLimit) : (n : ℤ).bmod 4294967296 = n := by
  have hlim : replyLimit < 2147483648 := by decide
  exact Int.bmod_eq_of_le (by omega) (by omega)

/-- `amsg_verify_nonfatal`: the message as it stands after the call, `some none` if it is refused. -/
def amsgVerifyNonfatal (K : Kernel) (m : Bytes) : Option (Option Bytes) :=
  if msgSize m < 8 then none
  else (anoubisdMsgSize K m).map fun tmp =>
    if tmp < 0 ∨ tmp > msgSize m then none
    else if tmp < msgSize m - 8 then none
    else some (fillFrom tmp.toNat m)

/-- ANOUBIS_SCAN_SUCCESS and fremovexattr(2): the errno if the call fails. -/
structure Commit where
  scanSuccess : Option ℕ
  fremovexattr : Option ℕ

/-- `err` and, if it is zero, the message of the child, behind the loop. -/
def scanReply (K : Kernel) (env : Commit) (sp : ScanProc) : Option (Except ℕ Bytes) :=
  if sp.msgoff < 8 ∨ sp.msgbuf.length < 8 then some (.error efault)
  else if host sp.msgbuf 4 4 ≠ pgcommitReply then some (.error efault)
  else if (sp.msgbuf.length : ℤ).bmod 4294967296 ≠ msgSize sp.msgbuf then some (.error efault)
  else (amsgVerifyNonfatal K sp.msgbuf).map fun
    | none => .error efault
    | some m =>
      if host m 20 4 ≠ 0 then .ok m
      else match env.scanSuccess, env.fremovexattr with
        | some errno, _ => .error errno
        | none, some errno => .error errno
        | none, none => .ok m

/-- The reply behind `out`; `msg_factory` returns NULL for a bad size. -/
def makeReply (token : ℕ) : Except ℕ Bytes → Option Reply
  | .error err => some ⟨token, err, []⟩
  | .ok m =>
    let extra := (host m 16 4 : ℤ).bmod 4294967296
    if extra + 24 < 8 ∨ extra + 24 > 100000 then none
    else some ⟨token, host m 20 4, (m.drop 24).take extra.toNat⟩

theorem size_limit {n : ℕ} (h : n ≤ replyLimit) : ¬ ((n : ℤ) + 24 < 8 ∨ (n : ℤ) + 24 > 100000) := by
  have hlim : replyLimit < 99000 := by decide
  omega

theorem makeReply_eq (token : ℕ) (m : Bytes) {x : ℤ} (hx : (host m 16 4 : ℤ).bmod 4294967296 = x) :
    makeReply token (.ok m) = if x + 24 < 8 ∨ x + 24 > 100000 then none
      else some ⟨token, host m 20 4, (m.drop 24).take x.toNat⟩ := by
  rw [← hx]
  rfl

theorem makeReply_ok (token : ℕ) {m : Bytes} (h : host m 16 4 ≤ replyLimit) :
    makeReply token (.ok m) = some ⟨token, host m 20 4, (m.drop 24).take (host m 16 4)⟩ := by
  rw [makeReply_eq token m (bmod_limit h), if_neg (size_limit h), Int.toNat_natCast]

/-- `event_del`. -/
def eventDel (sp : ℕ) (events : List Registered) : List Registered := events.filter (·.sp ≠ sp)

/-- `sp->childpid && sp->childpid == pid`. -/
def isChild (pid : ℕ) (sp : ScanProc) : Bool := sp.childpid ≠ 0 && sp.childpid = pid

/-- `anoubisd_scanproc_exit`. -/
def scanprocExit (K : Kernel) (junk : ℕ → UInt8) (rounds : ℕ) (s : Master) (pid : ℕ) (status : Status)
    (env : Commit) : Option (ℤ × Master) :=
  match s.scanprocs.find? (isChild pid) with
  | none => some (0, s)
  | some sp =>
    let rest := s.scanprocs.eraseP (isChild pid)
    if status ≠ .exited 0 then
      some (1, ⟨rest, eventDel sp.sp s.events, s.queue ++ [⟨sp.token, eintr, []⟩]⟩)
    else
      (drain junk rounds sp false).bind fun (sp, deleted) =>
      (scanReply K env sp).bind fun result =>
      (makeReply sp.token result).map fun reply =>
      (1, ⟨rest, if deleted then eventDel sp.sp s.events else s.events, s.queue ++ [reply]⟩)

/-! ### The start of a scan -/

/-- What the system calls of `anoubisd_scan_start` return: the address of the structure, the descriptors
    of the pipe and the process ID of the child, or an errno. -/
structure Spawn where
  sp : ℕ
  pipe : Except ℕ (ℕ × ℕ)
  fork : Except ℕ ℕ

/-- `anoubisd_scan_start`. `scanproc_by_uid` takes a `uid_t`; the event is set up for the file to scan.
    `out` is the message that the child will write. -/
def scanStart (s : Master) (token fd authUid : ℕ) (env : Spawn) (out : Msg) : ℤ × Master :=
  if s.scanprocs.any (fun sp => sp.uid = authUid % 4294967296) then (-(ebusy : ℤ), s)
  else match env.pipe, env.fork with
    | .error errno, _ => (-(errno : ℤ), s)
    | .ok _, .error errno => (-(errno : ℤ), s)
    | .ok (p, _), .ok pid =>
      (0, { s with
        scanprocs := ⟨env.sp, token, fd, some p, authUid, pid, [], 0, [], out.bytes⟩ :: s.scanprocs
        events := ⟨fd, env.sp⟩ :: s.events })

/-! ### Events -/

/-- What happens to the master: a request to scan a file, some bytes of a child, a callback of the event
    loop, and the exit of a child. -/
inductive Event where
  | start (token fd authUid : ℕ) (env : Spawn) (out : Msg)
  | write (pid n : ℕ)
  | ready (r : Registered)
  | exit (pid : ℕ) (status : Status) (env : Commit)

/-- A child writes some bytes of its message. -/
def ScanProc.write (n : ℕ) (sp : ScanProc) : ScanProc :=
  { sp with unread := sp.unread ++ sp.unwritten.take n, unwritten := sp.unwritten.drop n }

/-- One event, with the value that the function returns. A callback for a structure that is freed is
    `none`. -/
def step (K : Kernel) (junk : ℕ → UInt8) (rounds : ℕ) (s : Master) : Event → Option (ℤ × Master)
  | .start token fd authUid env out => some (scanStart s token fd authUid env out)
  | .write pid n =>
    some (0, { s with scanprocs := s.scanprocs.map fun sp => if isChild pid sp then sp.write n else sp })
  | .ready r =>
    match s.scanprocs.find? (·.sp = r.sp) with
    | none => none
    | some sp => (dispatchScand2m junk false r.fd sp).map fun (sp', deleted) =>
      (0, { s with
        scanprocs := s.scanprocs.map fun x => if x.sp = r.sp then sp' else x
        events := if deleted then eventDel r.sp s.events else s.events })
  | .exit pid status env => scanprocExit K junk rounds s pid status env

/-- The state behind an event. -/
def next (K : Kernel) (junk : ℕ → UInt8) (rounds : ℕ) (s : Master) (e : Event) : Option Master :=
  (step K junk rounds s e).map (·.2)

end Anoubis.Daemon.Scanner

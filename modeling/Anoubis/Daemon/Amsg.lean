import Anoubis.Lib.Blocks
import Anoubis.Lib.Run
import Mathlib.Algebra.Order.Group.Int

/-! Messages between the processes of the daemon (`amsg.c`, `amsg_verify.c`, `aqueue.c`).

    The writer keeps one message, the reader a buffer and, once a message does not end in the buffer, the
    message it belongs to:

        queue --> wmsg --> │ pipe │ --> rbuf --> message
                                    └─▶ rmsg ──▶ message

    A system call moves as many bytes as the kernel likes, or none (EAGAIN, EINTR). The two ends are
    processes of their own and share nothing but the bytes in the pipe: what a read in the middle of a call
    of the writer finds is what a shorter read behind that call finds, so one call is one step.

    The read buffer is the list of its unprocessed bytes, from `rheadp` to `rtailp`. `sz` is
    `anoubisd_msg_size`, the size a message needs by its own type and fields; the layouts of the records in
    it come from the kernel's headers. `master_terminate` is `none`. -/

namespace Anoubis.Daemon.Amsg

open Anoubis.Lib

abbrev Bytes := List UInt8

/-- sizeof(struct anoubisd_msg). -/
def hdrSize : ℕ := 8

/-- MSG_SIZE_LIMIT. -/
def msgSizeLimit : ℕ := 100000

/-- MSG_BUF_SIZE. -/
def msgBufSize : ℕ := 8192

/-- An int in the byte order of the machine. -/
def int (b₀ b₁ b₂ b₃ : UInt8) : ℤ :=
  (b₀.toNat + 256 * b₁.toNat + 65536 * b₂.toNat + 16777216 * b₃.toNat : ℤ).bmod 4294967296

/-- The field `size`. -/
def msgSize (m : Bytes) : ℤ := int (m.getD 0 0) (m.getD 1 0) (m.getD 2 0) (m.getD 3 0)

/-- A `struct anoubisd_msg` and the memory behind it: as many bytes as its size says. -/
structure Msg where
  bytes : Bytes
  header : hdrSize ≤ bytes.length
  size_eq : msgSize bytes = bytes.length
  deriving DecidableEq

/-- `struct msg_buf`. -/
structure MsgBuf where
  woff : ℕ
  rbuf : Bytes
  rmsg : Option Bytes
  wmsg : Option Bytes
  iseof : Bool
  deriving DecidableEq

/-- `msg_init`. -/
def msgInit : MsgBuf := ⟨0, [], none, none, false⟩

/-- The two ends and the bytes between them. -/
structure Pipe where
  tx : MsgBuf
  data : Bytes
  rx : MsgBuf
  closed : Bool
  deriving DecidableEq

/-- How a system call goes: EAGAIN or EINTR, or a transfer of so many bytes, where there are as many. -/
inductive Io where
  | again
  | upto (n : ℕ)
  deriving DecidableEq

/-! ### amsg_verify -/

/-- The array `fill` of `__amsg_verify`. -/
def fill : ℕ → UInt8
  | 0 => 0xde
  | 1 => 0xad
  | 2 => 0xbe
  | _ => 0xef

/-- The loop of `__amsg_verify` over the bytes from `n` on. -/
def fillFrom (n : ℕ) (m : Bytes) : Bytes := m.mapIdx (fun i b => if i < n then b else fill (i % 4))

/-- `amsg_verify`: the message as it stands after the call. -/
def amsgVerify (sz : Bytes → ℤ) (m : Bytes) : Option Bytes :=
  if msgSize m < hdrSize then none
  else if sz m < 0 ∨ sz m > msgSize m then none
  else some (fillFrom (sz m).toNat m)

/-! ### The writer -/

/-- write(2): the bytes it takes, or nothing. -/
def write (data : Bytes) : Io → Option Bytes
  | .again => none
  | .upto n => some (data.take n)

/-- `_flush_buf`. -/
def flushBuf (p : Pipe) (io : Io) : Pipe :=
  match p.tx.wmsg with
  | none => p
  | some m =>
    if (p.tx.woff : ℤ) = msgSize m then { p with tx := { p.tx with wmsg := none, woff := 0 } }
    else match write (m.drop p.tx.woff) io with
      | none => p
      | some out =>
        let woff := p.tx.woff + out.length
        if (woff : ℤ) = msgSize m then
          { p with tx := { p.tx with wmsg := none, woff := 0 }, data := p.data ++ out }
        else { p with tx := { p.tx with woff := woff }, data := p.data ++ out }

/-- `send_msg`. The second call of `_flush_buf` is that for the new message. -/
def sendMsg (sz : Bytes → ℤ) (p : Pipe) (msg : Option Bytes) (io io' : Io) : Option (ℤ × Pipe) :=
  let p := if p.tx.wmsg.isSome then flushBuf p io else p
  if p.tx.wmsg.isSome then some (0, p)
  else match msg with
    | none => some (1, p)
    | some m =>
      if msgSize m > msgSizeLimit then some (-1, p)
      else (amsgVerify sz m).map (fun m => (1, flushBuf { p with tx := { p.tx with wmsg := some m, woff := 0 } } io'))

/-- `msg_pending`. -/
def msgPending (p : Pipe) : Bool := p.tx.wmsg.isSome

/-- What `dispatch_write_queue` leaves behind: its return value, the messages that `send_msg` accepted, the
    queue and the pipe. -/
structure Written where
  ret : ℤ
  sent : List Msg
  queue : List Msg
  pipe : Pipe

/-- The loop of `dispatch_write_queue`, with the outcomes of the two writes of every round. A round of
    `send_msg` that did not take the message ends the loop only where the queue has an event; without
    one the message is dequeued all the same, and `event_add` behind a permanent error is called with NULL. -/
def writeLoop (sz : Bytes → ℤ) (ev : Bool) :
    List (Io × Io) → ℤ → List Msg → Pipe → Option Written
  | rounds, ret, queue, p =>
    if queue.isEmpty && !msgPending p then some ⟨ret, [], queue, p⟩
    else match rounds with
      | [] => none
      | (io, io') :: rounds =>
        match sendMsg sz p (queue.head?.map Msg.bytes) io io' with
        | none => none
        | some (ret, p) =>
          if ret = 0 ∧ ev = true then some ⟨ret, [], queue, p⟩
          else if ret < 0 then if ev then some ⟨ret, [], queue.tail, p⟩ else none
          else do
            let w ← writeLoop sz ev rounds ret queue.tail p
            pure { w with sent := (if ret > 0 then queue.head?.toList else []) ++ w.sent }

/-- `dispatch_write_queue`. -/
def dispatchWriteQueue (sz : Bytes → ℤ) (ev : Bool) (rounds : List (Io × Io)) (queue : List Msg)
    (p : Pipe) : Option Written :=
  writeLoop sz ev rounds 0 queue p

/-! ### The reader -/

/-- read(2) for `count` bytes: what it returns, nothing at the end of the file, or `none`. -/
def read (p : Pipe) (count : ℕ) : Io → Option Bytes
  | .again => none
  | .upto n =>
    if p.data.isEmpty then if p.closed then some [] else none
    else some (p.data.take (min (n + 1) count))

/-- The test of `rmsgoff` against the size of `rmsg`. -/
def complete (m : Bytes) : Bool := decide ((m.length : ℤ) = msgSize m)

/-- `_fill_buf`. -/
def fillBuf (p : Pipe) (io : Io) : Bool × Pipe :=
  match p.rx.rmsg with
  | some m =>
    if complete m then (true, p)
    else match read p (msgSize m - m.length).toNat io with
      | none => (true, p)
      | some [] => (false, { p with rx := { p.rx with iseof := true } })
      | some got =>
        (true, { p with rx := { p.rx with rmsg := some (m ++ got) }, data := p.data.drop got.length })
  | none =>
    let space : ℤ := 2 * msgBufSize - p.rx.rbuf.length
    if space ≤ 0 then (true, p)
    else match read p space.toNat io with
      | none => (true, p)
      | some [] => (false, { p with rx := { p.rx with iseof := true } })
      | some got =>
        (true, { p with rx := { p.rx with rbuf := p.rx.rbuf ++ got }, data := p.data.drop got.length })

/-- `msg_eof`. -/
def msgEof (b : MsgBuf) : Bool :=
  if !b.iseof then false
  else match b.rmsg with
    | some m => !complete m
    | none => decide (b.rbuf.length < hdrSize)

/-- `get_msg` from the label `message` on. -/
def returnMsg (sz : Bytes → ℤ) (m : Bytes) (p : Pipe) : Option (Option Bytes × Pipe) :=
  (amsgVerify sz m).map (fun m => (some m, p))

/-- The started message is returned as soon as it is complete. -/
def takeRest (sz : Bytes → ℤ) (p : Pipe) : Option (Option Bytes × Pipe) :=
  match p.rx.rmsg with
  | none => some (none, p)
  | some m =>
    if complete m then returnMsg sz m { p with rx := { p.rx with rmsg := none } }
    else some (none, p)

/-- `get_msg` where a message has started: the rest of it is read in place. -/
def getRest (sz : Bytes → ℤ) (p : Pipe) (m : Bytes) (io : Io) : Option (Option Bytes × Pipe) :=
  if complete m then takeRest sz p
  else match fillBuf p io with
    | (false, p) => some (none, p)
    | (true, p) => takeRest sz p

/-- `get_msg` with the header of the next message in the buffer. -/
def getNext (sz : Bytes → ℤ) (p : Pipe) : Option (Option Bytes × Pipe) :=
  let size := msgSize p.rx.rbuf
  if size > msgSizeLimit ∨ size < hdrSize then none
  else
    let copy := min p.rx.rbuf.length size.toNat
    let m := p.rx.rbuf.take copy
    let p := { p with rx := { p.rx with rbuf := p.rx.rbuf.drop copy } }
    if msgSize m ≠ copy then some (none, { p with rx := { p.rx with rmsg := some m } })
    else returnMsg sz m p

/-- `get_msg`. -/
def getMsg (sz : Bytes → ℤ) (p : Pipe) (io : Io) : Option (Option Bytes × Pipe) :=
  match p.rx.rmsg with
  | some m => getRest sz p m io
  | none =>
    match if p.rx.rbuf.length < hdrSize then fillBuf p io else (true, p) with
    | (false, p) => some (none, p)
    | (true, p) => if p.rx.rbuf.length < hdrSize then some (none, p) else getNext sz p

/-! ### Both ends -/

/-- The pipe, the queue of its writer and what has happened: which messages `send_msg` accepted, from whom
    (`true`: from `dispatch_write_queue`), which were put on the queue, which `get_msg` returned. -/
structure State where
  pipe : Pipe
  queue : List Msg
  accepted : List (Bool × Msg)
  enqueued : List Msg
  delivered : List Bytes

def State.init : State := ⟨⟨msgInit, [], msgInit, false⟩, [], [], [], []⟩

/-- Calls of the writer (`none`: flush only), its close, and a call of the reader. -/
inductive Op where
  | send (msg : Option Msg) (io io' : Io)
  | enqueue (msg : Msg)
  | dispatch (rounds : List (Io × Io))
  | close
  | get (io : Io)

/-- One call. The writer makes none behind its close. -/
def step (sz : Bytes → ℤ) (ev : Bool) (s : State) : Op → Option State
  | .send msg io io' =>
    if s.pipe.closed then none
    else (sendMsg sz s.pipe (msg.map Msg.bytes) io io').map (fun (ret, p) =>
      { s with pipe := p, accepted := s.accepted ++ (if ret > 0 then msg.toList else []).map (false, ·) })
  | .enqueue msg => some { s with queue := s.queue ++ [msg], enqueued := s.enqueued ++ [msg] }
  | .dispatch rounds =>
    if s.pipe.closed then none
    else (dispatchWriteQueue sz ev rounds s.queue s.pipe).map (fun w =>
      { s with pipe := w.pipe, queue := w.queue, accepted := s.accepted ++ w.sent.map (true, ·) })
  | .close => some { s with pipe := { s.pipe with closed := true } }
  | .get io =>
    (getMsg sz s.pipe io).map (fun (msg, p) =>
      { s with pipe := p, delivered := s.delivered ++ msg.toList })

end Anoubis.Daemon.Amsg

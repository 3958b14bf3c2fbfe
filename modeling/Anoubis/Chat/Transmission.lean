import Anoubis.Chat.Buffer
import Anoubis.Lib.Delimited
import Mathlib.Data.Int.Notation

/-! Messages over a chat channel (`acctransmission.c`).

    A message is sent behind the length of its frame. The system takes and gives as many bytes as it likes:

        accSendmsg --> sendbuffer --> socket --> recvbuffer --> accReceivemsg

    Behind the messages that were received, what is on its way are the whole frames of the others. -/

namespace Anoubis.Chat

open Option

open Anoubis.Lib List

/-! ### System calls -/

/-- ACHAT_MAX_MSGSIZE. -/
def maxMsgsize : ℕ := 81920

/-- What a call of `read` or `write` comes to: up to `n` bytes, EINTR, EAGAIN or another error. -/
inductive Io where
  | count (n : ℕ)
  | intr
  | again
  | fail

/-- errno. -/
inductive Errno where
  | eagain
  | other

/-- How the loops of `acc_read` and `acc_write` end behind an error. -/
def stopped {α : Type} (num : ℕ) (done : α) (e : Errno) : Except Errno α := if num = 0 then .error e else .ok done

/-- `acc_read`: the bytes, and what is left in the socket. There is EAGAIN behind the last call. -/
def accRead (nbyte : ℕ) : List Io → List UInt8 → List UInt8 → Except Errno (List UInt8) × List UInt8
  | [], buf, wire => (if nbyte ≤ buf.length then .ok buf else stopped buf.length buf .eagain, wire)
  | io :: ios, buf, wire =>
    if nbyte ≤ buf.length then (.ok buf, wire)
    else match io with
      | .again => (stopped buf.length buf .eagain, wire)
      | .fail => (stopped buf.length buf .other, wire)
      | .intr => accRead nbyte ios buf wire
      | .count n =>
        let k := min n (nbyte - buf.length)
        if wire.take k = [] then (.ok buf, wire) else accRead nbyte ios (buf ++ wire.take k) (wire.drop k)

/-- `acc_write`. -/
def accWrite (nbyte : ℕ) : List Io → ℕ → Except Errno ℕ
  | [], num => if nbyte ≤ num then .ok num else stopped num num .eagain
  | io :: ios, num =>
    if nbyte ≤ num then .ok num
    else match io with
      | .again => stopped num num .eagain
      | .fail => stopped num num .other
      | .intr => accWrite nbyte ios num
      | .count n => accWrite nbyte ios (num + min n (nbyte - num))

/-! ### The channel -/

/-- The values of achat_rc. -/
inductive AchatRc where
  | ok
  | error
  | eof
  | invalparam
  | pending
  | nospace
  deriving DecidableEq

def Rc.achat : Rc → AchatRc
  | .ok => .ok
  | .error => .error
  | .invalparam => .invalparam

/-- struct achat_channel: whether there is a socket, its mode, whether there is an event, and the buffers. -/
structure AchatChannel where
  fd : Bool
  blocking : Bool
  event : Bool
  sendbuffer : AchatBuffer
  recvbuffer : AchatBuffer

/-- `htonl`. -/
def htonl (n : ℕ) : List UInt8 :=
  [UInt8.ofNat (n / 16777216), UInt8.ofNat (n / 65536), UInt8.ofNat (n / 256), UInt8.ofNat n]

/-- `ntohl`. -/
def ntohl (bs : List UInt8) : ℕ := bs.foldl (fun n b => 256 * n + b.toNat) 0

/-- What PENDING becomes in `acc_flush`. -/
def AchatChannel.pending (chan : AchatChannel) : AchatRc := if chan.event then .ok else .pending

/-- `acc_flush`, and the bytes that it wrote. -/
def accFlush (chan : AchatChannel) (ios : List Io) : AchatRc × AchatChannel × List UInt8 :=
  let bsize := accBufferlen chan.sendbuffer
  if bsize = 0 then (.ok, chan, [])
  else match accWrite bsize ios 0 with
    | .error .eagain => (chan.pending, chan, [])
    | .error .other => (.error, chan, [])
    | .ok bwritten =>
      let r := accBufferconsume chan.sendbuffer bwritten
      (if r.1 ≠ .ok then .error else if bwritten = bsize then .ok else chan.pending,
        { chan with sendbuffer := r.2 }, chan.sendbuffer.bytes.take bwritten)

/-- The frame of a message in the send buffer (in `acc_sendmsg`). -/
def appendMsg (r₁ r₂ : Realloc) (b : AchatBuffer) (msg : List UInt8) : Option (Rc × AchatBuffer) :=
  (accBufferappend r₁ b (htonl (4 + msg.length))).bind fun (rc, b) =>
    if rc ≠ .ok then some (rc, b)
    else (accBufferappend r₂ b msg).map fun (rc, b) => (rc, if rc = .ok then b else (accBuffertrunc b 4).2)

/-- `acc_sendmsg`; whether the message is in the buffer, and the bytes that were written. -/
def accSendmsg (r₁ r₂ : Realloc) (acc : AchatChannel) (msg : List UInt8) (ios : List Io) :
    Option (AchatRc × Bool × AchatChannel × List UInt8) :=
  if ¬ (0 < msg.length ∧ msg.length ≤ maxMsgsize) then some (.invalparam, false, acc, [])
  else if acc.fd = false then some (.error, false, acc, [])
  else (appendMsg r₁ r₂ acc.sendbuffer msg).map fun (rc, b) =>
    let acc := { acc with sendbuffer := b }
    if rc ≠ .ok then (rc.achat, false, acc, [])
    else ((accFlush acc ios).1, true, (accFlush acc ios).2)

/-- `mincnt` of `acc_fillrecvbuffer`. -/
def AchatChannel.mincnt (acc : AchatChannel) (size : ℕ) : ℤ :=
  let mincnt := (size : ℤ).bmod 4294967296
  if acc.blocking = false ∧ mincnt < 4096 then 4096 else mincnt

/-- `acc_fillrecvbuffer`, and what is left in the socket. -/
def accFillrecvbuffer (r : Realloc) (acc : AchatChannel) (size : ℕ) (ios : List Io) (wire : List UInt8) :
    Option (AchatRc × AchatChannel × List UInt8) :=
  let bsize := accBufferlen acc.recvbuffer
  let mincnt := acc.mincnt size
  if ¬ (mincnt ≤ maxMsgsize ∧ 0 ≤ mincnt) then some (.invalparam, acc, wire)
  else if mincnt ≤ bsize then some (.ok, acc, wire)
  else
    let needcnt := mincnt.toNat - bsize
    (accBufferappendSpace r acc.recvbuffer needcnt).map fun
      | (none, b) => (.error, { acc with recvbuffer := b }, wire)
      | (some readbuf, b) =>
        match accRead needcnt ios [] wire with
        | (.error e, wire) =>
          let t := accBuffertrunc b needcnt
          (if t.1 ≠ .ok then .error else match e with
            | .eagain => .pending
            | .other => .error, { acc with recvbuffer := t.2 }, wire)
        | (.ok data, wire) =>
          let b := { b with buf := overwrite b.buf readbuf data }
          let t := if data.length < needcnt then accBuffertrunc b (needcnt - data.length) else (.ok, b)
          (if t.1 ≠ .ok then .error else if data = [] then .eof else .ok, { acc with recvbuffer := t.2 }, wire)

/-- More bytes where there are less than `n` (in `acc_receivemsg`). -/
def receiveUpto (n : ℕ) (r : Realloc) (acc : AchatChannel) (ios : List Io) (wire : List UInt8) :
    Option (AchatRc × AchatChannel × List UInt8) :=
  if accBufferlen acc.recvbuffer < n then accFillrecvbuffer r acc n ios wire else some (.ok, acc, wire)

/-- `acc_receivemsg` with room for `size` bytes: the message, and what is left in the socket. -/
def accReceivemsg (r₁ r₂ : Realloc) (acc : AchatChannel) (size : ℕ) (ios₁ ios₂ : List Io) (wire : List UInt8) :
    Option (AchatRc × List UInt8 × AchatChannel × List UInt8) :=
  if ¬ (0 < size ∧ size ≤ maxMsgsize) then some (.invalparam, [], acc, wire)
  else if acc.fd = false then some (.error, [], acc, wire)
  else (receiveUpto 4 r₁ acc ios₁ wire).bind fun (rc, acc, wire) =>
    let pkgsize := ntohl (acc.recvbuffer.bytes.take 4)
    if rc ≠ .ok then some (rc, [], acc, wire)
    else if accBufferlen acc.recvbuffer < 4 then some (.pending, [], acc, wire)
    else if pkgsize = 4 then some (.ok, [], acc, wire)
    else if pkgsize < 4 then some (.error, [], acc, wire)
    else (receiveUpto pkgsize r₂ acc ios₂ wire).map fun (rc, acc, wire) =>
      if rc ≠ .ok then (rc, [], acc, wire)
      else if accBufferlen acc.recvbuffer < pkgsize then (.pending, [], acc, wire)
      else if size < pkgsize - 4 then (.nospace, [], acc, wire)
      else
        let c := accBufferconsume acc.recvbuffer pkgsize
        (c.1.achat, (acc.recvbuffer.bytes.drop 4).take (pkgsize - 4), { acc with recvbuffer := c.2 }, wire)

/-- A new channel. -/
def AchatChannel.create (blocking event : Bool) : AchatChannel := ⟨true, blocking, event, accBufferinit, accBufferinit⟩

/-! ### Two ends -/

/-- The end that receives: what is in the socket, and the messages so far. -/
structure Reader where
  chan : AchatChannel
  wire : List UInt8
  received : List (List UInt8)

/-- A call of `acc_receivemsg`: the room for the message, and what the system does. -/
structure Receive where
  size : ℕ
  r₁ : Realloc
  r₂ : Realloc
  ios₁ : List Io
  ios₂ : List Io

def Reader.step (s : Reader) (c : Receive) : Option Reader :=
  (accReceivemsg c.r₁ c.r₂ s.chan c.size c.ios₁ c.ios₂ s.wire).map fun (rc, msg, chan, wire) =>
    ⟨chan, wire, if rc = .ok then s.received ++ [msg] else s.received⟩

/-- Both ends, with the messages that got into the send buffer. -/
structure Link where
  sender : AchatChannel
  sent : List (List UInt8)
  reader : Reader

inductive LinkOp where
  | send (msg : List UInt8) (r₁ r₂ : Realloc) (ios : List Io)
  | flush (ios : List Io)
  | receive (c : Receive)

/-- Bytes get into the socket. -/
def Link.wrote (l : Link) (sent : List (List UInt8)) (sender : AchatChannel) (out : List UInt8) : Link :=
  ⟨sender, sent, { l.reader with wire := l.reader.wire ++ out }⟩

/-- A call at one of the ends; `none` if it does not return. -/
def Link.step (l : Link) : LinkOp → Option Link
  | .send msg r₁ r₂ ios => (accSendmsg r₁ r₂ l.sender msg ios).map fun (_, queued, sender, out) =>
    l.wrote (if queued then l.sent ++ [msg] else l.sent) sender out
  | .flush ios => some (l.wrote l.sent (accFlush l.sender ios).2.1 (accFlush l.sender ios).2.2)
  | .receive c => (l.reader.step c).map fun r => { l with reader := r }

/-! ### Frames -/

/-- A message behind the length of its frame. -/
def frame (msg : List UInt8) : List UInt8 := htonl (4 + msg.length) ++ msg

variable {bs msg : List UInt8} {n : ℕ}

theorem ntohl_htonl (h : n < 4294967296) : ntohl (htonl n) = n := by
  simp only [ntohl, htonl, foldl_cons, foldl_nil, UInt8.toNat_ofNat']
  omega

theorem htonl_ntohl (h : bs.length = 4) : htonl (ntohl bs) = bs := by
  match bs, h with
  | [a, b, c, d], _ =>
    have := a.toNat_lt
    have := b.toNat_lt
    have := c.toNat_lt
    have := d.toNat_lt
    simp only [htonl, ntohl, foldl_cons, foldl_nil, List.cons.injEq, ← UInt8.toNat_inj,
      UInt8.toNat_ofNat', and_true]
    omega

/-- A length tells where its frame ends. -/
theorem delimited_frame : Delimited frame (fun msg => msg.length ≤ maxMsgsize) where
  ne msg := cons_ne_nil _ _
  inj msg msg' as bs hm hm' h := by
    rw [maxMsgsize] at hm hm'
    rw [frame, frame, append_assoc, append_assoc] at h
    obtain ⟨hhead, hbody⟩ := append_inj h rfl
    have hlen := congrArg ntohl hhead
    rw [ntohl_htonl (by omega), ntohl_htonl (by omega)] at hlen
    exact append_inj hbody (by omega)

theorem frame_take (hpkg : ntohl (bs.take 4) = 4 + n) (hlen : 4 + n ≤ bs.length) :
    frame ((bs.drop 4).take n) = bs.take (4 + n) := by
  have hn : ((bs.drop 4).take n).length = n := by
    rw [length_take, length_drop]
    omega
  rw [frame, hn, ← hpkg, htonl_ntohl (length_take_of_le (by omega)), hpkg, take_add]

/-! ### Calls on the buffers -/

variable {b b' : AchatBuffer} {len nbyte num : ℕ} {q q' data wire : List UInt8} {r : Realloc} {rc : Rc}

theorem Acts.consumed (h : Acts (.consume len) (.rc rc) q q') (hlen : len ≤ q.length) : rc = .ok ∧ q' = q.drop len := by
  cases h with
  | consume => exact ⟨rfl, rfl⟩
  | consumeFails _ _ hlt => omega

theorem Acts.truncated (h : Acts (.trunc data.length) (.rc rc) (q ++ data) q') : rc = .ok ∧ q' = q := by
  cases h with
  | trunc => simp
  | truncFails _ _ hlt => exact absurd hlt (by simp)

theorem Acts.appended (h : Acts (.append data r) (.rc rc) q q') : q' = if rc = .ok then q ++ data else q := by
  cases h with
  | append => rfl
  | appendFails _ _ _ _ hrc => rw [if_neg hrc]

theorem consume_spec (h : Valid b) (hlen : len ≤ b.bytes.length) : (accBufferconsume b len).1 = .ok ∧
    Valid (accBufferconsume b len).2 ∧ (accBufferconsume b len).2.bytes = b.bytes.drop len := by
  obtain ⟨ret, b', hcall, hvalid, hacts, -⟩ := consume_refines h len
  cases hcall
  obtain ⟨hrc, hbytes⟩ := hacts.consumed hlen
  exact ⟨hrc, hvalid, hbytes⟩

theorem trunc_spec (h : Valid b) (hq : b.bytes = q ++ data) : (accBuffertrunc b data.length).1 = .ok ∧
    Valid (accBuffertrunc b data.length).2 ∧ (accBuffertrunc b data.length).2.bytes = q := by
  obtain ⟨ret, b', hcall, hvalid, hacts, -⟩ := trunc_refines h data.length
  cases hcall
  rw [hq] at hacts
  obtain ⟨hrc, hbytes⟩ := hacts.truncated
  exact ⟨hrc, hvalid, hbytes⟩

theorem append_spec (h : Valid b) (data : List UInt8) (r : Realloc) : ∃ rc b', accBufferappend r b data = some (rc, b') ∧
    Valid b' ∧ b'.bytes = if rc = .ok then b.bytes ++ data else b.bytes := by
  obtain ⟨ret, b', hcall, hvalid, hacts, -⟩ := append_refines h data r
  obtain ⟨⟨rc, b₁⟩, heq, hret⟩ := map_eq_some_iff.mp hcall
  cases hret
  exact ⟨rc, b₁, heq, hvalid, hacts.appended⟩

theorem appendMsg_spec (r₁ r₂ : Realloc) (h : Valid b) (msg : List UInt8) : ∃ rc b', appendMsg r₁ r₂ b msg = some (rc, b') ∧ Valid b' ∧
    b'.bytes = if rc = .ok then b.bytes ++ frame msg else b.bytes := by
  obtain ⟨rc₁, b₁, heq₁, hv₁, hb₁⟩ := append_spec h (htonl (4 + msg.length)) r₁
  rw [appendMsg, heq₁, bind_some]
  dsimp only
  by_cases hrc₁ : rc₁ = .ok
  · obtain ⟨rc₂, b₂, heq₂, hv₂, hb₂⟩ := append_spec hv₁ msg r₂
    rw [if_pos hrc₁] at hb₁
    rw [if_neg (not_not_intro hrc₁), heq₂, map_some]
    refine ⟨rc₂, _, rfl, ?_⟩
    by_cases hrc₂ : rc₂ = .ok
    · rw [if_pos hrc₂] at hb₂ ⊢
      rw [if_pos hrc₂, hb₂, hb₁, append_assoc]
      exact ⟨hv₂, rfl⟩
    · rw [if_neg hrc₂] at hb₂ ⊢
      rw [if_neg hrc₂]
      exact (trunc_spec hv₂ (hb₂.trans hb₁)).2
  · rw [if_neg hrc₁] at hb₁
    rw [if_pos hrc₁]
    refine ⟨rc₁, b₁, rfl, hv₁, ?_⟩
    rw [if_neg hrc₁, hb₁]

theorem accWrite_le (ios : List Io) (hnum : num ≤ nbyte) (h : accWrite nbyte ios num = .ok n) : n ≤ nbyte := by
  induction ios generalizing num with
  | nil => grind [accWrite, stopped]
  | cons io ios ih => cases io <;> grind [accWrite, stopped]

/-- What is read comes out of the socket. -/
inductive Took (nbyte : ℕ) : List UInt8 → List UInt8 → Except Errno (List UInt8) × List UInt8 → Prop where
  | fails (e : Errno) (wire : List UInt8) : Took nbyte [] wire (.error e, wire)
  | takes (q data wire : List UInt8) (h : (q ++ data).length ≤ nbyte) : Took nbyte q (data ++ wire) (.ok (q ++ data), wire)

theorem took_nothing (hq : q.length ≤ nbyte) : Took nbyte q wire (.ok q, wire) := by
  simpa using Took.takes q [] wire (by simpa using hq)

theorem took_stopped (hq : q.length ≤ nbyte) (e : Errno) : Took nbyte q wire (stopped q.length q e, wire) := by
  rw [stopped]
  split
  · rename_i hnone
    obtain rfl := length_eq_zero_iff.mp hnone
    exact .fails e wire
  · exact took_nothing hq

theorem Took.more {wire' : List UInt8} {res : Except Errno (List UInt8) × List UInt8} (hdata : data ≠ [])
    (hwire : wire = data ++ wire') (h : Took nbyte (q ++ data) wire' res) : Took nbyte q wire res := by
  generalize hx : q ++ data = x at h
  cases h with
  | fails e => exact absurd (append_eq_nil_iff.mp hx).2 hdata
  | takes _ ds wire' hlen =>
    rw [← hx, append_assoc] at hlen
    rw [← hx, hwire, append_assoc, ← append_assoc data]
    exact .takes q (data ++ ds) wire' hlen

theorem accRead_took (ios : List Io) (hq : q.length ≤ nbyte) : Took nbyte q wire (accRead nbyte ios q wire) := by
  induction ios generalizing q wire with
  | nil =>
    rw [accRead]
    split
    · exact took_nothing hq
    · exact took_stopped hq .eagain
  | cons io ios ih =>
    rw [accRead.eq_def]
    dsimp only
    split
    · exact took_nothing hq
    cases io with
    | again => exact took_stopped hq .eagain
    | fail => exact took_stopped hq .other
    | intr => exact ih hq
    | count n =>
      dsimp only
      split
      · exact took_nothing hq
      · rename_i hdata
        have hlen : (q ++ wire.take (min n (nbyte - q.length))).length ≤ nbyte := by
          rw [length_append, length_take]
          omega
        exact Took.more hdata (take_append_drop _ wire).symm (ih hlen)

/-! ### Calls on a channel -/

theorem accFlush_spec {chan : AchatChannel} (h : Valid chan.sendbuffer) (ios : List Io) :
    Valid (accFlush chan ios).2.1.sendbuffer ∧
      (accFlush chan ios).2.2 ++ (accFlush chan ios).2.1.sendbuffer.bytes = chan.sendbuffer.bytes := by
  have hlen := h.length_bytes
  rw [accFlush]
  dsimp only
  split
  · exact ⟨h, rfl⟩
  split
  · exact ⟨h, rfl⟩
  · exact ⟨h, rfl⟩
  · rename_i bwritten hw
    have hle := accWrite_le ios (Nat.zero_le _) hw
    rw [accBufferlen, ← hlen] at hle
    obtain ⟨-, hvalid, hbytes⟩ := consume_spec h hle
    rw [hbytes]
    exact ⟨hvalid, take_append_drop _ _⟩

theorem accSendmsg_spec (r₁ r₂ : Realloc) {acc : AchatChannel} (h : Valid acc.sendbuffer) (msg : List UInt8) (ios : List Io) :
    ∃ rc queued acc' out, accSendmsg r₁ r₂ acc msg ios = some (rc, queued, acc', out) ∧ Valid acc'.sendbuffer ∧
      out ++ acc'.sendbuffer.bytes = acc.sendbuffer.bytes ++ (if queued then frame msg else []) ∧
      (queued = true → msg ≠ [] ∧ msg.length ≤ maxMsgsize) := by
  rw [accSendmsg]
  split
  · exact ⟨_, _, _, _, rfl, h, (append_nil _).symm, by simp⟩
  rename_i hsize
  split
  · exact ⟨_, _, _, _, rfl, h, (append_nil _).symm, by simp⟩
  obtain ⟨rc, b', heq, hvalid, hbytes⟩ := appendMsg_spec r₁ r₂ h msg
  rw [heq, map_some]
  dsimp only
  split
  · rename_i hrc
    rw [if_neg hrc] at hbytes
    exact ⟨_, _, _, _, rfl, hvalid, by simpa using hbytes, by simp⟩
  · rename_i hrc
    rw [if_pos (not_not.mp hrc)] at hbytes
    obtain ⟨hvalid', hout⟩ := @accFlush_spec { acc with sendbuffer := b' } hvalid ios
    refine ⟨_, _, _, _, rfl, hvalid', hout.trans hbytes, fun _ => ?_⟩
    have hsize := not_not.mp hsize
    exact ⟨ne_nil_of_length_pos hsize.1, hsize.2⟩

/-- The space of a buffer is filled in part. -/
theorem Space.read {p : ℕ} (h : Space q len p b') (hdata : data.length ≤ len) :
    Valid { b' with buf := overwrite b'.buf p data } ∧ ∃ pad, data.length + pad.length = len ∧
      ({ b' with buf := overwrite b'.buf p data } : AchatBuffer).bytes = q ++ data ++ pad := by
  have hmem := h.valid.mem
  have hstop := h.valid.stop
  have hfin := h.stop
  let pad := (b'.buf.drop (p + data.length)).take (len - data.length)
  have hpad : data.length + pad.length = len := by
    rw [length_take, length_drop]
    omega
  have hrest : pad ++ b'.buf.drop (p + (data ++ pad).length) = b'.buf.drop (p + data.length) := by
    have hk : pad.length = len - data.length := by omega
    rw [length_append, ← Nat.add_assoc, ← drop_drop, hk]
    exact take_append_drop _ _
  have hfill : overwrite b'.buf p data = overwrite b'.buf p (data ++ pad) := by
    rw [overwrite, overwrite, ← hrest]
    simp only [append_assoc]
  have hall : Space q (data ++ pad).length p b' := by rwa [length_append, hpad]
  obtain ⟨hvalid, hbytes⟩ := hall.fill
  rw [hfill]
  exact ⟨hvalid, pad, hpad, hbytes.trans (append_assoc _ _ _).symm⟩

variable {acc acc' acc'' : AchatChannel} {wire' wire'' stream : List UInt8}

/-- The bounds of the receive buffer. -/
structure Fits (acc : AchatChannel) : Prop where
  valid : Valid acc.recvbuffer
  short : acc.recvbuffer.bytes.length ≤ maxMsgsize

/-- More bytes in the receive buffer. -/
structure Refilled (acc : AchatChannel) (wire : List UInt8) (acc' : AchatChannel) (wire' : List UInt8) : Prop extends
    Fits acc' where
  stream : ∃ data, acc'.recvbuffer.bytes = acc.recvbuffer.bytes ++ data ∧ wire = data ++ wire'

theorem Refilled.trans (h : Refilled acc wire acc' wire') (h' : Refilled acc' wire' acc'' wire'') :
    Refilled acc wire acc'' wire'' := by
  obtain ⟨data, hb, hw⟩ := h.stream
  obtain ⟨data', hb', hw'⟩ := h'.stream
  refine ⟨h'.toFits, data ++ data', ?_, ?_⟩
  · rw [hb', hb, append_assoc]
  · rw [hw, hw', append_assoc]

theorem Fits.refl (h : Fits acc) : Refilled acc wire acc wire := ⟨h, [], (append_nil _).symm, rfl⟩

theorem Refilled.same (h : Refilled acc wire acc' wire') :
    acc'.recvbuffer.bytes ++ wire' = acc.recvbuffer.bytes ++ wire := by
  obtain ⟨data, hb, hw⟩ := h.stream
  rw [hb, hw, append_assoc]

theorem accFillrecvbuffer_spec (r : Realloc) (h : Fits acc) (size : ℕ) (ios : List Io) :
    ∃ rc acc' wire', accFillrecvbuffer r acc size ios wire = some (rc, acc', wire') ∧ Refilled acc wire acc' wire' := by
  have hlen := h.valid.length_bytes
  rw [← accBufferlen] at hlen
  rw [accFillrecvbuffer]
  dsimp only
  generalize acc.mincnt size = mincnt
  split
  · exact ⟨_, _, _, rfl, h.refl⟩
  split
  · exact ⟨_, _, _, rfl, h.refl⟩
  have hneed : acc.recvbuffer.bytes.length + (mincnt.toNat - accBufferlen acc.recvbuffer) ≤ maxMsgsize := by omega
  generalize mincnt.toNat - accBufferlen acc.recvbuffer = needcnt at hneed ⊢
  rcases appendSpace_spec r h.valid needcnt with ⟨p, b', heq, hspace⟩ | ⟨b', heq, hvalid, hbytes⟩
  · rw [heq, map_some]
    dsimp only
    have htook : Took needcnt [] wire (accRead needcnt ios [] wire) := accRead_took ios (Nat.zero_le needcnt)
    generalize accRead needcnt ios [] wire = res at htook ⊢
    cases htook with
    | fails e =>
      obtain ⟨data, rfl, hbytes⟩ := hspace.bytes
      obtain ⟨-, hvalid, hbytes⟩ := trunc_spec hspace.valid hbytes
      exact ⟨_, _, _, rfl, ⟨hvalid, hbytes ▸ h.short⟩, [], by simp [hbytes], rfl⟩
    | takes _ data wire' hdata =>
      rw [nil_append] at hdata ⊢
      obtain ⟨hvalid, pad, rfl, hbytes⟩ := hspace.read hdata
      dsimp only
      split
      · have hpad : data.length + pad.length - data.length = pad.length := by omega
        rw [hpad]
        obtain ⟨-, hvalid, hbytes⟩ := trunc_spec hvalid hbytes
        refine ⟨_, _, _, rfl, ⟨hvalid, ?_⟩, data, hbytes, rfl⟩
        dsimp only
        rw [hbytes, length_append]
        omega
      · have hpad : pad = [] := length_eq_zero_iff.mp (by omega)
        rw [hpad, append_nil] at hbytes
        refine ⟨_, _, _, rfl, ⟨hvalid, ?_⟩, data, hbytes, rfl⟩
        dsimp only
        rw [hbytes, length_append]
        omega
  · rw [heq]
    exact ⟨_, _, _, rfl, ⟨hvalid, hbytes ▸ h.short⟩, [], by simp [hbytes], rfl⟩

theorem receiveUpto_spec (r : Realloc) (h : Fits acc) (n : ℕ) (ios : List Io) :
    ∃ rc acc' wire', receiveUpto n r acc ios wire = some (rc, acc', wire') ∧ Refilled acc wire acc' wire' := by
  rw [receiveUpto]
  split
  · exact accFillrecvbuffer_spec r h n ios
  · exact ⟨_, _, _, rfl, h.refl⟩

/-- What a call of `acc_receivemsg` comes to. -/
inductive Got (acc : AchatChannel) (wire : List UInt8) : AchatRc → List UInt8 → AchatChannel → List UInt8 → Prop where
  | nothing (rc : AchatRc) (acc' : AchatChannel) (wire' : List UInt8) (hrc : rc ≠ .ok)
      (h : Refilled acc wire acc' wire') : Got acc wire rc [] acc' wire'
  | empty (acc' : AchatChannel) (wire' : List UInt8) (h : Refilled acc wire acc' wire')
      (hhead : frame [] <+: acc'.recvbuffer.bytes) : Got acc wire .ok [] acc' wire'
  | message (msg : List UInt8) (acc' : AchatChannel) (wire' : List UInt8) (hmsg : msg ≠ [])
      (hlen : msg.length + 4 ≤ maxMsgsize) (h : Fits acc')
      (hb : acc.recvbuffer.bytes ++ wire = frame msg ++ (acc'.recvbuffer.bytes ++ wire')) :
      Got acc wire .ok msg acc' wire'

theorem accReceivemsg_spec (r₁ r₂ : Realloc) (h : Fits acc) (size : ℕ) (ios₁ ios₂ : List Io) : ∃ rc msg acc' wire',
    accReceivemsg r₁ r₂ acc size ios₁ ios₂ wire = some (rc, msg, acc', wire') ∧ Got acc wire rc msg acc' wire' := by
  rw [accReceivemsg]
  by_cases hsize : ¬ (0 < size ∧ size ≤ maxMsgsize)
  · rw [if_pos hsize]
    exact ⟨_, _, _, _, rfl, .nothing _ _ _ (by decide) h.refl⟩
  by_cases hfd : acc.fd = false
  · rw [if_neg hsize, if_pos hfd]
    exact ⟨_, _, _, _, rfl, .nothing _ _ _ (by decide) h.refl⟩
  rw [if_neg hsize, if_neg hfd]
  obtain ⟨rc₁, acc₁, wire₁, heq₁, h₁⟩ := receiveUpto_spec r₁ h 4 ios₁
  rw [heq₁, bind_some]
  dsimp only
  have hlen₁ := h₁.valid.length_bytes
  rw [← accBufferlen] at hlen₁
  split
  · exact ⟨_, _, _, _, rfl, .nothing _ _ _ ‹_› h₁⟩
  split
  · exact ⟨_, _, _, _, rfl, .nothing _ _ _ (by decide) h₁⟩
  rename_i hfour
  have hhead : (acc₁.recvbuffer.bytes.take 4).length = 4 := length_take_of_le (by omega)
  split
  · rename_i hpkg
    have hempty : frame [] = acc₁.recvbuffer.bytes.take 4 := by
      rw [← htonl_ntohl hhead, hpkg]
      rfl
    exact ⟨_, _, _, _, rfl, .empty _ _ h₁ (hempty ▸ take_prefix 4 _)⟩
  split
  · exact ⟨_, _, _, _, rfl, .nothing _ _ _ (by decide) h₁⟩
  obtain ⟨n, hpkg⟩ : ∃ n, ntohl (acc₁.recvbuffer.bytes.take 4) = 4 + n := Nat.exists_eq_add_of_le (by omega)
  obtain ⟨rc₂, acc₂, wire₂, heq₂, h₂⟩ := receiveUpto_spec r₂ h₁.toFits (4 + n) ios₂
  rw [hpkg, heq₂, map_some]
  dsimp only
  have hlen₂ := h₂.valid.length_bytes
  rw [← accBufferlen] at hlen₂
  split
  · exact ⟨_, _, _, _, rfl, .nothing _ _ _ ‹_› (h₁.trans h₂)⟩
  split
  · exact ⟨_, _, _, _, rfl, .nothing _ _ _ (by decide) (h₁.trans h₂)⟩
  split
  · exact ⟨_, _, _, _, rfl, .nothing _ _ _ (by decide) (h₁.trans h₂)⟩
  rename_i hwhole _
  have hle : 4 + n ≤ acc₂.recvbuffer.bytes.length := by omega
  obtain ⟨data, hb₂, -⟩ := h₂.stream
  have hpkg₂ : ntohl (acc₂.recvbuffer.bytes.take 4) = 4 + n := by
    rw [hb₂, take_append_of_le_length (by omega), hpkg]
  have hframe := frame_take hpkg₂ hle
  obtain ⟨hok, hvalid, hbytes⟩ := consume_spec h₂.valid hle
  have hn : 4 + n - 4 = n := by omega
  have hmsg : ((acc₂.recvbuffer.bytes.drop 4).take n).length = n := by
    rw [length_take, length_drop]
    omega
  have hshort := h₂.short
  refine ⟨_, _, _, _, rfl, ?_⟩
  rw [hok, hn]
  refine .message _ _ _ (ne_nil_of_length_pos (by omega)) (by omega) ⟨hvalid, ?_⟩ ?_
  · dsimp only
    rw [hbytes, length_drop]
    omega
  · dsimp only
    rw [hframe, hbytes, ← append_assoc, take_append_drop, (h₁.trans h₂).same]

/-! ### Runs -/

/-- Of `stream`, what was received are whole frames; an empty one stays where it is. -/
structure Reads (stream : List UInt8) (s : Reader) (ms : List (List UInt8)) (k : ℕ) : Prop where
  received : s.received = ms ++ List.replicate k []
  sizes : ∀ m ∈ ms, m ≠ [] ∧ m.length + 4 ≤ maxMsgsize
  stream : stream = ms.flatMap frame ++ (s.chan.recvbuffer.bytes ++ s.wire)
  blocked : 0 < k → frame [] <+: s.chan.recvbuffer.bytes ++ s.wire

variable {s : Reader} {ms : List (List UInt8)} {k : ℕ}

theorem Reads.more (h : Reads stream s ms k) (out : List UInt8) :
    Reads (stream ++ out) { s with wire := s.wire ++ out } ms k where
  received := h.received
  sizes := h.sizes
  stream := by rw [h.stream]; simp only [append_assoc]
  blocked hk := by
    rw [← append_assoc]
    exact (h.blocked hk).trans (prefix_append _ _)

theorem Reads.step (h : Reads stream s ms k) (hc : Fits s.chan) (c : Receive) :
    ∃ s' ms' k', s.step c = some s' ∧ Reads stream s' ms' k' ∧ Fits s'.chan := by
  obtain ⟨rc, msg, acc', wire', heq, hgot⟩ := accReceivemsg_spec c.r₁ c.r₂ hc c.size c.ios₁ c.ios₂
  rw [Reader.step, heq]
  cases hgot with
  | nothing _ _ _ hrc hfill =>
    refine ⟨_, ms, k, rfl, ⟨(if_neg hrc).trans h.received, h.sizes, ?_, ?_⟩, hfill.toFits⟩
    · exact hfill.same ▸ h.stream
    · exact hfill.same ▸ h.blocked
  | empty _ _ hfill hhead =>
    refine ⟨_, ms, k + 1, rfl, ⟨?_, h.sizes, ?_, fun _ => hhead.trans (prefix_append _ _)⟩, hfill.toFits⟩
    · rw [replicate_succ', ← append_assoc, ← h.received]
      rfl
    · exact hfill.same ▸ h.stream
  | message _ _ _ hmsg hlen hc' hb =>
    have hfirst : ¬ 0 < k := by
      intro hk
      obtain ⟨rest, hrest⟩ := h.blocked hk
      rw [hb] at hrest
      exact hmsg (delimited_frame.inj [] msg _ _ (Nat.zero_le _) (by omega) hrest).1.symm
    obtain rfl : k = 0 := by omega
    refine ⟨_, ms ++ [msg], 0, rfl, ⟨?_, ?_, ?_, fun hk => absurd hk hfirst⟩, hc'⟩
    · have hrec := h.received
      rw [replicate_zero, append_nil] at hrec ⊢
      exact congrArg (· ++ [msg]) hrec
    · intro m hm
      rcases mem_append.mp hm with hm | hm
      · exact h.sizes m hm
      · exact mem_singleton.mp hm ▸ ⟨hmsg, hlen⟩
    · rw [h.stream, hb, flatMap_append, flatMap_singleton, append_assoc]

/-- Whatever the peer sends, and whatever is asked of the channel in whatever order: what was received are the whole
    frames at the start of the stream, none of more than ACHAT_MAX_MSGSIZE bytes. From an empty frame on there
    are empty messages only, and the stream stays where it is. -/
theorem reader_stream (blocking event : Bool) (stream : List UInt8) (cs : List Receive) : ∃ s ms k,
    runs Reader.step ⟨.create blocking event, stream, []⟩ cs = some s ∧ s.received = ms ++ List.replicate k [] ∧
      (∀ m ∈ ms, m ≠ [] ∧ m.length + 4 ≤ maxMsgsize) ∧
      stream = ms.flatMap frame ++ (s.chan.recvbuffer.bytes ++ s.wire) ∧
      (0 < k → frame [] <+: s.chan.recvbuffer.bytes ++ s.wire) := by
  have hnew : Reads stream ⟨.create blocking event, stream, []⟩ [] 0 := ⟨rfl, by simp, rfl, by simp⟩
  have hstep (s : Reader) (c : Receive) : (∃ ms k, Reads stream s ms k ∧ Fits s.chan) →
      ∃ s', s.step c = some s' ∧ ∃ ms k, Reads stream s' ms k ∧ Fits s'.chan := by
    rintro ⟨ms, k, h, hc⟩
    obtain ⟨s', ms', k', heq, h'⟩ := h.step hc c
    exact ⟨s', heq, ms', k', h'⟩
  obtain ⟨s, hrun, ms, k, h, -⟩ := runs_go hstep ⟨[], 0, hnew, valid_init, Nat.zero_le _⟩ cs
  exact ⟨s, ms, k, hrun, h.received, h.sizes, h.stream, h.blocked⟩

/-- The stream at the reader and the bytes in the send buffer are the frames of the messages. -/
structure Flow (l : Link) (ms : List (List UInt8)) (k : ℕ) : Prop where
  sender : Valid l.sender.sendbuffer
  sizes : ∀ m ∈ l.sent, m ≠ [] ∧ m.length ≤ maxMsgsize
  chan : Fits l.reader.chan
  reads : ∃ stream, Reads stream l.reader ms k ∧ stream ++ l.sender.sendbuffer.bytes = l.sent.flatMap frame

theorem Flow.wrote {l : Link} {sender : AchatChannel} {out : List UInt8} (msgs : List (List UInt8))
    (h : Flow l ms k) (hv : Valid sender.sendbuffer)
    (hout : out ++ sender.sendbuffer.bytes = l.sender.sendbuffer.bytes ++ msgs.flatMap frame)
    (hsizes : ∀ m ∈ msgs, m ≠ [] ∧ m.length ≤ maxMsgsize) : Flow (l.wrote (l.sent ++ msgs) sender out) ms k := by
  obtain ⟨stream, hreads, hsent⟩ := h.reads
  refine ⟨hv, fun m hm => ?_, h.chan, stream ++ out, hreads.more out, ?_⟩
  · rcases mem_append.mp hm with hm | hm
    · exact h.sizes m hm
    · exact hsizes m hm
  · dsimp only [Link.wrote]
    rw [append_assoc, hout, ← append_assoc, hsent, flatMap_append]

theorem Flow.step {l : Link} (h : Flow l ms k) (op : LinkOp) : ∃ l' ms' k', l.step op = some l' ∧ Flow l' ms' k' := by
  cases op with
  | send msg r₁ r₂ ios =>
    obtain ⟨rc, queued, sender, out, heq, hv, hout, hsize⟩ := accSendmsg_spec r₁ r₂ h.sender msg ios
    rw [Link.step, heq]
    cases queued with
    | true => exact ⟨_, ms, k, rfl, h.wrote [msg] hv (by simpa using hout) (by simpa using hsize)⟩
    | false =>
      have hw := h.wrote [] hv hout (by simp)
      rw [append_nil] at hw
      exact ⟨_, ms, k, rfl, hw⟩
  | flush ios =>
    obtain ⟨hv, hout⟩ := accFlush_spec h.sender ios
    have hw := h.wrote [] hv (hout.trans (append_nil _).symm) (by simp)
    rw [append_nil] at hw
    exact ⟨_, ms, k, rfl, hw⟩
  | receive c =>
    obtain ⟨stream, hreads, hsent⟩ := h.reads
    obtain ⟨s', ms', k', heq, hreads', hc'⟩ := hreads.step h.chan c
    rw [Link.step, heq]
    exact ⟨_, ms', k', rfl, h.sender, h.sizes, hc', stream, hreads', hsent⟩

/-- The messages that were received were sent, and the bytes on their way are the frames of the others. -/
theorem Flow.delivered {l : Link} (h : Flow l ms k) : k = 0 ∧ ∃ rest, l.sent = ms ++ rest ∧
    l.reader.chan.recvbuffer.bytes ++ l.reader.wire ++ l.sender.sendbuffer.bytes = rest.flatMap frame := by
  obtain ⟨stream, hreads, hsent⟩ := h.reads
  rw [hreads.stream, append_assoc] at hsent
  obtain ⟨rest, hrest, hway⟩ :=
    delimited_frame.split (fun m hm => Nat.le_of_add_right_le (hreads.sizes m hm).2) (fun m hm => (h.sizes m hm).2) hsent
  refine ⟨Nat.eq_zero_of_not_pos fun hk => ?_, rest, hrest, hway⟩
  -- an empty frame in front would be that of a message
  obtain ⟨tail, htail⟩ := (hreads.blocked hk).trans (prefix_append _ l.sender.sendbuffer.bytes)
  have hone : [[]].flatMap frame ++ tail = rest.flatMap frame := by rw [← hway, ← htail]; rfl
  obtain ⟨rest', rfl, -⟩ := delimited_frame.split (by simp) (fun m hm => (h.sizes m (hrest ▸ mem_append_right _ hm)).2) hone
  exact (h.sizes [] (hrest ▸ by simp)).1 rfl

/-- However the calls at the two ends and the bytes of the system calls fall: what was received is a prefix of what
    was sent, the frames of the rest are on their way, and no message of more than ACHAT_MAX_MSGSIZE - 4 bytes,
    which `acc_sendmsg` takes, ever gets out, nor any behind it. -/
theorem link_delivers (s r : Bool × Bool) (ops : List LinkOp) : ∃ l,
    runs Link.step ⟨.create s.1 s.2, [], .create r.1 r.2, [], []⟩ ops = some l ∧
      (∃ rest, l.sent = l.reader.received ++ rest ∧
        l.reader.chan.recvbuffer.bytes ++ l.reader.wire ++ l.sender.sendbuffer.bytes = rest.flatMap frame) ∧
      l.reader.received <+: l.sent.takeWhile fun m => m.length + 4 ≤ maxMsgsize := by
  have hnew : Flow ⟨.create s.1 s.2, [], .create r.1 r.2, [], []⟩ [] 0 :=
    ⟨valid_init, by simp, ⟨valid_init, Nat.zero_le _⟩, [], ⟨rfl, by simp, rfl, by simp⟩, rfl⟩
  have hstep (l : Link) (op : LinkOp) : (∃ ms k, Flow l ms k) → ∃ l', l.step op = some l' ∧ ∃ ms k, Flow l' ms k := by
    rintro ⟨ms, k, h⟩
    obtain ⟨l', ms', k', heq, h'⟩ := h.step op
    exact ⟨l', heq, ms', k', h'⟩
  obtain ⟨l, hrun, ms, k, h⟩ := runs_go hstep ⟨[], 0, hnew⟩ ops
  obtain ⟨rfl, rest, hrest, hway⟩ := h.delivered
  obtain ⟨stream, hreads, -⟩ := h.reads
  have hrec := hreads.received
  rw [replicate_zero, append_nil] at hrec
  refine ⟨l, hrun, ⟨rest, hrec ▸ hrest, hway⟩, ?_⟩
  rw [hrec, hrest, takeWhile_append_of_pos fun m hm => decide_eq_true (hreads.sizes m hm).2]
  exact prefix_append _ _

end Anoubis.Chat

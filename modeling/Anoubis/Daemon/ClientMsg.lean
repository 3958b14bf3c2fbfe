import Anoubis.Daemon.Pipe
import Anoubis.Proto.Server

/-! Messages of the clients (`amsg.c`): the read buffer in memory.

    The bytes between `rheadp` and `rtailp` are received and not yet processed. A message leaves them at the
    front; a read moves them to the start of the buffer first and appends to them:

        rbufp        rheadp         rtailp        2*MSG_BUF_SIZE
          │ processed  │ unprocessed  │ free            │

    A client's message starts with its length, in network byte order and with the four bytes of the length
    itself; its last four bytes are a checksum. An access outside of what was received is `none`, as is a
    store outside of the buffer. -/

namespace Anoubis.Daemon.ClientMsg

open List

open Anoubis.Lib Option
open Anoubis.Daemon.Amsg (Bytes Io Pipe msgInit msgBufSize msgSize complete take_append_drop_length)
open Anoubis.Connection (u32 csumLen)

/-- The half of `struct msg_buf` that reads. `rheadp` and `rtailp` are offsets from `rbufp`. -/
structure MsgBuf where
  rbufp : Bytes
  rheadp : ℕ
  rtailp : ℕ
  rmsg : Option Bytes
  iseof : Bool
  deriving DecidableEq

/-- The buffer, the bytes that the kernel still holds for it, and whether the client will send no more. -/
structure Client where
  mbp : MsgBuf
  data : Bytes
  closed : Bool
  deriving DecidableEq

/-- How a call goes: the two reads it may make, and whether malloc returns memory. -/
structure Call where
  io : Io
  io' : Io
  memory : Bool
  deriving DecidableEq

/-! ### Memory -/

/-- The `n` bytes from the offset `p` on. -/
def load (b : MsgBuf) (p n : ℕ) : Option Bytes :=
  if b.rheadp ≤ p ∧ p + n ≤ b.rtailp ∧ b.rtailp ≤ b.rbufp.length then some ((b.rbufp.drop p).take n) else none

/-- Memory with some bytes stored at the offset `p`. -/
def store (mem : Bytes) (p : ℕ) (bs : Bytes) : Option Bytes :=
  if p + bs.length ≤ mem.length then some (mem.take p ++ bs ++ mem.drop (p + bs.length)) else none

/-- `(unsigned int)(rtailp - rheadp)`. -/
def available (b : MsgBuf) : ℕ := (((b.rtailp : ℤ) - b.rheadp) % 4294967296).toNat

/-- The received bytes that are not processed yet. -/
def pending (b : MsgBuf) : Bytes := (b.rbufp.drop b.rheadp).take (b.rtailp - b.rheadp)

/-- The client as the model of the pipes sees a reader: with a list in place of the memory. -/
def Client.pipe (c : Client) : Pipe :=
  ⟨msgInit, c.data, ⟨0, pending c.mbp, c.mbp.rmsg, none, c.mbp.iseof⟩, c.closed⟩

/-! ### The functions -/

/-- `_fill_buf` up to the read: the unprocessed bytes are moved to the start of the buffer. -/
def compact (b : MsgBuf) : Option MsgBuf :=
  let b := if b.rheadp = b.rtailp then { b with rheadp := 0, rtailp := 0 } else b
  if b.rheadp ≠ 0 then do
    let size := b.rtailp - b.rheadp
    let bs ← load b b.rheadp size
    let mem ← store b.rbufp 0 bs
    pure { b with rbufp := mem, rheadp := 0, rtailp := size }
  else some b

/-- `_fill_buf`. -/
def fillBuf (c : Client) (io : Io) : Option (Bool × Client) :=
  match c.mbp.rmsg with
  | some m =>
    if complete m then some (true, c)
    else match Amsg.read c.pipe (msgSize m - m.length).toNat io with
      | none => some (true, c)
      | some [] => some (false, { c with mbp := { c.mbp with iseof := true } })
      | some got =>
        some (true, { c with mbp := { c.mbp with rmsg := some (m ++ got) }, data := c.data.drop got.length })
  | none => do
    let b ← compact c.mbp
    let c := { c with mbp := b }
    let space : ℤ := 2 * msgBufSize - b.rtailp
    if space ≤ 0 then pure (true, c)
    else match Amsg.read c.pipe space.toNat io with
      | none => pure (true, c)
      | some [] => pure (false, { c with mbp := { b with iseof := true } })
      | some got => do
        let mem ← store b.rbufp b.rtailp got
        pure (true, { c with
          mbp := { b with rbufp := mem, rtailp := b.rtailp + got.length }, data := c.data.drop got.length })

/-- ANOUBIS_MESSAGE_MAXLEN. -/
def messageMaxlen : ℕ := 100000

/-- `anoubis_msg_new`: the field `length` of the new message. -/
def anoubisMsgNew (len : ℕ) (memory : Bool) : Option ℕ :=
  if len > messageMaxlen - csumLen then none
  else if memory then some ((len + csumLen) % 4294967296) else none

/-- ENOMEM. -/
def enomem : ℤ := 12

/-- `_fill_buf` where fewer than `n` bytes are there. -/
def fillTo (c : Client) (n : ℕ) (io : Io) : Option (Bool × Client) :=
  if available c.mbp < n then fillBuf c io else some (true, c)

/-- `get_client_msg` with a frame of `len` bytes in the buffer. Both subtractions are those of a size_t. -/
def takeFrame (c : Client) (len : ℕ) (memory : Bool) : Option (ℤ × Option Bytes × Client) :=
  match anoubisMsgNew (((len : ℤ) - 4 - csumLen) % 18446744073709551616).toNat memory with
  | none => some (-enomem, none, c)
  | some length => do
    let m ← load c.mbp (c.mbp.rheadp + 4) length
    pure (1, some m, { c with mbp := { c.mbp with rheadp := c.mbp.rheadp + len } })

/-- `get_client_msg` with the length of a frame in the buffer. -/
def getFrame (c : Client) (io : Io) (memory : Bool) : Option (ℤ × Option Bytes × Client) := do
  let word ← load c.mbp c.mbp.rheadp 4
  let len := u32 word 0
  let (ok, c) ← fillTo c len io
  if ok = false then pure (0, none, c)
  else if available c.mbp < len then pure (1, none, c)
  else takeFrame c len memory

/-- `get_client_msg`: its return value and `*msgp`. -/
def getClientMsg (c : Client) (k : Call) : Option (ℤ × Option Bytes × Client) :=
  if c.mbp.rmsg.isSome then some (0, none, c)
  else do
    let (ok, c) ← fillTo c 4 k.io
    if ok = false then pure (0, none, c)
    else if available c.mbp < 4 then pure (1, none, c)
    else getFrame c k.io' k.memory

/-! ### The memory as a list -/

/-- The buffer has its size, and the pointers are in order. -/
structure Valid (b : MsgBuf) : Prop where
  size : b.rbufp.length = 2 * msgBufSize
  ordered : b.rheadp ≤ b.rtailp
  inside : b.rtailp ≤ 2 * msgBufSize

variable {b : MsgBuf} {c : Client}

theorem Valid.length_pending (h : Valid b) : (pending b).length = b.rtailp - b.rheadp := by
  have := h.size
  have := h.inside
  rw [pending, length_take, length_drop]
  omega

theorem Valid.length_le (h : Valid b) : (pending b).length ≤ 2 * msgBufSize := by
  have := h.inside
  rw [h.length_pending]
  omega

theorem Valid.available (h : Valid b) : available b = (pending b).length := by
  have hle := h.length_le
  have := h.ordered
  unfold msgBufSize at hle
  rw [h.length_pending] at hle ⊢
  rw [ClientMsg.available]
  omega

theorem Valid.load (h : Valid b) {d n : ℕ} (hn : d + n ≤ (pending b).length) :
    load b (b.rheadp + d) n = some (((pending b).drop d).take n) := by
  have := h.size
  have := h.inside
  have := h.ordered
  rw [h.length_pending] at hn
  rw [ClientMsg.load, if_pos ⟨by omega, by omega, by omega⟩, pending, drop_take, drop_drop,
    take_take, min_eq_left (by omega)]

variable {mem mem' bs got a : Bytes} {p : ℕ}

theorem length_store (h : store mem p bs = some mem') : mem'.length = mem.length := by
  rw [store] at h
  split at h
  · cases h
    simp
    omega
  · cases h

theorem take_store (h : store mem p bs = some mem') : mem'.take (p + bs.length) = mem.take p ++ bs := by
  rw [store] at h
  split at h
  · cases h
    refine take_left' ?_
    rw [length_append, length_take]
    omega
  · cases h

theorem store_isSome (mem : Bytes) (p : ℕ) (bs : Bytes) (h : p + bs.length ≤ mem.length) :
    ∃ mem', store mem p bs = some mem' := ⟨_, if_pos h⟩

/-- Compacting keeps the unprocessed bytes, and they start where the buffer does. -/
theorem compact_spec (h : Valid b) : ∃ b', compact b = some b' ∧ Valid b' ∧
    b'.rheadp = 0 ∧ pending b' = pending b ∧ b'.rmsg = b.rmsg ∧ b'.iseof = b.iseof := by
  have hsize := h.size
  have hord := h.ordered
  by_cases hempty : b.rheadp = b.rtailp
  · refine ⟨{ b with rheadp := 0, rtailp := 0 }, ?_, ⟨hsize, le_refl 0, Nat.zero_le _⟩, rfl, ?_, rfl, rfl⟩
    · simp [compact, hempty]
    · simp [pending, hempty]
  · by_cases hstart : b.rheadp = 0
    · refine ⟨b, ?_, h, hstart, rfl, rfl, rfl⟩
      simp only [compact, if_neg hempty]
      exact if_neg (not_not_intro hstart)
    · have hlen := h.length_pending
      have hload := h.load (d := 0) (n := b.rtailp - b.rheadp) (by omega)
      rw [add_zero, drop_zero, ← hlen, take_length, hlen] at hload
      obtain ⟨mem, hstore⟩ := store_isSome b.rbufp 0 (pending b) (by
        have := h.length_le
        omega)
      refine ⟨{ b with rbufp := mem, rheadp := 0, rtailp := b.rtailp - b.rheadp }, ?_,
        ⟨(length_store hstore).trans hsize, Nat.zero_le _, ?_⟩, rfl, ?_, rfl, rfl⟩
      · simp [compact, hempty, hstart, hload, hstore]
      · have := h.inside
        change b.rtailp - b.rheadp ≤ _
        omega
      · have := take_store hstore
        rw [zero_add, hlen] at this
        simpa [pending] using this

/-- What a read appends to the buffer, it appends to the list. -/
theorem append_spec (h : Valid b) (hstart : b.rheadp = 0) (hroom : b.rtailp + got.length ≤ 2 * msgBufSize) :
    ∃ mem, store b.rbufp b.rtailp got = some mem ∧ Valid { b with rbufp := mem, rtailp := b.rtailp + got.length } ∧
      pending { b with rbufp := mem, rtailp := b.rtailp + got.length } = pending b ++ got := by
  obtain ⟨mem, hstore⟩ := store_isSome b.rbufp b.rtailp got (by
    have := h.size
    omega)
  refine ⟨mem, hstore, ⟨(length_store hstore).trans h.size, ?_, hroom⟩, ?_⟩
  · have := h.ordered
    change b.rheadp ≤ b.rtailp + got.length
    omega
  · have := take_store hstore
    simpa [pending, hstart] using this

/-! ### Refinement -/

/-- `_fill_buf` on the memory does what the model of the pipes says of the list, and it stays in bounds. -/
theorem fillBuf_refines (h : Valid c.mbp) (io : Io) : ∃ c',
    fillBuf c io = some ((Amsg.fillBuf c.pipe io).1, c') ∧ Valid c'.mbp ∧ c'.pipe = (Amsg.fillBuf c.pipe io).2 := by
  cases hm : c.mbp.rmsg with
  | some m =>
    have hm' : c.pipe.rx.rmsg = some m := hm
    simp only [fillBuf, Amsg.fillBuf, hm, hm']
    by_cases hc : complete m = true
    · exact ⟨c, by rw [if_pos hc, if_pos hc], h, by rw [if_pos hc]⟩
    · simp only [if_neg hc]
      cases Amsg.read c.pipe (msgSize m - m.length).toNat io with
      | none => exact ⟨c, rfl, h, rfl⟩
      | some got =>
        cases got with
        | nil => exact ⟨_, rfl, ⟨h.size, h.ordered, h.inside⟩, rfl⟩
        | cons b bs => exact ⟨_, rfl, ⟨h.size, h.ordered, h.inside⟩, rfl⟩
  | none =>
    obtain ⟨b, hcomp, hv, hstart, hpend, hrm, heof⟩ := compact_spec h
    have hm' : c.pipe.rx.rmsg = none := hm
    have hlen : (pending c.mbp).length = b.rtailp := by
      have := hv.length_pending
      rw [hpend, hstart] at this
      omega
    have hpipe : ({ c with mbp := b } : Client).pipe = c.pipe := by
      simp only [Client.pipe, hpend, hrm, heof]
    have hspace : (2 * msgBufSize : ℤ) - c.pipe.rx.rbuf.length = 2 * msgBufSize - b.rtailp := by
      rw [← hlen]
      rfl
    simp only [fillBuf, Amsg.fillBuf, hm, hm', hcomp, hpipe, hspace, bind_eq_bind, bind_some]
    by_cases hfull : (2 * msgBufSize : ℤ) - b.rtailp ≤ 0
    · simp only [if_pos hfull]
      exact ⟨_, rfl, hv, hpipe⟩
    · simp only [if_neg hfull]
      cases hread : Amsg.read c.pipe ((2 * msgBufSize : ℤ) - b.rtailp).toNat io with
      | none => exact ⟨_, rfl, hv, hpipe⟩
      | some got =>
        cases got with
        | nil =>
          refine ⟨_, rfl, ⟨hv.size, hv.ordered, hv.inside⟩, ?_⟩
          change (⟨msgInit, c.data, ⟨0, pending b, b.rmsg, none, true⟩, c.closed⟩ : Pipe) = _
          rw [hpend, hrm, hm]
          rfl
        | cons x xs =>
          have hle : b.rtailp + (x :: xs).length ≤ 2 * msgBufSize := by
            rcases Amsg.read_some (by omega) hread with ⟨hnil, -⟩ | ⟨-, hle, -⟩
            · cases hnil
            · omega
          obtain ⟨mem, hstore, hv', hpend'⟩ := append_spec hv hstart hle
          simp only [hstore, bind_some]
          refine ⟨_, rfl, hv', ?_⟩
          rw [Client.pipe, hpend', hpend, hrm, heof, hm]
          rfl

/-- What a call of `_fill_buf` changes: it moves bytes from the kernel to the end of the buffer. -/
structure Filled (c : Client) (io : Io) (got : Bytes) (c' : Client) : Prop where
  valid : Valid c'.mbp
  rmsg : c'.mbp.rmsg = none
  pending_eq : pending c'.mbp = pending c.mbp ++ got
  data_eq : c.data = got ++ c'.data
  idle : io ≠ .again → got = [] → c.data = [] ∨ 2 * msgBufSize ≤ (pending c.mbp).length

/-- Only a signal or an empty pipe keeps a read from returning. -/
theorem read_idle {p : Pipe} {count : ℕ} {io : Io} (h : Amsg.read p count io = none) (hio : io ≠ .again) :
    p.data = [] := by
  cases io with
  | again => exact absurd rfl hio
  | upto n =>
    rw [Amsg.read] at h
    split at h
    · rename_i hd
      simpa using hd
    · cases h

theorem fillBuf_filled (h : Valid c.mbp) (hm : c.mbp.rmsg = none) (io : Io) :
    ∃ ok c' got, fillBuf c io = some (ok, c') ∧ Filled c io got c' ∧ (ok = false → got = []) := by
  obtain ⟨c', hfill, hv, hpipe⟩ := fillBuf_refines h io
  refine ⟨(Amsg.fillBuf c.pipe io).1, c', ?_⟩
  have hrm : c.pipe.rx.rmsg = none := hm
  by_cases hfull : 2 * msgBufSize ≤ (pending c.mbp).length
  · have hsame : Amsg.fillBuf c.pipe io = (true, c.pipe) := by
      simp only [Amsg.fillBuf, hrm]
      exact if_pos (by change (2 * msgBufSize : ℤ) - (pending c.mbp).length ≤ 0; omega)
    rw [hsame] at hfill hpipe
    have hrx := congrArg (fun p => p.rx) hpipe
    exact ⟨[], hsame ▸ hfill, ⟨hv, (congrArg (·.rmsg) hrx).trans hm,
      (congrArg (·.rbuf) hrx).trans (append_nil _).symm, (congrArg (·.data) hpipe).symm,
      fun _ _ => .inr hfull⟩, fun _ => rfl⟩
  · have hroom : 0 < Amsg.room c.pipe.rx := by
      simp only [Amsg.room, hrm]
      change 0 < (2 * msgBufSize : ℤ) - (pending c.mbp).length
      omega
    have hok := Amsg.fillBuf_eq hroom io
    have hfields : ∀ q : Pipe, c'.pipe = q → c'.mbp.rmsg = q.rx.rmsg ∧ pending c'.mbp = q.rx.rbuf ∧
        c'.data = q.data := by
      intro q hq
      subst hq
      exact ⟨rfl, rfl, rfl⟩
    cases hread : Amsg.read c.pipe (Amsg.room c.pipe.rx).toNat io with
    | none =>
      rw [hread] at hok
      obtain ⟨hrm', hp, hd⟩ := hfields _ (hpipe.trans (congrArg Prod.snd hok))
      refine ⟨[], hok ▸ hfill, ⟨hv, hrm'.trans hm, hp.trans (append_nil _).symm, hd.symm, ?_⟩, fun _ => rfl⟩
      intro hio _
      exact .inl (read_idle hread hio)
    | some got =>
      rw [hread] at hok
      rcases Amsg.read_some (by omega) hread with ⟨rfl, hnil, -⟩ | ⟨hne, -, hdata⟩
      · obtain ⟨hrm', hp, hd⟩ := hfields _ (hpipe.trans (congrArg Prod.snd hok))
        exact ⟨[], hok ▸ hfill, ⟨hv, hrm'.trans hm, hp.trans (append_nil _).symm, hd.symm,
          fun _ _ => .inl hnil⟩, fun _ => rfl⟩
      · cases got with
        | nil => exact absurd rfl hne
        | cons x xs =>
          obtain ⟨hrm', hp, hd⟩ := hfields _ (hpipe.trans (congrArg Prod.snd hok))
          simp only [Amsg.store, hrm] at hrm' hp
          refine ⟨x :: xs, hok ▸ hfill, ⟨hv, hrm', hp, ?_, fun _ h => absurd h hne⟩, ?_⟩
          · rw [hd]
            exact hdata
          · intro hf
            rw [hok] at hf
            cases hf

/-! ### One call -/

/-- A whole frame by its own word. -/
def Whole (q : Bytes) : Prop := 4 ≤ q.length ∧ u32 q 0 ≤ q.length

/-- What a call of `get_client_msg` does, once it has read `got`: the unprocessed bytes are then `q`. -/
inductive Answer (c : Client) (k : Call) (got q : Bytes) : ℤ → Option Bytes → Client → Prop
  /-- The frame is not complete. -/
  | waits {ret : ℤ} {c' : Client} (hret : 0 ≤ ret) (hp : pending c'.mbp = q) (hw : ¬ Whole q)
      (hidle : k.io ≠ .again → k.io' ≠ .again → got = [] → c.data = [] ∨ 2 * msgBufSize ≤ q.length) :
      Answer c k got q ret none c'
  /-- It is refused: too short, or no memory. -/
  | refuses {c' : Client} (hp : pending c'.mbp = q) (hw : Whole q) (hbad : u32 q 0 < 8 ∨ k.memory = false) :
      Answer c k got q (-enomem) none c'
  | returns {c' : Client} (hp : pending c'.mbp = q.drop (u32 q 0)) (hw : Whole q) (hlen : 8 ≤ u32 q 0) :
      Answer c k got q 1 (some ((q.take (u32 q 0)).drop 4)) c'

/-- Everything that a call changes. -/
structure Called (c : Client) (k : Call) (ret : ℤ) (m : Option Bytes) (c' : Client) : Prop where
  valid : Valid c'.mbp
  rmsg : c'.mbp.rmsg = none
  moved : ∃ got, c.data = got ++ c'.data ∧ (pending c.mbp ++ got).length ≤ 2 * msgBufSize ∧
    Answer c k got (pending c.mbp ++ got) ret m c'

theorem u32_append (b : Bytes) (h : 4 ≤ a.length) : u32 (a ++ b) 0 = u32 a 0 := by
  have hget : ∀ i < 4, (a ++ b).getD i 0 = a.getD i 0 := fun i hi => getD_append a b 0 i (by omega)
  simp only [u32, hget 0 (by decide), hget (0 + 1) (by decide), hget (0 + 2) (by decide), hget (0 + 3) (by decide)]

theorem u32_take : u32 (a.take 4) 0 = u32 a 0 := by
  have hget : ∀ i < 4, (a.take 4).getD i 0 = a.getD i 0 := fun i hi => by simp [List.getD, hi]
  simp only [u32, hget 0 (by decide), hget (0 + 1) (by decide), hget (0 + 2) (by decide), hget (0 + 3) (by decide)]

theorem fillTo_filled (h : Valid c.mbp) (hm : c.mbp.rmsg = none) (n : ℕ) (io : Io) :
    ∃ ok c' got, fillTo c n io = some (ok, c') ∧ Valid c'.mbp ∧ c'.mbp.rmsg = none ∧
      pending c'.mbp = pending c.mbp ++ got ∧ c.data = got ++ c'.data ∧ (ok = false → (pending c'.mbp).length < n) ∧
      ((pending c'.mbp).length < n → io ≠ .again → got = [] →
        c.data = [] ∨ 2 * msgBufSize ≤ (pending c.mbp).length) := by
  rw [fillTo]
  by_cases hn : available c.mbp < n
  · obtain ⟨ok, c', got, hfill, hf, hok⟩ := fillBuf_filled h hm io
    refine ⟨ok, c', got, by rw [if_pos hn, hfill], hf.valid, hf.rmsg, hf.pending_eq, hf.data_eq, ?_,
      fun _ => hf.idle⟩
    intro ho
    rw [hf.pending_eq, hok ho, append_nil, ← h.available]
    exact hn
  · refine ⟨true, c, [], by rw [if_neg hn], h, hm, (append_nil _).symm, rfl, by simp, ?_⟩
    intro hlt
    rw [← h.available] at hlt
    exact absurd hlt hn

/-- The bytes behind the length, where the frame is whole. -/
theorem takeFrame_spec (h : Valid c.mbp) (hm : c.mbp.rmsg = none) {k : Call} {c₀ : Client}
    (hp : pending c.mbp = pending c₀.mbp ++ got) (hd : c₀.data = got ++ c.data) (hw : Whole (pending c.mbp)) :
    ∃ ret m c', takeFrame c (u32 (pending c.mbp) 0) k.memory = some (ret, m, c') ∧ Called c₀ k ret m c' := by
  have hle : (pending c₀.mbp ++ got).length ≤ 2 * msgBufSize := hp ▸ h.length_le
  have hlen : u32 (pending c.mbp) 0 ≤ 2 * msgBufSize := hw.2.trans h.length_le
  unfold msgBufSize at hlen
  rw [takeFrame, anoubisMsgNew, messageMaxlen, csumLen]
  by_cases hshort : u32 (pending c.mbp) 0 < 8
  · refine ⟨_, none, c, ?_, h, hm, got, hd, hle, hp ▸ Answer.refuses rfl hw (.inl hshort)⟩
    rw [if_pos (by omega)]
  · rw [if_neg (by omega)]
    cases hk : k.memory with
    | false => exact ⟨_, none, c, rfl, h, hm, got, hd, hle, hp ▸ Answer.refuses rfl hw (.inr hk)⟩
    | true =>
      have hsize : ((((u32 (pending c.mbp) 0 : ℤ) - 4 - (4 : ℕ)) % 18446744073709551616).toNat + 4) %
          4294967296 = u32 (pending c.mbp) 0 - 4 := by omega
      have hload := h.load (d := 4) (n := u32 (pending c.mbp) 0 - 4) (by have := hw.2; omega)
      simp only [if_true, hsize, hload, bind_eq_bind, bind_some]
      refine ⟨_, _, _, rfl, ⟨h.size, ?_, h.inside⟩, hm, got, hd, hle, ?_⟩
      · have := h.length_pending
        have := h.ordered
        have := hw.2
        change c.mbp.rheadp + u32 (pending c.mbp) 0 ≤ c.mbp.rtailp
        omega
      · rw [← hp, ← drop_take]
        refine Answer.returns ?_ hw (by omega)
        simp only [pending, drop_take, drop_drop, Nat.sub_add_eq]

/-- Any call, in any state: it stays in bounds, and it does one of three things. -/
theorem getClientMsg_called (h : Valid c.mbp) (hm : c.mbp.rmsg = none) (k : Call) :
    ∃ ret m c', getClientMsg c k = some (ret, m, c') ∧ Called c k ret m c' := by
  obtain ⟨ok, c₁, got, hfill, hv, hm₁, hp, hd, hok, hidle⟩ := fillTo_filled h hm 4 k.io
  rw [getClientMsg, if_neg (by simp [hm]), hfill, bind_eq_bind, bind_some]
  by_cases hshort : (pending c₁.mbp).length < 4
  · -- not even the length is there
    have hans : ∀ ret : ℤ, 0 ≤ ret → Called c k ret none c₁ := by
      intro ret hret
      refine ⟨hv, hm₁, got, hd, hp ▸ hv.length_le, Answer.waits hret hp ?_ ?_⟩
      · rw [← hp]
        exact fun hw => absurd hw.1 (by omega)
      · intro hio _ hgot
        rw [hgot, append_nil]
        exact hidle hshort hio hgot
    cases ok with
    | false => exact ⟨_, _, _, rfl, hans 0 (by decide)⟩
    | true =>
      simp only [Bool.true_eq_false, if_false, hv.available, if_pos hshort]
      exact ⟨_, _, _, rfl, hans 1 (by decide)⟩
  · have hok' : ok = true := by
      cases ok with
      | false => exact absurd (hok rfl) hshort
      | true => rfl
    subst hok'
    have hword := hv.load (d := 0) (n := 4) (by omega)
    rw [add_zero, drop_zero] at hword
    simp only [Bool.true_eq_false, if_false, hv.available, if_neg hshort, getFrame, hword, u32_take,
      bind_eq_bind, bind_some]
    obtain ⟨ok', c₂, got', hfill', hv₂, hm₂, hp₂, hd₂, hok₂, hidle₂⟩ :=
      fillTo_filled hv hm₁ (u32 (pending c₁.mbp) 0) k.io'
    have hp' : pending c₂.mbp = pending c.mbp ++ (got ++ got') := by
      rw [hp₂, hp, append_assoc]
    have hd' : c.data = got ++ got' ++ c₂.data := by
      rw [hd, hd₂, append_assoc]
    have hu : u32 (pending c₂.mbp) 0 = u32 (pending c₁.mbp) 0 := by
      rw [hp₂]
      exact u32_append got' (by omega)
    rw [hfill', bind_some]
    by_cases hinc : (pending c₂.mbp).length < u32 (pending c₁.mbp) 0
    · -- the frame is not complete
      have hans : ∀ ret : ℤ, 0 ≤ ret → Called c k ret none c₂ := by
        intro ret hret
        refine ⟨hv₂, hm₂, _, hd', hp' ▸ hv₂.length_le, Answer.waits hret hp' ?_ ?_⟩
        · rw [← hp']
          exact fun hw => absurd hw.2 (by omega)
        · intro _ hio hgot
          obtain ⟨hg, hg'⟩ := append_eq_nil_iff.mp hgot
          subst hg
          rw [hgot, append_nil, hd, nil_append, ← (hp.trans (append_nil _))]
          exact hidle₂ hinc hio hg'
      cases ok' with
      | false => exact ⟨_, _, _, rfl, hans 0 (by decide)⟩
      | true =>
        simp only [Bool.true_eq_false, if_false, hv₂.available, if_pos hinc]
        exact ⟨_, _, _, rfl, hans 1 (by decide)⟩
    · have hok' : ok' = true := by
        cases ok' with
        | false => exact absurd (hok₂ rfl) hinc
        | true => rfl
      subst hok'
      have hlong : 4 ≤ (pending c₂.mbp).length := by
        rw [hp₂, length_append]
        omega
      simp only [Bool.true_eq_false, if_false, hv₂.available, if_neg hinc]
      rw [← hu]
      exact takeFrame_spec hv₂ hm₂ hp' hd' ⟨hlong, by omega⟩

end Anoubis.Daemon.ClientMsg

import Anoubis.Daemon.ScanReply
import Anoubis.Lib.Memory

/-! Events of older kernels (`compat_get_event` in `kernel_compat.c`, `get_event` in `amsg.c`).

    An event of an older kernel is copied to a larger message. Before version 0x10005 the common part of all payloads
    had no pgid, and in this version the events on playground files had no second path:

        0x10001 … 0x10004    │ header │ task_cookie │ rest …           0x10005    │ header │ … path … 0 │
                                      │              ╲                                      │            ╲
        0x10006              │ header │ task_cookie, pgid │ rest …     0x10006    │ header │ … path … 0 │ 0 │

    A message is the memory from its `struct anoubisd_msg` on; an access outside of this memory is `none`. The
    headers of the kernel are a parameter, as in `Sizes`. -/

namespace Anoubis.Daemon.Compat

open Anoubis.Lib
open Anoubis.Connection (Bytes)
open Anoubis.Daemon.Amsg (msgSizeLimit msgBufSize)
open Anoubis.Daemon.Scanner (hostBytes)
open Anoubis.Daemon.Sizes

/-- struct anoubis_event_common: `task_cookie` is all that struct anoubis_event_common_10004 has, `pgid` is new. Each
    payload that there was before version 0x10005 starts with it. The two fields of the header are apart, and there is
    space for the size of an event of get_event. -/
structure Common (K : Kernel) where
  size : ℕ
  pgid : Field
  taskCookie_first : K.taskCookie.off = 0
  taskCookie_pos : 0 < K.taskCookie.width
  pgid_behind : K.taskCookie.width ≤ pgid.off
  pgid_in : pgid.off + pgid.width ≤ size
  size_le : size ≤ 1024
  alfEvent : size ≤ K.alfEvent
  acProcessMessage : size ≤ K.acProcessMessage
  acIpcMessage : size ≤ K.acIpcMessage
  anoubisStatMessage : size ≤ K.anoubisStatMessage
  pathhint : size ≤ K.pathhint
  paths : size ≤ K.paths
  pathlen0 : size ≤ K.pathlen0.off
  pathlen1 : size ≤ K.pathlen1.off
  msgSource_apart : K.msgSource.off + K.msgSource.width ≤ K.msgSize.off ∨
    K.msgSize.off + K.msgSize.width ≤ K.msgSource.off
  msgSize_room : 2 ≤ K.msgSize.width

variable (K : Kernel)

/-- sizeof(struct anoubis_event_common_10004). -/
def commonSize10004 : ℕ := K.taskCookie.width

/-- ANOUBISD_MSG_EVENTDEV. -/
def eventdev : ℕ := 4

/-- `msg_factory`; NULL where the size is bad. -/
def msgFactory (mtype : ℕ) (size : ℤ) : Option Bytes :=
  let size := size + 8
  if size < 8 ∨ size > msgSizeLimit then none
  else some (hostBytes 4 size.toNat ++ (hostBytes 4 mtype ++ List.replicate (size.toNat - 8) 0))

/-- A field of a structure is written. -/
def writeField (m : Bytes) (base : ℕ) (f : Field) (n : ℤ) : Option Bytes :=
  store m (base + f.off) (hostBytes f.width (n % 256 ^ f.width).toNat)

/-- A number as a size_t. -/
def sizeT (n : ℤ) : ℕ := (n % 18446744073709551616).toNat

/-- `get_event` up to the conversion, for the bytes that `read` returned. It returns NULL for a bad length. -/
def getEvent (data : Bytes) : Option (Option Bytes) :=
  if data.length < K.eventdevHdr then some none
  else do
    let msgSize ← readField data 0 K.msgSize
    if msgSize ≠ data.length then some none
    else match msgFactory eventdev msgSize with
      | none => some none
      | some m => do
        let m ← store m 8 data
        pure (some m)

/-- `compat_get_event` for the version 0x10005; `old` is the message, and the bytes `behind` stand behind it in
    memory. -/
def compatPgFile (old behind : Bytes) : Option (Option Bytes) := do
  let mem := old ++ behind
  let size ← readHost mem 0 4
  if size < K.eventdevHdr then pure none
  else do
    let source ← readField mem 8 K.msgSource
    if K.source source ≠ some .playgroundfile then pure (some old)
    else if size < K.eventdevHdr + K.pgFileMessage then pure none
    else match msgFactory eventdev (size + 1 : ℕ) with
      | none => pure none
      | some n => do
        let bytes ← load mem 8 size
        let n ← store n 8 bytes
        let msgSize := (← readField mem 8 K.msgSize) + 1
        let n ← writeField n 8 K.msgSize msgSize
        match ← scan n (8 + K.eventdevHdr + K.pgFilePath) (sizeT (msgSize - K.pgFileMessage)) with
        | none => pure none
        | some p => do
          let n ← store n (p + 1) [0]
          pure (some n)

/-- `compat_get_event` for the versions before 0x10005. -/
def compatCommon (C : Common K) (old behind : Bytes) : Option (Option Bytes) := do
  let mem := old ++ behind
  let size ← readHost mem 0 4
  let total : ℤ := size - 8
  if total < K.eventdevHdr + commonSize10004 K then pure none
  else do
    let post := (total - K.eventdevHdr - commonSize10004 K).toNat
    match msgFactory eventdev (K.eventdevHdr + C.size + post : ℕ) with
    | none => pure none
    | some n => do
      let hdr ← load mem 8 K.eventdevHdr
      let n ← store n 8 hdr
      let cookie ← load mem (8 + K.eventdevHdr) (commonSize10004 K)
      let n ← store n (8 + K.eventdevHdr + K.taskCookie.off) cookie
      let n ← writeField n (8 + K.eventdevHdr) C.pgid 0
      let msgSize ← readField n 8 K.msgSize
      let nsize ← readHost n 0 4
      let n ← writeField n 8 K.msgSize (msgSize + (nsize - size))
      let rest ← load mem (8 + K.eventdevHdr + commonSize10004 K) post
      let n ← store n (8 + K.eventdevHdr + C.size) rest
      pure (some n)

/-- `compat_get_event`; the version of the daemon is 0x10006. -/
def compatGetEvent (C : Common K) (old behind : Bytes) (version : ℕ) : Option (Option Bytes) :=
  if version = 0x10005 then compatPgFile K old behind
  else if 0x10001 ≤ version ∧ version ≤ 0x10004 then compatCommon K C old behind
  else some none

end Anoubis.Daemon.Compat

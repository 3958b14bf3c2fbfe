import Anoubis.Pe.UpgradePrune
import Anoubis.Lib.Trace

/-! The transfer of the upgrade tree (`policy.c`, `pe.c`, `upgrade.c`).

    At the end of an upgrade the policy process tells the upgrade process to start. It asks for chunks of
    path names until an empty one arrives, calculates the checksum of each file and reports the end. The
    master relays these messages and keeps the checksums for itself.

        policy                      master                     upgrade
          --- START ------------------------------------------>
          <-------------------------------------- CHUNK_REQ ---
          --- CHUNK "/a" "/b" -------------------------------->   send_checksum
                                       <--- SFS_UPDATE_ALL ----
          <-------------------------------------- CHUNK_REQ ---
          --- CHUNK ------------------------------------------>
          <-------------------------------------------- END ---                  -/

namespace Anoubis.Pe.Upgrade

open Anoubis.Apn Anoubis.Lib

/-- PATH_MAX. -/
def pathMax : ℕ := 4096

/-- The byte behind a string. -/
def nul : Char := Char.ofNat 0

/-- ANOUBIS_CS_LEN bytes. -/
abbrev Csum := Vector UInt8 32

/-- ANOUBISD_MSG_UPGRADE with its types, and ANOUBISD_MSG_SFS_UPDATE_ALL. -/
inductive Msg where
  | start
  | chunkReq
  | chunk (chunk : Text)
  | fin
  | updateAll (path : Text) (csum : Csum)
  deriving DecidableEq

/-! ### The iterator -/

/-- `pe_filetree_next`, for the node with this path. -/
def peFiletreeNext (f : FileTree) (path : Text) : Option Node :=
  ((f.dropWhile (fun n => n.path ≠ path)).tail).head?

/-- The policy process; `iterator` is the path of the node that `upgrade_iterator` points to. -/
structure Policy where
  pe : State
  iterator : Option Text
  deriving DecidableEq

/-- The tree, unless `!upgrade_tree || upgrade_counter`. -/
def Policy.idleTree (p : Policy) : Option FileTree :=
  if p.pe.g.upgradeCounter ≠ 0 then none else p.pe.g.upgradeTree

/-- `pe_upgrade_filelist_start`. -/
def Policy.filelistStart (p : Policy) : Policy :=
  { p with iterator := p.idleTree.bind (fun f => f.head?.map Node.path) }

/-- `pe_upgrade_filelist_next`. -/
def Policy.filelistNext (p : Policy) : Policy :=
  { p with iterator := p.idleTree.bind (fun f =>
      p.iterator.bind (fun path => (peFiletreeNext f path).map Node.path)) }

/-- `pe_upgrade_filelist_get`; the result is the new value of the iterator. -/
def Policy.filelistGet (p : Policy) : Policy :=
  { p with iterator := p.idleTree.bind (fun _ => p.iterator) }

/-- The loop of `policy_upgrade_fill_chunk`: what is copied behind the first `reallen` bytes. -/
def fillChunk (maxlen reallen : ℕ) (p : Policy) : Text × Policy :=
  match p.filelistGet.iterator with
  | none => ([], p.filelistGet)
  | some path =>
    let len := path.length + 1
    if maxlen < reallen + len then ([], p.filelistGet)
    else
      let (rest, p') := fillChunk maxlen (reallen + len) p.filelistGet.filelistNext
      (path ++ nul :: rest, p')
  termination_by maxlen - reallen

/-- `send_upgrade_chunk`. -/
def Policy.sendUpgradeChunk (p : Policy) : Msg × Policy :=
  let (chunk, p) := fillChunk pathMax 0 p
  (.chunk chunk, p)

/-- `dispatch_upgrade` of `policy.c`: the message sent, and whether this ended the upgrade. -/
def Policy.dispatchUpgrade (p : Policy) : Msg → List Msg × Policy × Bool
  | .chunkReq => ([p.sendUpgradeChunk.1], p.sendUpgradeChunk.2, false)
  | .fin => ([], ⟨p.pe.finish, none⟩, true)
  | .start | .chunk _ | .updateAll .. => ([], p, false)

/-- Any other event. If it ends the upgrade, `pe_upgrade_end` calls `send_upgrade_start`. -/
def Policy.event (p : Policy) (e : Config × Event) : List Msg × Policy :=
  let st := step p.pe e
  if st.g.started = p.pe.g.started then ([], { p with pe := st })
  else ([.start], (Policy.mk st none).filelistStart)

/-! ### The upgrade process -/

/-- What `lstat` may find. -/
inductive FileKind where
  | link
  | regular
  | other
  deriving DecidableEq

/-- What the kernel answers to one call of `send_checksum`; `none` and `false` are errors. `getcsum` is
    the result of ANOUBIS_GETCSUM and `stack` what is in `cs.csum` at the start. -/
structure Answers where
  openDevice : Bool
  lstat : Option FileKind
  readlink : Option Text
  openFile : Bool
  getcsum : Option Csum
  stack : Csum
  deriving DecidableEq

/-- What the upgrade process did. -/
inductive Act where
  | call (path : Text) (answers : Answers)
  | send (m : Msg)
  deriving DecidableEq

/-- The upgrade process; `devanoubis` is `none` for -2 and then tells whether the device is open. -/
structure Upgrader where
  devanoubis : Option Bool
  trace : List Act
  deriving DecidableEq

/-- `enqueue(&eventq_u2m, msg)`; the messages are those of the trace. -/
def Upgrader.send (u : Upgrader) (m : Msg) : Upgrader := { u with trace := u.trace ++ [.send m] }

section Upgrader

variable (sha : Text → Csum)

/-- The checksum that `send_checksum` sends once the device is open. -/
def Answers.csum (a : Answers) : Option Csum :=
  match a.lstat with
  | some .link => a.readlink.map sha
  | some .regular =>
    -- a failure of the ioctl is logged, and what is on the stack goes out
    if a.openFile then some (a.getcsum.getD a.stack) else none
  | some .other => none
  | none => none

/-- `send_checksum`; the call itself is part of the trace. -/
def Upgrader.sendChecksum (u : Upgrader) (a : Answers) (path : Text) : Upgrader :=
  let dev := u.devanoubis.getD a.openDevice
  let u : Upgrader := ⟨some dev, u.trace ++ [.call path a]⟩
  match if dev then a.csum sha else none with
  | some csum => u.send (.updateAll path csum)
  | none => u

/-- The strings in a chunk. -/
def chunkPaths (chunk : Text) : List Text :=
  match chunk with
  | [] => []
  | c :: cs =>
    (c :: cs).takeWhile (· ≠ nul) :: chunkPaths ((c :: cs).drop (((c :: cs).takeWhile (· ≠ nul)).length + 1))
  termination_by chunk.length

/-- The loop over the strings of a chunk; the `k`-th call gets `answers k`. -/
def Upgrader.sendChecksums (answers : ℕ → Answers) : ℕ → Upgrader → List Text → Upgrader
  | _, u, [] => u
  | k, u, path :: paths => sendChecksums answers (k + 1) (u.sendChecksum sha (answers k) path) paths

/-- `umsg->chunk[umsg->chunksize-1] = 0`. -/
def terminated (chunk : Text) : Text := chunk.dropLast ++ [nul]

/-- `dispatch_upgrade` of `upgrade.c`. -/
def Upgrader.dispatchUpgrade (u : Upgrader) (answers : ℕ → Answers) : Msg → Upgrader
  | .start => u.send .chunkReq
  | .chunk chunk =>
    if chunk.length = 0 then u.send .fin
    else (u.sendChecksums sha answers 0 (chunkPaths (terminated chunk))).send .chunkReq
  | .chunkReq | .fin | .updateAll .. => u

end Upgrader

/-! ### Both processes -/

/-- The processes and the messages between them. The master takes the messages of the upgrade process in
    order; `taken` of those in the trace have left the queue. -/
structure Transfer where
  policy : Policy
  down : List Msg
  upgrader : Upgrader
  taken : ℕ
  done : Bool
  deriving DecidableEq

def Act.sent : Act → Option Msg
  | .call .. => none
  | .send m => some m

/-- The queue from the upgrade process to the master. -/
def Transfer.up (t : Transfer) : List Msg := (t.upgrader.trace.filterMap Act.sent).drop t.taken

/-- An event of the policy process (other than the end of the checksum update), the relay of a message by
    the master and its handling by the policy process, and the handling of a message by the upgrade
    process. -/
inductive TransferEvent where
  | policy (e : Config × Event)
  | relay
  | upgrade (answers : ℕ → Answers)

/-- One step; the transfer is over when the policy process has handled ANOUBISD_UPGRADE_END. -/
def Transfer.step (sha : Text → Csum) (t : Transfer) (e : TransferEvent) : Option Transfer :=
  if t.done then none
  else match e with
    | .policy e =>
      if e.2 = .finish then none
      else some { t with policy := (t.policy.event e).2, down := t.down ++ (t.policy.event e).1 }
    | .relay =>
      match t.up with
      | [] => none
      | .updateAll .. :: _ => some { t with taken := t.taken + 1 }
      | m :: _ =>
        let (ms, policy, done) := t.policy.dispatchUpgrade m
        some { t with policy := policy, down := t.down ++ ms, taken := t.taken + 1, done := done }
    | .upgrade answers =>
      match t.down with
      | [] => none
      | m :: down => some { t with down := down, upgrader := t.upgrader.dispatchUpgrade sha answers m }

/-- Behind `pe_upgrade_end` of the last upgrade parent: `send_upgrade_start` has been called. An upgrade
    before this one may have opened the device. -/
def Transfer.init (st : State) (devanoubis : Option Bool) : Transfer :=
  ⟨(Policy.mk st none).filelistStart, [.start], ⟨devanoubis, []⟩, 0, false⟩

end Anoubis.Pe.Upgrade

import Anoubis.Lib.Walk
import Anoubis.Proto.Verify

/-! Sizes of the messages between the processes of the daemon (`amsg_verify.c`).

    Each function walks over a message: a position `buf`, the bytes `len` that are left, and the size counted
    so far. The macros move these three together, and every one of them may leave the function with -1:

        CAST  SHIFT_FIELD            SHIFT_CNT          SHIFT_STRING
        │ fields of the structure │ counted bytes │ string … 0 │ rest
        buf                                                         buf + len

    The structures of `anoubisd.h` have the layout of a 64 bit machine. Those of the kernel's events are a
    parameter: their headers are not part of the repository. -/

namespace Anoubis.Daemon.Sizes

open Anoubis.Lib
open Anoubis.Connection (Bytes csumLen)
open Anoubis.MsgVerify (int readU16 readU32 opAddsum opAddsig)

/-! ### The kernel's headers -/

/-- A field of a structure: its offset and width. -/
structure Field where
  off : ℕ
  width : ℕ
  deriving DecidableEq

/-- ANOUBIS_SOURCE_*. -/
inductive Source where
  | alf | sandbox | sfs | sfsexec | sfspath | process | stat | ipc | playground | playgroundproc | playgroundfile
  deriving DecidableEq

/-- What the headers of the kernel module define: sizes of structures, offsets of the strings at their ends,
    and fields. All fields lie in their structures, the paths do not start behind theirs, and `msg_size` has
    at most 32 bits. -/
structure Kernel where
  source : ℕ → Option Source
  opOpen : ℕ
  opRename : ℕ
  pathOpLink : ℕ
  pathOpRename : ℕ
  pathOpLock : ℕ
  pathOpUnlock : ℕ
  eventdevHdr : ℕ
  msgSize : Field
  msgSource : Field
  msgUid : Field
  alfEvent : ℕ
  acProcessMessage : ℕ
  acIpcMessage : ℕ
  pgProcMessage : ℕ
  anoubisStatMessage : ℕ
  eventdevReply : ℕ
  eventdevToken : ℕ
  sfsOpenMessage : ℕ
  pathhint : ℕ
  pgOpenMessage : ℕ
  pathbuf : ℕ
  pgOp : Field
  pgFileMessage : ℕ
  pgFilePath : ℕ
  sfsPathMessage : ℕ
  paths : ℕ
  pathOp : Field
  taskCookie : Field
  pathlen0 : Field
  pathlen1 : Field
  msgSize_in : msgSize.off + msgSize.width ≤ eventdevHdr
  msgSource_in : msgSource.off + msgSource.width ≤ eventdevHdr
  pgOp_in : pgOp.off + pgOp.width ≤ pgOpenMessage
  msgUid_in : msgUid.off + msgUid.width ≤ eventdevHdr
  pathOp_in : pathOp.off + pathOp.width ≤ sfsPathMessage
  taskCookie_in : taskCookie.off + taskCookie.width ≤ sfsPathMessage
  pathlen0_in : pathlen0.off + pathlen0.width ≤ sfsPathMessage
  pathlen1_in : pathlen1.off + pathlen1.width ≤ sfsPathMessage
  paths_in : paths ≤ sfsPathMessage
  msgSize_width : msgSize.width ≤ 4

/-! ### Memory -/

/-- A number in the byte order of the machine. -/
def host (m : Bytes) (off width : ℕ) : ℕ := ((m.drop off).take width).foldr (fun b n => b.toNat + 256 * n) 0

/-- A field of the message in the byte order of the machine. -/
def readHost (m : Bytes) (off width : ℕ) : Option ℕ :=
  if off + width ≤ m.length then some (host m off width) else none

/-- Conversion to a short. -/
def short (n : ℤ) : ℤ := n.bmod 65536

/-! ### The macros -/

/-- The buffer B, its length L and `__local_size`. -/
structure Cur where
  buf : ℕ
  len : ℤ
  size : ℤ
  deriving DecidableEq

/-- SIZE_LIMIT. -/
def sizeLimit : ℤ := 50000

/-- CHECK_SIZE. -/
def checkSize (v : ℤ) : Walk Cur ℤ Unit :=
  if int v < 0 ∨ int v > sizeLimit then leave (-1) else pure ()

/-- CHECK_LEN. -/
def checkLen (v l : ℤ) : Walk Cur ℤ Unit := do
  checkSize v
  checkSize l
  if int v > int l then leave (-1) else pure ()

/-- RETURN_SIZE. -/
def returnSize : Walk Cur ℤ ℤ := do
  let c ← get
  checkSize c.size
  pure c.size

/-- ADD_SIZE. -/
def addSize (v : ℤ) : Walk Cur ℤ Unit := do
  checkSize v
  let c ← get
  set { c with size := c.size + int v }
  checkSize (c.size + int v)

/-- CAST, for a structure of `size` bytes. -/
def castTo (size : ℕ) : Walk Cur ℤ Unit := do
  let c ← get
  if (size : ℤ) > c.len then leave (-1) else pure ()

/-- SHIFT_FIELD, for the structure at `msg` and a field at the offset `off` of it. -/
def shiftField (msg off : ℕ) : Walk Cur ℤ Unit := do
  let c ← get
  if c.len ≤ 0 ∨ msg ≠ c.buf then leave (-1)
  else if c.len < off then leave (-1)
  else do
    set { c with buf := msg + off, len := c.len - off }
    addSize off

/-- SHIFT_CNT. -/
def shiftCnt (cnt : ℤ) : Walk Cur ℤ Unit := do
  let c ← get
  if int cnt < 0 ∨ c.len < int cnt then leave (-1)
  else do
    set { c with buf := c.buf + (int cnt).toNat, len := c.len - int cnt }
    addSize (int cnt)

/-- POP_CNT. -/
def popCnt (cnt : ℤ) : Walk Cur ℤ Unit := do
  let c ← get
  if int cnt < 0 ∨ c.len < int cnt then leave (-1)
  else do
    set { c with len := c.len - int cnt }
    addSize (int cnt)

/-- The search for the last NUL byte in CHECK_STRING and STRINGS. -/
def lastNul (m : Bytes) (b : ℕ) (l : ℤ) : Walk Cur ℤ ℕ :=
  if l < 1 ∨ l ≥ sizeLimit then leave (-1)
  else do
    match ← peek (scanBack m b l.toNat) with
    | none => leave (-1)
    | some i => pure i

/-- CHECK_STRING. -/
def checkString (m : Bytes) (b : ℕ) (l : ℤ) : Walk Cur ℤ Unit := do
  let _ ← lastNul m b l
  pure ()

/-- STRINGS, for the whole buffer. -/
def strings (m : Bytes) : Walk Cur ℤ Unit := do
  let c ← get
  let i ← lastNul m c.buf c.len
  addSize (i + 1)

/-- SHIFT_STRING. -/
def shiftString (m : Bytes) : Walk Cur ℤ Unit := do
  let c ← get
  if c.len < 1 ∨ c.len ≥ sizeLimit then leave (-1)
  else do
    match ← peek (scan m c.buf c.len.toNat) with
    | none => leave (-1)
    | some p => do
      set { c with buf := p + 1, len := c.len - (p - c.buf + 1 : ℕ) }
      addSize (p - c.buf + 1 : ℕ)

/-- VARIANT. -/
def variant (sizeFn : Walk Cur ℤ ℤ) : Walk Cur ℤ Unit := do
  let c ← get
  let tmp ← call sizeFn ⟨c.buf, c.len, 0⟩
  addSize tmp

/-- DEFINE_CHECK_FUNCTION. -/
def checkFunction (size : ℕ) : Walk Cur ℤ ℤ := do
  let c ← get
  if c.len < size then leave (-1) else pure size

/-- DEFINE_STRING_CHECK_FUNCTION, for a string at the offset `field`. -/
def stringCheckFunction (m : Bytes) (size field : ℕ) : Walk Cur ℤ ℤ := do
  castTo size
  let c ← get
  shiftField c.buf field
  shiftString m
  returnSize

/-- DEFINE_LEN_CHECK_FUNCTION, for the length that `len` reads from the structure. -/
def lenCheckFunction (size field : ℕ) (len : ℕ → Option ℤ) : Walk Cur ℤ ℤ := do
  castTo size
  let msg ← get
  shiftField msg.buf field
  let c ← get
  let len ← peek (len msg.buf)
  checkLen len c.len
  addSize len
  returnSize

/-! ### Checksum operations -/

/-- `amsg_csmulti_request_record_size`. -/
def amsgCsmultiRequestRecordSize (m : Bytes) : Walk Cur ℤ ℤ := do
  castTo 8
  let r ← get
  shiftField r.buf 8
  let cslen ← peek (readU16 m (r.buf + 6))
  shiftCnt cslen
  shiftString m
  returnSize

/-- The loop of `amsg_sfs_checksumop_size` over the records. -/
def csmultiRecords (m : Bytes) : ℕ → Walk Cur ℤ Unit
  | 0 => peek none
  | fuel + 1 => do
    castTo 8
    let c ← get
    let reclen := int (← peek (readU32 m c.buf))
    if reclen = 0 then pure ()
    else if reclen > c.len then leave (-1)
    else do
      let reallen ← call (amsgCsmultiRequestRecordSize m) ⟨c.buf, reclen, 0⟩
      if reallen < 0 ∨ reallen > reclen then leave (-1)
      else do
        shiftCnt reclen
        csmultiRecords m fuel

/-- ANOUBIS_P_CSMULTIREQUEST. -/
def csmultirequest : ℕ := 0x3110

/-- SHA256_DIGEST_LENGTH. -/
def sha256DigestLength : ℕ := 32

/-- `amsg_sfs_checksumop_size` for an Anoubis_CSMultiRequestMessage. -/
def csmultiSize (m : Bytes) : Walk Cur ℤ Unit := do
  castTo 16
  let req ← get
  let recoff ← peek (readU16 m (req.buf + 14))
  let idlen ← peek (readU16 m (req.buf + 12))
  shiftField req.buf 16
  if recoff < idlen then leave (-1)
  else do
    shiftCnt recoff
    csmultiRecords m (m.length + 1)
    shiftCnt 8

/-- `amsg_sfs_checksumop_size` for the other requests, with and without a checksum. -/
def csumrequestSize (m : Bytes) : Walk Cur ℤ Unit := do
  castTo 18
  let msg ← get
  let op ← peek (readU32 m (msg.buf + 4))
  if op = opAddsum ∨ op = opAddsig then do
    castTo 20
    let cslen ← peek (readU16 m (msg.buf + 18))
    if cslen < sha256DigestLength then leave (-1)
    else do
      shiftField msg.buf 20
      let idlen ← peek (readU16 m (msg.buf + 16))
      shiftCnt idlen
      shiftCnt cslen
      shiftString m
  else do
    shiftField msg.buf 18
    let idlen ← peek (readU16 m (msg.buf + 16))
    shiftCnt idlen
    shiftCnt 0
    shiftString m

/-- `amsg_sfs_checksumop_size`. -/
def amsgSfsChecksumopSize (m : Bytes) : Walk Cur ℤ ℤ := do
  popCnt csumLen
  castTo 4
  let c ← get
  let type ← peek (readU32 m c.buf)
  if type = csmultirequest then csmultiSize m else csumrequestSize m
  returnSize

/-- struct anoubisd_msg_csumop. -/
def csumopSize (m : Bytes) : Walk Cur ℤ ℤ := do
  castTo 16
  let msg ← get
  shiftField msg.buf 14
  let len := short (← peek (readHost m (msg.buf + 12) 2))
  addSize len
  let c ← get
  let sfsoplen ← call (amsgSfsChecksumopSize m) ⟨c.buf, c.len, 0⟩
  if sfsoplen < 0 ∨ sfsoplen > len ∨ sfsoplen > c.len then leave (-1)
  else returnSize

/-- struct anoubisd_msg_csumreply. -/
def csumreplySize (m : Bytes) : Walk Cur ℤ ℤ :=
  lenCheckFunction 24 18 fun msg => (readHost m (msg + 16) 2).map fun n => short n

/-- struct anoubisd_msg_listreply. -/
def listreplySize (m : Bytes) : Walk Cur ℤ ℤ :=
  lenCheckFunction 16 16 fun msg => (readHost m (msg + 12) 4).map fun n => (n : ℤ)

/-- struct anoubisd_msg_pgcommit. -/
def pgcommitSize (m : Bytes) : Walk Cur ℤ ℤ := stringCheckFunction m 40 37

/-- struct anoubisd_msg_pgcommit_reply. -/
def pgcommitReplySize (m : Bytes) : Walk Cur ℤ ℤ :=
  lenCheckFunction 16 16 fun msg => (readHost m (msg + 8) 4).map fun n => (n : ℤ)

/-! ### Policy requests -/

/-- `verify_polrequest`, for the fields of a Policy_Generic. -/
def verifyPolrequest (m : Bytes) (flags : ℕ) : Walk Cur ℤ ℤ := do
  if flags % 2 = 0 then pure 0
  else do
    castTo 4
    let c ← get
    let ptype ← peek (readU32 m c.buf)
    if ptype = 0x100 then do
      castTo 12
      pure 0
    else if ptype = 0x101 then do
      castTo 14
      pure 0
    else leave (-1)

/-- struct anoubisd_msg_polrequest. -/
def polrequestSize (m : Bytes) : Walk Cur ℤ ℤ := do
  castTo 24
  let req ← get
  shiftField req.buf 18
  let c ← get
  let len ← peek (readHost m (req.buf + 16) 2)
  checkLen len c.len
  addSize len
  let flags ← peek (readHost m (req.buf + 12) 4)
  let ret ← call (verifyPolrequest m flags) ⟨c.buf, len, 0⟩
  if ret < 0 then leave (-1) else returnSize

/-- struct anoubisd_msg_polreply. -/
def polreplySize (m : Bytes) : Walk Cur ℤ ℤ := csumreplySize m

/-! ### Events -/

variable (K : Kernel)

/-- A field of a structure of the kernel at `base`. -/
def readField (m : Bytes) (base : ℕ) (f : Field) : Option ℕ := readHost m (base + f.off) f.width

/-- `pg_open_message_size`. -/
def pgOpenMessageSize (m : Bytes) : Walk Cur ℤ ℤ := do
  castTo K.pgOpenMessage
  let pg ← get
  shiftField pg.buf K.pathbuf
  shiftString m
  let op ← peek (readField m pg.buf K.pgOp)
  if op = K.opOpen then returnSize
  else if op = K.opRename then do
    shiftString m
    returnSize
  else leave (-1)

/-- `pg_file_message_size`. -/
def pgFileMessageSize (m : Bytes) : Walk Cur ℤ ℤ := do
  castTo K.pgFileMessage
  let pg ← get
  shiftField pg.buf K.pgFilePath
  shiftString m
  shiftString m
  returnSize

/-- `sfs_path_message_size`. -/
def sfsPathMessageSize (m : Bytes) : Walk Cur ℤ ℤ := do
  castTo K.sfsPathMessage
  let msg ← get
  shiftField msg.buf K.paths
  let pathlen0 ← peek (readField m msg.buf K.pathlen0)
  if pathlen0 ≠ 0 then shiftString m else pure ()
  let pathlen1 ← peek (readField m msg.buf K.pathlen1)
  if pathlen1 ≠ 0 then shiftString m else pure ()
  returnSize

/-- `anoubis_stat_message_size`. -/
def anoubisStatMessageSize : Walk Cur ℤ ℤ := do
  castTo K.anoubisStatMessage
  let c ← get
  pure c.len

/-- The cases of `eventdev_hdr_size`. -/
def eventSize (m : Bytes) : Source → Walk Cur ℤ ℤ
  | .alf => checkFunction K.alfEvent
  | .sandbox | .sfs | .sfsexec => stringCheckFunction m K.sfsOpenMessage K.pathhint
  | .sfspath => sfsPathMessageSize K m
  | .process => checkFunction K.acProcessMessage
  | .stat => anoubisStatMessageSize K
  | .ipc => checkFunction K.acIpcMessage
  | .playground => pgOpenMessageSize K m
  | .playgroundproc => checkFunction K.pgProcMessage
  | .playgroundfile => pgFileMessageSize K m

/-- `eventdev_hdr_size`. -/
def eventdevHdrSize (m : Bytes) : Walk Cur ℤ ℤ := do
  castTo K.eventdevHdr
  let hdr ← get
  let msgSize ← peek (readField m hdr.buf K.msgSize)
  checkLen msgSize hdr.len
  checkSize msgSize
  shiftCnt K.eventdevHdr
  let source ← peek (readField m hdr.buf K.msgSource)
  match K.source source with
  | none => leave (-2)
  | some s => do
    variant (eventSize K m s)
    let c ← get
    if c.size > msgSize then leave (if c.size ≤ 0 then -3 else -c.size)
    else if c.size + 8 < msgSize then leave (if c.size ≤ 0 then -4 else -(c.size + 100000))
    else pure msgSize

/-- The regions of a `struct anoubisd_msg_eventask`: offset and length, at the offset `field` of it. -/
def eventaskFields : List ℕ := [20, 24, 28, 32, 36]

/-- ADDOFFSET, for all regions. -/
def addOffsets (m : Bytes) (msg : ℕ) : List ℕ → Walk Cur ℤ (List (ℕ × ℕ))
  | [] => pure []
  | field :: fields => do
    let off ← peek (readHost m (msg + field) 2)
    let len ← peek (readHost m (msg + field + 2) 2)
    checkSize off
    checkSize len
    let offs ← addOffsets m msg fields
    pure ((off, len) :: offs)

/-- The loops over the regions: the end of the last one, or -1 where two overlap. -/
def regionsTotal : List (ℕ × ℕ) → List (ℕ × ℕ) → ℕ → Walk Cur ℤ ℕ
  | _, [], total => pure total
  | before, (s1, len) :: offs, total =>
    if len = 0 then regionsTotal (before ++ [(s1, len)]) offs total
    else if before.any (fun r => r.2 != 0 && decide (r.1 < s1 + len) && decide (s1 < r.1 + r.2)) then leave (-1)
    else regionsTotal (before ++ [(s1, len)]) offs (max total (s1 + len))

/-- struct anoubisd_msg_eventask. -/
def eventaskSize (m : Bytes) : Walk Cur ℤ ℤ := do
  castTo 40
  let msg ← get
  let offs ← addOffsets m msg.buf eventaskFields
  let total ← regionsTotal [] offs 0
  shiftField msg.buf 40
  let c ← get
  if (total : ℤ) > c.len then leave (-1)
  else do
    addSize total
    let pathlen ← peek (readHost m (msg.buf + 26) 2)
    let pathoff ← peek (readHost m (msg.buf + 24) 2)
    if pathlen ≠ 0 then checkString m (c.buf + pathoff) pathlen else pure ()
    let ctxpathlen ← peek (readHost m (msg.buf + 34) 2)
    let ctxpathoff ← peek (readHost m (msg.buf + 32) 2)
    if ctxpathlen ≠ 0 then checkString m (c.buf + ctxpathoff) ctxpathlen else pure ()
    let evlen ← peek (readHost m (msg.buf + 38) 2)
    let evoff ← peek (readHost m (msg.buf + 36) 2)
    if evlen ≠ 0 then do
      let size ← call (eventdevHdrSize K m) ⟨c.buf + evoff, evlen, 0⟩
      checkSize size
    else pure ()
    returnSize

/-! ### Other messages -/

/-- struct anoubisd_msg_pgchange. -/
def pgchangeSize (m : Bytes) : Walk Cur ℤ ℤ := stringCheckFunction m 24 20

/-- struct anoubisd_sfscache_invalidate. -/
def sfscacheInvalidateSize (m : Bytes) : Walk Cur ℤ ℤ := do
  castTo 12
  let msg ← get
  shiftField msg.buf 12
  let c ← get
  let plen ← peek (readHost m (msg.buf + 4) 4)
  checkLen plen c.len
  checkString m c.buf plen
  shiftCnt plen
  let keylen ← peek (readHost m (msg.buf + 8) 4)
  if keylen ≠ 0 then do
    let c ← get
    checkLen keylen c.len
    strings m
  else pure ()
  returnSize

/-- ANOUBISD_UPGRADE_*. -/
def upgradeChunk : ℕ := 3
def upgradeOk : ℕ := 4
def upgradeNotify : ℕ := 5

/-- The part of a struct anoubisd_msg_upgrade that its type asks for. -/
def upgradePart (m : Bytes) (upgradetype chunksize : ℕ) : Walk Cur ℤ Unit :=
  if upgradetype = upgradeOk then if chunksize ≠ 1 then leave (-1) else addSize chunksize
  else if upgradetype = upgradeNotify then pure ()
  else if upgradetype = upgradeChunk then if chunksize ≠ 0 then strings m else pure ()
  else if chunksize ≠ 0 then leave (-1)
  else pure ()

/-- struct anoubisd_msg_upgrade. -/
def upgradeSize (m : Bytes) : Walk Cur ℤ ℤ := do
  castTo 8
  let msg ← get
  shiftField msg.buf 8
  let c ← get
  let upgradetype ← peek (readHost m msg.buf 4)
  let chunksize ← peek (readHost m (msg.buf + 4) 4)
  if upgradetype ≠ upgradeNotify then checkLen chunksize c.len else pure ()
  upgradePart m upgradetype chunksize
  returnSize

/-- struct anoubisd_sfs_update_all. -/
def sfsUpdateAllSize (m : Bytes) : Walk Cur ℤ ℤ := do
  castTo 4
  let msg ← get
  shiftField msg.buf 4
  let cslen ← peek (readHost m msg.buf 4)
  shiftCnt cslen
  strings m
  returnSize

/-- So many strings, one behind the other. -/
def shiftStrings (m : Bytes) : ℕ → Walk Cur ℤ Unit
  | 0 => pure ()
  | n + 1 => do
    shiftString m
    shiftStrings m n

/-- struct anoubisd_msg_config. -/
def configSize (m : Bytes) : Walk Cur ℤ ℤ := do
  castTo 12
  let msg ← get
  shiftField msg.buf 9
  shiftString m
  let triggercount ← peek (readHost m msg.buf 4)
  if (triggercount : ℤ) > sizeLimit then leave (-1)
  else do
    shiftStrings m triggercount
    returnSize

/-- struct anoubisd_msg_logit. -/
def logitSize (m : Bytes) : Walk Cur ℤ ℤ := do
  castTo 4
  let msg ← get
  shiftField msg.buf 4
  strings m
  returnSize

/-- struct anoubisd_msg_passphrase: it has no fields. -/
def passphraseSize (m : Bytes) : Walk Cur ℤ ℤ := stringCheckFunction m 0 0

/-- Two parts behind a structure, with their lengths at the offsets `a` and `b`. -/
def partsSize (m : Bytes) (size payload a b : ℕ) : Walk Cur ℤ ℤ := do
  castTo size
  let msg ← get
  shiftField msg.buf payload
  let alen ← peek (readHost m (msg.buf + a) 4)
  let blen ← peek (readHost m (msg.buf + b) 4)
  checkSize alen
  checkSize blen
  shiftCnt alen
  shiftCnt blen
  returnSize

/-- struct anoubisd_msg_authchallenge. -/
def authchallengeSize (m : Bytes) : Walk Cur ℤ ℤ := partsSize m 24 24 16 20

/-- struct anoubisd_msg_authverify. -/
def authverifySize (m : Bytes) : Walk Cur ℤ ℤ := partsSize m 24 20 12 16

/-! ### All messages -/

/-- ANOUBISD_MSG_*, in the order of `enum anoubisd_msg_type`. -/
inductive MsgType where
  | polrequest | polrequestAbort | polreply | checksumreply | eventdev | logrequest | eventreply | eventcancel
  | checksumOp | eventask | policychange | pgchange | sfscacheInvalidate | upgrade | sfsUpdateAll | config
  | logit | passphrase | authRequest | authChallenge | authVerify | authResult | csmultirequest | csmultireply
  | listrequest | listreply | pgcommit | pgcommitReply | pgunlink | pgunlinkReply
  deriving DecidableEq

def msgTypes : List MsgType :=
  [.polrequest, .polrequestAbort, .polreply, .checksumreply, .eventdev, .logrequest, .eventreply, .eventcancel,
   .checksumOp, .eventask, .policychange, .pgchange, .sfscacheInvalidate, .upgrade, .sfsUpdateAll, .config,
   .logit, .passphrase, .authRequest, .authChallenge, .authVerify, .authResult, .csmultirequest, .csmultireply,
   .listrequest, .listreply, .pgcommit, .pgcommitReply, .pgunlink, .pgunlinkReply]

/-- The cases of `anoubisd_msg_size`. -/
def caseSize (m : Bytes) : MsgType → Walk Cur ℤ ℤ
  | .polrequest => polrequestSize m
  | .polrequestAbort => checkFunction 8
  | .polreply => polreplySize m
  | .checksumOp | .csmultirequest => csumopSize m
  | .checksumreply | .csmultireply => csumreplySize m
  | .eventdev => eventdevHdrSize K m
  | .logrequest | .eventask => eventaskSize K m
  | .eventreply => checkFunction K.eventdevReply
  | .eventcancel => checkFunction K.eventdevToken
  | .policychange => checkFunction 8
  | .pgchange => pgchangeSize m
  | .sfscacheInvalidate => sfscacheInvalidateSize m
  | .upgrade => upgradeSize m
  | .sfsUpdateAll => sfsUpdateAllSize m
  | .config => configSize m
  | .logit => logitSize m
  | .passphrase => passphraseSize m
  | .authRequest => checkFunction 16
  | .authChallenge => authchallengeSize m
  | .authVerify => authverifySize m
  | .authResult => checkFunction 16
  | .listrequest => checkFunction 24
  | .listreply => listreplySize m
  | .pgcommit => pgcommitSize m
  | .pgcommitReply => pgcommitReplySize m
  | .pgunlink => checkFunction 40
  | .pgunlinkReply => checkFunction 16

/-- `anoubisd_msg_size`, up to the call. -/
def msgWalk (m : Bytes) : Walk Cur ℤ ℤ := do
  castTo 8
  let msg ← get
  shiftField msg.buf 8
  let mtype ← peek (readHost m (msg.buf + 4) 4)
  match msgTypes[mtype]? with
  | none => leave (-1)
  | some t => do
    variant (caseSize K m t)
    returnSize

/-- `anoubisd_msg_size` for the whole message; `none` is a read outside of it. -/
def anoubisdMsgSize (m : Bytes) : Option ℤ := result (msgWalk K m) ⟨0, m.length, 0⟩

/-- `__amsg_verify`: the size of the message is at most that of its buffer. -/
def accepted (m : Bytes) : Prop := ∃ r, anoubisdMsgSize K m = some r ∧ 0 ≤ r ∧ r ≤ m.length

end Anoubis.Daemon.Sizes

import Anoubis.Lib.Checked
import Anoubis.Pe.State
import Anoubis.Proto.Server

/-! Verification of client messages (`anoubis_msg_verify.c`, the macros of `anoubis_msg.h`).

    A message is its buffer: the field `length` is the length of the list, its last four bytes are the
    checksum. Every field of the message is read through `readU16` or `readU32`, which fail outside of the
    buffer. Records are walked with the arithmetic of the code, in 32 bits:

        header │ key id │ record │ record │ … │ empty record │ checksum
               0        recoff   recoff + length              L - 4        -/

namespace Anoubis.MsgVerify

open Anoubis.Lib
open Anoubis.Connection (Bytes u16 u32 csumLen)
open Anoubis.Pe (csLen)

/-- ANOUBIS_MESSAGE_MAXLEN. -/
def messageMaxlen : ℕ := 100000

/-- Conversion to an unsigned int. -/
def uint (z : ℤ) : ℕ := (z % 4294967296).toNat

/-- Conversion to an int. -/
def int (z : ℤ) : ℤ := z.bmod 4294967296

/-- `get_value` of an u32n in the message. -/
def readU32 (m : Bytes) (off : ℕ) : Option ℕ := if off + 4 ≤ m.length then some (u32 m off) else none

/-- `get_value` of an u16n in the message. -/
def readU16 (m : Bytes) (off : ℕ) : Option ℕ := if off + 2 ≤ m.length then some (u16 m off) else none

/-! ### The macros -/

/-- VERIFY_FIELD, for a field that ends at `fin`. -/
def verifyField (m : Bytes) (fin : ℕ) : Bool := decide (fin + csumLen ≤ m.length)

/-- VERIFY_LENGTH. -/
def verifyLength (m : Bytes) (len : ℤ) : Bool :=
  decide (0 ≤ int len ∧ int len ≤ messageMaxlen ∧ uint (uint len + csumLen) ≤ m.length)

/-- VERIFY_BUFFER, for an array at the offset `base`. -/
def verifyBuffer (m : Bytes) (base : ℕ) (start len : ℤ) : Bool :=
  let soff := uint start
  let fin := uint (soff + uint len)
  decide (soff ≤ fin ∧ fin ≤ messageMaxlen ∧ verifyLength m (uint (base + fin)) = true)

/-- PAYLOAD_LEN, for an array at the offset `base`. -/
def payloadLen (m : Bytes) (base : ℕ) : ℤ :=
  if verifyLength m base then int (m.length - base - csumLen) else 0

/-- `buffer_strlen`, for the bytes from the offset `off` on. -/
def bufferStrlen (m : Bytes) (off : ℕ) (buflen : ℤ) : Option ℤ :=
  (scan m off buflen.toNat).map fun r => match r with
    | some p => (p : ℤ) - off
    | none => buflen

/-- strlen: it reads on to the first NUL byte. -/
def strlen (m : Bytes) (off : ℕ) : Option ℕ :=
  (scan m off (m.length + 1)).map fun r => r.getD 0 - off

/-- DEFINE_CHECK_FUNCTION. -/
def checkFunction (size : ℕ) (m : Bytes) : Check := some (verifyLength m size)

/-- DEFINE_STRICT_CHECK_FUNCTION. -/
def strictCheckFunction (size : ℕ) (m : Bytes) : Check :=
  some (verifyLength m size && !verifyLength m (8 + size))

/-! ### Messages of the protocol connect -/

/-- Anoubis_AckPayloadMessage. -/
def verifyReply : Bytes → Check := checkFunction 20

/-- Anoubis_GeneralMessage. -/
def verifyGeneral : Bytes → Check := strictCheckFunction 4

/-- Anoubis_VerselMessage. -/
def verifyVersel : Bytes → Check := strictCheckFunction 8

/-- Anoubis_AuthReplyMessage. -/
def verifyAuthreply : Bytes → Check := strictCheckFunction 12

/-- Anoubis_StringListMessage. -/
def verifyStringlist : Bytes → Check := checkFunction 4

/-- Anoubis_AuthChallengeReplyMessage. -/
def verifyChallengereply (m : Bytes) : Check :=
  need (verifyLength m 20 = true) do
    let ivlen := int (← readU32 m 12)
    let siglen := int (← readU32 m 16)
    need (verifyBuffer m 20 0 ivlen = true) <|
      need (verifyBuffer m 20 ivlen siglen = true) <|
        some (!decide (payloadLen m 20 > ivlen + siglen + 8))

/-- Anoubis_AuthChallengeMessage. -/
def verifyChallenge (m : Bytes) : Check :=
  need (verifyLength m 16 = true) do
    let challengelen := int (← readU32 m 8)
    let idlen := int (← readU32 m 12)
    need (verifyBuffer m 16 0 challengelen = true) <|
      need (verifyBuffer m 16 challengelen idlen = true) <|
        some (!decide (payloadLen m 16 > challengelen + idlen + 8))

/-- Anoubis_AuthTransportMessage, and the messages with other values of `auth_type`. -/
def verifyAuthdata (m : Bytes) : Check :=
  need (verifyLength m 8 = true) do
    let authType ← readU32 m 4
    if authType = 0 ∨ authType = 1 then some true
    else if authType = 2 then verifyChallenge m
    else if authType = 3 then verifyChallengereply m
    else some false

/-! ### Checksum requests -/

/-- ANOUBIS_CHECKSUM_OP_*. -/
def opDel : ℕ := 2
def opAddsum : ℕ := 5
def opAddsig : ℕ := 8
def opDelsig : ℕ := 11
def opGet2 : ℕ := 16
def opGetsig2 : ℕ := 17

/-- The path at the end of a checksum request, behind `used` bytes of a payload that starts at `base`. -/
def verifyPath (m : Bytes) (base : ℕ) (used : ℤ) : Check :=
  let plen := payloadLen m base
  need (¬ used ≥ plen) do
    let plen := plen - used
    let slen ← bufferStrlen m (base + used.toNat) plen
    some (decide (slen < plen ∧ slen + 8 > plen))

/-- Anoubis_ChecksumAddMessage. -/
def verifyCsumaddrequest (m : Bytes) : Check :=
  need (verifyLength m 20 = true) do
    let idlen ← readU16 m 16
    let cslen ← readU16 m 18
    need (cslen ≠ 0) <|
      need (verifyBuffer m 20 0 idlen = true) <|
        need (verifyBuffer m 20 idlen cslen = true) <|
          verifyPath m 20 (idlen + cslen)

/-- Anoubis_ChecksumRequestMessage. -/
def verifyCsumrequest (m : Bytes) : Check :=
  need (verifyLength m 18 = true) do
    let operation ← readU32 m 4
    if operation = opAddsum ∨ operation = opAddsig then verifyCsumaddrequest m
    else do
      let idlen ← readU16 m 16
      need (verifyBuffer m 18 0 idlen = true) <|
        verifyPath m 18 idlen

/-- Anoubis_ChecksumPayloadMessage. -/
def verifyCsumlist : Bytes → Check := checkFunction 12

/-- The loop of `verify_csmultireq` over the records. Behind the empty record the code reads its fields once
    more; the loop over a path ends behind the first NUL byte, or at the end of the record. -/
def csmultireqLoop (m : Bytes) (add : Bool) : ℕ → ℕ → Check
  | 0, _ => none
  | fuel + 1, off =>
    need (verifyBuffer m 16 off 8 = true) do
      let reclen ← readU32 m (16 + off)
      if reclen = 0 then do
        let length ← readU32 m (16 + off)
        let cslen ← readU16 m (16 + off + 6)
        need (¬ (length ≠ 0 ∨ cslen ≠ 0)) <|
          some (!decide (uint (uint (off + 8) + 8) < uint (payloadLen m 16)))
      else do
        let cslen ← readU16 m (16 + off + 6)
        need (¬ (reclen < 8 ∨ verifyBuffer m 16 off reclen = false)) <|
          need (¬ cslen > reclen) <|
            need (add = true ∨ cslen = 0) do
              let skip := if add then cslen else 0
              let reallen := 8 + skip
              need (¬ reallen ≥ reclen) do
                let r ← scan m (16 + off + 8 + skip) (reclen - reallen)
                let reallen := r.elim reclen fun p => reallen + (p - (16 + off + 8 + skip)) + 1
                need (¬ (reallen > reclen ∨ reallen + 8 < reclen)) <|
                  csmultireqLoop m add fuel (uint (off + reclen))

/-- Anoubis_CSMultiRequestMessage. -/
def verifyCsmultireq (m : Bytes) : Check :=
  need (verifyLength m 16 = true) do
    let operation ← readU32 m 4
    let add := decide (operation = opAddsum ∨ operation = opAddsig)
    need (add = true ∨ operation = opGet2 ∨ operation = opGetsig2 ∨ operation = opDel ∨
        operation = opDelsig) do
      let idlen ← readU16 m 12
      let off ← readU16 m 14
      need (¬ (off < idlen ∨ off > idlen + 8)) <|
        need (verifyBuffer m 16 0 off = true) <|
          csmultireqLoop m add (m.length + 1) off

/-- ANOUBIS_SIG_TYPE_*. -/
def sigTypeEot : ℕ := 0
def sigTypeCs : ℕ := 1
def sigTypeSig : ℕ := 2
def sigTypeUpgradecs : ℕ := 3

/-- The loop of `verify_csmultireply` over the entries of a record, for a payload at `base`: `reclen` is
    what is left of the record, and what is left behind the last entry is returned. -/
def csentryLoop (m : Bytes) (base : ℕ) : ℕ → ℕ → ℕ → Option (Option ℕ)
  | 0, _, _ => none
  | fuel + 1, off2, reclen =>
    if reclen < 8 then some none
    else do
      let e := base + off2
      let reclen := reclen - 8
      let off2 := off2 + 8
      let cslen ← readU32 m (e + 4)
      if cslen > reclen then some none
      else do
        let off2 := off2 + cslen
        let reclen := reclen - cslen
        let cstype ← readU32 m e
        if cstype = sigTypeEot then if cslen ≠ 0 then some none else some (some reclen)
        else if cstype = sigTypeCs ∨ cstype = sigTypeSig ∨ cstype = sigTypeUpgradecs then
          csentryLoop m base fuel off2 reclen
        else some none

/-- The loop of `verify_csmultireply` over the records, and the check of the sentinel. -/
def csmultireplyLoop (m : Bytes) (get : Bool) : ℕ → ℕ → Check
  | 0, _ => none
  | fuel + 1, off =>
    need (verifyBuffer m 12 off 8 = true) do
      let reclen ← readU16 m (12 + off)
      if reclen = 0 then do
        let error ← readU32 m (12 + off + 4)
        let index ← readU16 m (12 + off + 2)
        need (¬ (error ≠ 0 ∨ index ≠ 0)) <|
          some (!decide (uint (uint (off + 8) + 8) < uint (payloadLen m 16)))
      else
        need (¬ (reclen < 8 ∨ verifyBuffer m 12 off reclen = false)) do
          let next := uint (off + reclen)
          let error ← readU32 m (12 + off + 4)
          if get = false ∨ error ≠ 0 then
            need (¬ reclen > 8 + 8) <| csmultireplyLoop m get fuel next
          else do
            match ← csentryLoop m (12 + off + 8) (reclen + 1) 0 (reclen - 8) with
            | none => some false
            | some left => need (¬ left > 8) <| csmultireplyLoop m get fuel next

/-- Anoubis_CSMultiReplyMessage. -/
def verifyCsmultireply (m : Bytes) : Check :=
  need (verifyLength m 12 = true) do
    let plen := uint (payloadLen m 12)
    let operation ← readU32 m 4
    let get := decide (operation = opGet2 ∨ operation = opGetsig2)
    need (get = true ∨ operation = opAddsum ∨ operation = opAddsig ∨ operation = opDel ∨
        operation = opDelsig) do
      let error ← readU32 m 8
      if error ≠ 0 then some (decide (plen < 8))
      else csmultireplyLoop m get (m.length + 1) 0

/-! ### Other messages of the protocol policy -/

/-- Anoubis_PassphraseMessage. -/
def verifyPassphrase (m : Bytes) : Check :=
  need (verifyLength m 4 = true) do
    let plen := payloadLen m 4
    let len ← bufferStrlen m 4 plen
    some (decide (len < plen ∧ len + 8 > plen))

/-- Anoubis_PolicyRequestMessage. -/
def verifyPolrequest : Bytes → Check := checkFunction 8

/-- Anoubis_PolicyReplyMessage. -/
def verifyPolreply : Bytes → Check := checkFunction 12

/-- Anoubis_VersionMessage. -/
def verifyVersion : Bytes → Check := strictCheckFunction 16

/-- Anoubis_ListRequestMessage. -/
def verifyPgrequest : Bytes → Check := checkFunction 16

/-- Anoubis_PgCommitMessage. -/
def verifyPgcommit (m : Bytes) : Check :=
  need (verifyLength m 17 = true) do
    let r ← scan m 17 (payloadLen m 17).toNat
    some r.isSome

/-- Anoubis_PgUnlinkMessage. -/
def verifyPgunlink : Bytes → Check := checkFunction 32

/-- ANOUBIS_REC_*. -/
def recPglist : ℕ := 1
def recPgfilelist : ℕ := 2
def recProclist : ℕ := 3

/-- `verify_pginfo_record` and `verify_pgfile_record`: both structures have 32 bytes, and the path behind
    them ends in the record. -/
def verifyPathRecord (m : Bytes) (r reclen : ℕ) : Check :=
  (scan m (r + 32) (reclen - 32)).map Option.isSome

def verifyPginfoRecord : Bytes → ℕ → ℕ → Check := verifyPathRecord

def verifyPgfileRecord : Bytes → ℕ → ℕ → Check := verifyPathRecord

/-- The loop of `verify_proc_record` over the contexts. The loop over a path runs up to `payload[reclen]`. -/
def contextLoop (m : Bytes) (payload reclen : ℕ) : ℕ → ℕ → Check
  | 0, _ => some true
  | n + 1, off =>
    if reclen < off + csLen then some false
    else do
      let off := off + csLen
      match ← scan m (payload + off) (reclen - off) with
      | none => some false
      | some p => contextLoop m payload reclen n (p - payload + 1)

/-- sizeof(Anoubis_ProcRecord). -/
def procRecord : ℕ := 53

def verifyProcRecord (m : Bytes) (r reclen : ℕ) : Check :=
  if int reclen < procRecord then some false
  else contextLoop m (r + procRecord) reclen 3 0

/-- A record of a list reply, for a structure of `size` bytes: its length, if `verify` accepts it. -/
def listRecord (m : Bytes) (size : ℕ) (verify : Bytes → ℕ → ℕ → Check) (off : ℕ) : Option (Option ℕ) :=
  if verifyBuffer m 16 off size = false then some none
  else do
    let reclen ← readU32 m (16 + off)
    if reclen < size then some none
    else if verifyBuffer m 16 off reclen = false then some none
    else do
      let ok ← verify m (16 + off) reclen
      some (if ok then some reclen else none)

/-- The loop of `verify_listreply`, one round. -/
def listRound (m : Bytes) (rectype off : ℕ) : Option (Option ℕ) :=
  if rectype = recPglist then listRecord m 32 verifyPginfoRecord off
  else if rectype = recPgfilelist then listRecord m 32 verifyPgfileRecord off
  else if rectype = recProclist then listRecord m procRecord verifyProcRecord off
  else some none

/-- The loop of `verify_listreply`. -/
def listreplyLoop (m : Bytes) (rectype : ℕ) : ℕ → ℕ → Check
  | 0, _ => some true
  | nrec + 1, off => do
    match ← listRound m rectype off with
    | none => some false
    | some reclen => listreplyLoop m rectype nrec (off + reclen)

/-- Anoubis_ListMessage. -/
def verifyListreply (m : Bytes) : Check :=
  need (verifyLength m 16 = true) do
    let error ← readU32 m 8
    if error ≠ 0 then some true
    else do
      let nrec ← readU16 m 12
      let rectype ← readU16 m 14
      listreplyLoop m rectype nrec 0

/-! ### Messages of the protocol notify -/

/-- Anoubis_NotifyRegMessage. -/
def verifyRegister : Bytes → Check := strictCheckFunction 24

/-- VERIFY_NOTIFYBUFFER, for the fields at `off` and behind. -/
def verifyNotifybuffer (m : Bytes) (field : ℕ) : Check := do
  let off ← readU16 m field
  let len ← readU16 m (field + 2)
  some (verifyBuffer m 72 off len)

/-- `verify_notify_string`. -/
def verifyNotifyString (m : Bytes) (off len : ℕ) : Check :=
  if len = 0 then some true
  else do
    let slen ← bufferStrlen m (72 + off) len
    some (decide (slen < len))

/-- VERIFY_NOTIFYSTRING. -/
def verifyNotifystring (m : Bytes) (field : ℕ) : Check := do
  let ok ← verifyNotifybuffer m field
  need (ok = true) do
    let off ← readU16 m field
    let len ← readU16 m (field + 2)
    verifyNotifyString m off len

/-- Anoubis_NotifyMessage. -/
def verifyNotify (m : Bytes) : Check :=
  need (verifyLength m 72 = true) do
    let csum ← verifyNotifybuffer m 52
    need (csum = true) do
      let path ← verifyNotifystring m 56
      need (path = true) do
        let ctxcsum ← verifyNotifybuffer m 60
        need (ctxcsum = true) do
          let ctxpath ← verifyNotifystring m 64
          need (ctxpath = true) do
            let ev ← verifyNotifybuffer m 68
            some ev

/-- Anoubis_NotifyResultMessage. -/
def verifyNotifyresult : Bytes → Check := strictCheckFunction 20

/-- Anoubis_PolicyChangeMessage. -/
def verifyPolicychange : Bytes → Check := strictCheckFunction 12

/-- Anoubis_PgChangeMessage. -/
def verifyPgchange (m : Bytes) : Check :=
  need (verifyLength m 20 = true) do
    let len ← strlen m 20
    some (decide (len ≠ 0))

/-- Anoubis_StatusNotifyMessage. -/
def verifyStatusnotify : Bytes → Check := strictCheckFunction 12

/-! ### All messages -/

/-- The message types ANOUBIS_C_*, ANOUBIS_P_* and ANOUBIS_N_*. -/
inductive MsgType where
  | reply
  | hello | versel | auth | authdata | authreply | optreq | optack | protosel | closereq | closeack
  | csumrequest | csumList | csmultirequest | csmultireply | passphrase | request | policyReply | version
  | versionreply | listreq | listrep | pgcommit | pgunlink
  | register | unregister | ask | delegate | resyou | resother | notify | lognotify | policychange | pgchange
  | statusnotify
  deriving DecidableEq

/-- The types and their numbers. -/
def msgTypes : List (ℕ × MsgType) :=
  [(0x1000, .reply), (0x2000, .hello), (0x2001, .versel), (0x2010, .auth), (0x2011, .authdata),
   (0x2012, .authreply), (0x2020, .optreq), (0x2021, .optack), (0x2022, .protosel), (0x2030, .closereq),
   (0x2031, .closeack), (0x3100, .csumrequest), (0x3101, .csumList), (0x3110, .csmultirequest),
   (0x3111, .csmultireply), (0x3201, .passphrase), (0x3800, .request), (0x3801, .policyReply),
   (0x3900, .version), (0x3901, .versionreply), (0x3A00, .listreq), (0x3A01, .listrep), (0x3A02, .pgcommit),
   (0x3A04, .pgunlink), (0x4000, .register), (0x4001, .unregister), (0x4010, .ask), (0x4011, .delegate),
   (0x4012, .resyou), (0x4013, .resother), (0x4014, .notify), (0x4015, .lognotify), (0x4016, .policychange),
   (0x4018, .pgchange), (0x4017, .statusnotify)]

def msgType (type : ℕ) : Option MsgType := (msgTypes.find? (·.1 = type)).map (·.2)

/-- The cases of `anoubis_msg_verify`. -/
def verifyCase : MsgType → Bytes → Check
  | .reply => verifyReply
  | .hello => verifyGeneral
  | .versel => verifyVersel
  | .auth => verifyGeneral
  | .authdata => verifyAuthdata
  | .authreply => verifyAuthreply
  | .optreq => verifyStringlist
  | .optack => verifyStringlist
  | .protosel => verifyStringlist
  | .closereq => verifyGeneral
  | .closeack => verifyGeneral
  | .csumrequest => verifyCsumrequest
  | .csumList => verifyCsumlist
  | .csmultirequest => verifyCsmultireq
  | .csmultireply => verifyCsmultireply
  | .passphrase => verifyPassphrase
  | .request => verifyPolrequest
  | .policyReply => verifyPolreply
  | .version => verifyGeneral
  | .versionreply => verifyVersion
  | .listreq => verifyPgrequest
  | .listrep => verifyListreply
  | .pgcommit => verifyPgcommit
  | .pgunlink => verifyPgunlink
  | .register => verifyRegister
  | .unregister => verifyRegister
  | .ask => verifyNotify
  | .delegate => verifyReply
  | .resyou => verifyNotifyresult
  | .resother => verifyNotifyresult
  | .notify => verifyNotify
  | .lognotify => verifyNotify
  | .policychange => verifyPolicychange
  | .pgchange => verifyPgchange
  | .statusnotify => verifyStatusnotify

/-- `anoubis_msg_verify`. -/
def anoubisMsgVerify (m : Bytes) : Check :=
  need (¬ m.length > messageMaxlen) <|
    need (verifyField m 4 = true) do
      let type ← readU32 m 0
      match msgType type with
      | none => some false
      | some t => verifyCase t m

end Anoubis.MsgVerify

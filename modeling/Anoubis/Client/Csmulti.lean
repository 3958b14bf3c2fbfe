import Anoubis.Proto.VerifySound

/-! Requests for many checksums at once (`anoubis_client.c`).

    A request is a list of records. Each message asks for some of those that are still open, from the record
    `last` on and around the end of the list; the reply answers them by their index.

        reqs   │ 0 │ 1 │ 2 │ 3 │ 4 │      openreqs: how many have the error EAGAIN
                         ▲ last           order: 2 3 4 0 1

    Servers that do not know these messages are asked for one record at a time. A step is `none` where the code
    would leave a buffer, follow a null pointer or not come to an end. -/

namespace Anoubis.Client

open Anoubis.Lib
open Anoubis.Connection (Bytes u16 u32)
open Anoubis.MsgVerify (uint verifyLength payloadLen readU16 readU32 opDel opAddsum opAddsig opDelsig opGet2 opGetsig2
  sigTypeEot sigTypeCs sigTypeSig sigTypeUpgradecs)

def eagain : ℕ := 11
def eproto : ℕ := 71

/-! ### Requests -/

/-- struct anoubis_csmulti_record; a checksum that was read is a place in a message. -/
structure Record where
  path : Bytes
  error : ℕ
  idx : ℕ
  length : ℕ
  csdata : Bytes
  csum : Option (Bytes × ℕ)
  sig : Option (Bytes × ℕ)
  upgrade : Option (Bytes × ℕ)
  deriving DecidableEq

/-- The record waits for an answer. -/
def Record.isOpen (r : Record) : Bool := decide (r.error = eagain)

/-- struct anoubis_csmulti_request; `last` is the position of a record, `client` says whether there is one. -/
structure Request where
  op : ℕ
  nreqs : ℕ
  openreqs : ℕ
  uid : ℕ
  keyid : Option Bytes
  reply : List Bytes
  client : Bool
  last : Option ℕ
  reqs : List Record
  deriving DecidableEq

/-- `idlen`. -/
def Request.idlen (req : Request) : ℕ := (req.keyid.getD []).length

/-- An operation that sends a checksum. -/
def isAdd (op : ℕ) : Bool := decide (op = opAddsig ∨ op = opAddsum)

/-- An operation that reads checksums. -/
def isGet (op : ℕ) : Bool := decide (op = opGet2 ∨ op = opGetsig2)

/-- `csmulti_iterator_first`. -/
def csmultiIteratorFirst (req : Request) : Option ℕ :=
  match req.last with
  | some l => some l
  | none => if req.reqs = [] then none else some 0

/-- `csmulti_iterator_next`. -/
def csmultiIteratorNext (req : Request) (current : ℕ) : Option ℕ :=
  let next := if current + 1 < req.reqs.length then some (current + 1) else none
  if next = req.last then none
  else match next with
    | some n => some n
    | none =>
      let first := if req.reqs = [] then none else some 0
      if first = req.last then none else first

/-- The records of a loop over the request, as long as it leaves `last` alone. -/
def csmultiFrom (req : Request) : ℕ → Option ℕ → List ℕ
  | 0, _ => []
  | _, none => []
  | fuel + 1, some i => i :: csmultiFrom req fuel (csmultiIteratorNext req i)

/-- All records, in the order of the loops. -/
def csmultiOrder (req : Request) : List ℕ := csmultiFrom req req.reqs.length (csmultiIteratorFirst req)

/-- `anoubis_csmulti_create`. -/
def csmultiCreate (op uid : ℕ) (keyid : Option Bytes) : Option Request :=
  let idlen := (keyid.getD []).length
  let new : Request := ⟨op, 0, 0, uid, keyid, [], false, none, []⟩
  if op = opAddsig ∨ op = opGetsig2 ∨ op = opDelsig then
    if uid ≠ 0 ∨ idlen = 0 then none else some new
  else if op = opAddsum ∨ op = opGet2 ∨ op = opDel then
    if keyid.isSome then none else some new
  else none

/-- `anoubis_csmulti_find`, without the update of `last`. -/
def csmultiFind (req : Request) (idx : ℕ) : Option ℕ :=
  (csmultiOrder req).find? fun i => decide ((req.reqs[i]?).map Record.idx = some idx)

/-- The bytes of a record in a request, in 32 bits. -/
def alignedLength (n : ℕ) : ℕ := if uint n % 4 = 0 then uint n else uint (uint n + (4 - uint n % 4))

/-- The checksum data and the operation do not fit. -/
def badData (op : ℕ) (csdata : Option Bytes) : Bool :=
  if isAdd op then decide (csdata.getD [] = []) else csdata.isSome

/-- `anoubis_csmulti_add`, for a path that is not a null pointer. -/
def csmultiAdd (req : Request) (path : Bytes) (csdata : Option Bytes) : ℤ × Request :=
  if badData req.op csdata then (-einval, req)
  else
    let data := csdata.getD []
    let record : Record :=
      ⟨path, eagain, req.nreqs, alignedLength (8 + data.length + (path.length + 1)), data, none, none, none⟩
    (0, { req with nreqs := uint (req.nreqs + 1), openreqs := uint (req.openreqs + 1), reqs := req.reqs ++ [record] })

/-- `anoubis_csmulti_add_error`. -/
def csmultiAddError (req : Request) (path : Bytes) (error : ℕ) : ℤ × Request :=
  if error = eagain then (-einval, req)
  else
    let record : Record := ⟨path, error, req.nreqs, 0, [], none, none, none⟩
    (0, { req with nreqs := uint (req.nreqs + 1), reqs := req.reqs ++ [record] })

/-! ### Messages -/

/-- Anoubis_CSMultiRequestRecord. -/
structure ReqRecord where
  length : ℕ
  index : ℕ
  cslen : ℕ
  csdata : Bytes
  path : Bytes
  deriving DecidableEq

/-- A request message: Anoubis_CSMultiRequestMessage, or the message of `anoubis_client_compat_checksum_msg`. -/
inductive ReqMsg where
  | csmulti (operation uid idlen recoff : ℕ) (keyid : Bytes) (records : List ReqRecord)
  | compat (operation uid : ℕ) (keyid csdata path : Bytes)
  deriving DecidableEq

/-- `anoubis_client_compat_checksum_msg`, for the operations that the caller lets through. -/
def clientCompatChecksumMsg (path : Bytes) (op uid : ℕ) (keyid csdata : Bytes) : Option ReqMsg :=
  let wantsKey := decide (op = opAddsig ∨ op = opDelsig ∨ op = opGetsig2)
  if wantsKey ≠ decide (keyid ≠ []) then none
  else if isAdd op ≠ decide (csdata ≠ []) then none
  else if path = [] then none
  else some (.compat op uid keyid csdata path)

/-- The first step of `__anoubis_csmulti_msg`: the length of the message and the number of its records. -/
def countRecords (limit : ℕ) : List Record → ℕ → ℕ → ℕ × ℕ
  | [], length, nrec => (length, nrec)
  | r :: rs, length, nrec =>
    if r.isOpen = false then countRecords limit rs length nrec
    else if uint (length + r.length) > 8000 then (length, nrec)
    else if nrec + 1 ≥ limit then (uint (length + r.length), nrec + 1)
    else countRecords limit rs (uint (length + r.length)) (nrec + 1)

/-- What stands in a message for a record; index and cslen have 16 bits. -/
def Record.toReq (r : Record) : ReqRecord := ⟨r.length, r.idx % 65536, r.csdata.length % 65536, r.csdata, r.path⟩

/-- The bytes that are written for a record. -/
def Record.written (r : Record) : ℕ := max r.length (8 + r.csdata.length + (r.path.length + 1))

/-- The second step of `__anoubis_csmulti_msg`, for a message of `size` bytes: the records, and the last of
    them. -/
def fillRecords (size : ℕ) : List (ℕ × Record) → ℕ → ℕ → Option (List ReqRecord × Option ℕ)
  | [], recoff, _ => if 16 + recoff + 8 ≤ size then some ([], none) else none
  | (i, r) :: rs, recoff, nrec =>
    if r.isOpen = false then fillRecords size rs recoff nrec
    else if 16 + recoff + r.written > size then none
    else if uint ((nrec : ℤ) - 1) = 0 then
      if 16 + (recoff + r.length) + 8 ≤ size then some ([r.toReq], some i) else none
    else (fillRecords size rs (recoff + r.length) (uint ((nrec : ℤ) - 1))).map fun x => (r.toReq :: x.1, x.2)

/-- The records of a request with their positions, in the order of the loops. -/
def inOrder (req : Request) : List (ℕ × Record) :=
  (csmultiOrder req).filterMap fun i => (req.reqs[i]?).map fun r => (i, r)

/-- The length of the message up to its records. -/
def headerLength (req : Request) : ℕ := (16 + req.idlen + 3) / 4 * 4

/-- Key and operation of a request fit. -/
def keyFits (req : Request) : Bool :=
  if req.op = opAddsig ∨ req.op = opDelsig ∨ req.op = opGetsig2 then decide (req.idlen ≠ 0)
  else if req.op = opAddsum ∨ req.op = opDel ∨ req.op = opGet2 then decide (req.idlen = 0)
  else false

/-- How many records a message asks for at most. -/
def recordLimit (op : ℕ) : ℕ := if isGet op then 80 else 10000

/-- `__anoubis_csmulti_msg` for a server that does not know csmulti messages. -/
def compatMsg (req : Request) : Option ReqMsg × Request :=
  match (inOrder req).find? fun x => x.2.isOpen with
  | none => (none, { req with openreqs := 0 })
  | some (i, r) => (clientCompatChecksumMsg r.path req.op req.uid (req.keyid.getD []) r.csdata,
      { req with last := some i })

/-- `__anoubis_csmulti_msg`. -/
def csmultiMsg (req : Request) (compat : Bool) : Option (Option ReqMsg × Request) :=
  if keyFits req = false then some (none, req)
  else if compat then some (compatMsg req)
  else
    let recoff := headerLength req - 16
    let r := countRecords (recordLimit req.op) ((inOrder req).map Prod.snd) (headerLength req) 0
    (fillRecords (r.1 + 8) (inOrder req) recoff r.2).map fun x =>
      (some (.csmulti req.op req.uid req.idlen (recoff % 65536) (req.keyid.getD []) x.1),
        { req with openreqs := if r.2 = 0 then 0 else req.openreqs, last := x.2 })

/-! ### Replies -/

/-- The record points to a checksum of a type. -/
def Record.point (r : Record) (cstype : ℕ) (e : Bytes × ℕ) : Record :=
  if cstype = sigTypeCs then { r with csum := some e }
  else if cstype = sigTypeSig then { r with sig := some e }
  else if cstype = sigTypeUpgradecs then { r with upgrade := some e }
  else r

/-- The loop of `anoubis_csmulti_handle_get`, over the `datalen` bytes at `off`. -/
def handleGetFrom (m : Bytes) : ℕ → ℕ → ℕ → Record → Option (ℤ × Record)
  | 0, _, _, _ => none
  | fuel + 1, off, datalen, r =>
    if datalen < 8 then some (-efault, r)
    else do
      let cslen ← readU32 m (off + 4)
      let total := uint (8 + cslen)
      if total > datalen then some (-efault, r)
      else do
        let cstype ← readU32 m off
        if cstype = sigTypeEot then some (0, r)
        else handleGetFrom m fuel (off + total) (datalen - total) (r.point cstype (m, off))

/-- `anoubis_csmulti_handle_get`. Where more rounds than bytes are needed, the loop does not end. -/
def csmultiHandleGet (m : Bytes) (off datalen : ℕ) (r : Record) : Option (ℤ × Record) :=
  handleGetFrom m (datalen + 1) off datalen r

/-- The record at a position gets an error, and is the last one. -/
def Request.answer (req : Request) (i error : ℕ) : Request :=
  { req with last := some i, reqs := req.reqs.modify i fun r => { r with error := error } }

/-- A record that was open is not any more. -/
def Request.close (req : Request) (i : ℕ) : Request :=
  if (req.reqs[i]?).map Record.isOpen = some true then { req with openreqs := uint ((req.openreqs : ℤ) - 1) } else req

/-- The data of a record that was read. -/
def Request.getData (req : Request) (m : Bytes) (i off datalen : ℕ) : Option (ℤ × Request) := do
  let r ← req.reqs[i]?
  let x ← csmultiHandleGet m off datalen r
  some (x.1, { req with reqs := req.reqs.set i x.2 })

/-- The loop of `anoubis_client_csmulti_steps` over the records of a reply; `ret` is what a reply that is cut
    off ends with. -/
def replyLoop (m : Bytes) : ℕ → ℕ → ℤ → Request → Option (ℤ × Request)
  | 0, _, _, _ => none
  | fuel + 1, off, ret, req =>
    if verifyLength m (12 + off + 8 : ℕ) = false then some (ret, req)
    else do
      let rlen ← readU16 m (12 + off)
      if rlen = 0 then some (0, req)
      else if rlen < 8 ∨ uint (off + rlen) < off then some (ret, req)
      else
        let next := uint (off + rlen)
        if verifyLength m (12 + next : ℕ) = false then some (ret, req)
        else do
          let idx ← readU16 m (12 + off + 2)
          match csmultiFind req idx with
          | none => replyLoop m fuel next ret req
          | some i => do
            let error ← readU32 m (12 + off + 4)
            let req := (req.close i).answer i error
            if error ≠ 0 ∨ isGet req.op = false then replyLoop m fuel next ret req
            else do
              let x ← req.getData m i (12 + off + 8) (rlen - 8)
              if x.1 < 0 then some x else replyLoop m fuel next x.1 x.2

/-- ANOUBIS_REPLY in `anoubis_client_csmulti_steps`. -/
def compatReply (req : Request) (m : Bytes) : Option (ℤ × Request) :=
  if verifyLength m 20 = false then some (-eproto, req)
  else do
    let i ← req.last
    let error ← readU32 m 16
    let req := { req with reqs := req.reqs.modify i fun r => { r with error := error } }
    if error ≠ 0 ∨ isGet req.op = false then some (0, req)
    else req.getData m i 20 (uint (payloadLen m 20))

/-- ANOUBIS_P_CSMULTIREPLY in `anoubis_client_csmulti_steps`. -/
def multiReply (req : Request) (m : Bytes) : Option (ℤ × Request) :=
  if verifyLength m 12 = false then some (-eproto, req)
  else do
    let error ← readU32 m 8
    if error ≠ 0 then some (-error, req)
    else do
      let operation ← readU32 m 4
      if operation ≠ req.op then some (-eproto, req)
      else replyLoop m (m.length + 1) 0 (-efault) req

def pReply : ℕ := 0x1000
def pCsmultireply : ℕ := 0x3111

/-- `anoubis_client_csmulti_steps`, for a request that belongs to a client: the result, and the request. -/
def clientCsmultiSteps (req : Request) (m : Bytes) : Option (ℤ × Request) :=
  if verifyLength m 4 = false then some (-eproto, req)
  else do
    let type ← readU32 m 0
    if type = pReply then compatReply req m
    else if type = pCsmultireply then multiReply req m
    else some (-eproto, req)

/-- `anoubis_client_csmulti_finish`, behind `anoubis_transaction_done (-ret)`. -/
def clientCsmultiFinish (req : Request) (ret : ℤ) (m : Bytes) : Request :=
  { req with client := false, reply := if ret = 0 then m :: req.reply else req.reply }

/-! ### Runs -/

/-- A request, with the last message that was built for it. -/
structure St where
  req : Request
  msg : Option ReqMsg
  deriving DecidableEq

inductive Op where
  | add (path : Bytes) (csdata : Option Bytes)
  | addError (path : Bytes) (error : ℕ)
  | start (compat : Bool)
  | process (m : Bytes)
  deriving DecidableEq

/-- The message is of a type that the transaction for the last request waits for. -/
def answers (m : Bytes) : Option ReqMsg → Bool
  | none => false
  | some (.csmulti ..) => decide (u32 m 0 = pCsmultireply)
  | some (.compat ..) => decide (u32 m 0 = pReply)

def step (s : St) : Op → Option St
  | .add path csdata => some { s with req := (csmultiAdd s.req path csdata).2 }
  | .addError path error => some { s with req := (csmultiAddError s.req path error).2 }
  | .start compat => (csmultiMsg s.req compat).map fun x => ⟨x.2, x.1⟩
  | .process m =>
    if answers m s.msg then
      (clientCsmultiSteps s.req m).map fun x => { s with req := clientCsmultiFinish x.2 x.1 m }
    else some s

end Anoubis.Client

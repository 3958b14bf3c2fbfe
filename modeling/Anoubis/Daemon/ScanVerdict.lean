import Anoubis.Daemon.Scanner
import Anoubis.Lib.CString

/-! The verdict of a scan (`scanner_run`, `scanner_main`, `anoubisd_scanproc_exit`,
    `anoubis_client_parse_pgcommit_reply`).

    The child runs the configured scanners one after the other and puts the output of those that failed into
    one message. It goes through a pipe in pieces; the master reads it when the child has exited (before that
    the event loop watches another descriptor and reads nothing), and the client takes the strings apart:

        output --1000 bytes--> text --share of 8000--> payload --pipe--> msgbuf --> reply --> strings

    A system call on a pipe moves some bytes or is interrupted (EAGAIN, EINTR). A list of such outcomes that
    is too short for a loop is `none`. -/

namespace Anoubis.Daemon.Scanner

open Anoubis.Lib
open Anoubis.Daemon.Amsg (Bytes msgSize)
open Anoubis.Daemon.Sizes (Kernel)

/-- EAGAIN. -/
def eagain : ℕ := 11

/-- `struct anoubisd_pg_scanner`. -/
structure PgScanner where
  path : CString
  description : CString
  required : Bool
  deriving DecidableEq

/-- How read(2) or write(2) goes: EAGAIN or EINTR, or up to `n + 1` bytes. A read returns zero only at the end
    of the data. -/
inductive Call where
  | again
  | upto (n : ℕ)
  deriving DecidableEq

/-- What happens to one scanner. `error` is the text of the errno if its start fails. `terminated` says that
    `terminate` is set while it runs, and behind how many reads the loop would see that. -/
structure Attempt where
  error : Option CString
  output : Bytes
  reads : List Call
  terminated : Option ℕ
  status : Status

/-- `struct scanresult`. -/
structure ScanResult where
  scanner : PgScanner
  exitcode : ℕ
  text : CString
  deriving DecidableEq

/-! ### One scanner -/

/-- The size of the buffer for the output of one scanner. -/
def textLimit : ℕ := 1000

/-- The loop of `scanner_run` that reads the output; `k` counts its rounds, `out` is what the scanner still
    writes. -/
def readOutput (stop : Option ℕ) : List Call → ℕ → Bytes → CString → Option CString
  | calls, k, out, text =>
    let len := textLimit - text.length
    if len = 0 then some text
    else match calls with
      | [] => none
      | .again :: calls => if stop = some k then some text else readOutput stop calls (k + 1) out text
      | .upto n :: calls =>
        let data := out.take (min (n + 1) len)
        if data = [] then some text
        -- only the bytes in front of a NUL count
        else if (cString data).length < data.length then some (text ++ cString data)
        else if stop = some k then some (text ++ cString data)
        else readOutput stop calls (k + 1) (out.drop data.length) (text ++ cString data)

/-- tolower(3) in the C locale. -/
def lower (b : UInt8) : UInt8 := if 65 ≤ b ∧ b ≤ 90 then b + 32 else b

/-- `strcasecmp(s, t) == 0`. -/
def sameFold (s t : CString) : Bool := s.map (fun c => lower c.1) = t.map (fun c => lower c.1)

/-- `scanner_run`; whether `terminate` is set behind it is `a.terminated`. -/
def scannerRun (s : PgScanner) (a : Attempt) : Option ScanResult :=
  if sameFold s.path (cLit "allow") then some ⟨s, 0, []⟩
  else if sameFold s.path (cLit "deny") then some ⟨s, 1, []⟩
  else match a.error with
    | some str => some ⟨s, 2, str.take textLimit⟩
    | none => (readOutput a.terminated a.reads 0 a.output []).map fun text =>
      let exitcode := match a.status with
        | .exited code => code
        | .signaled _ => 2
      ⟨s, if a.terminated.isSome ∧ exitcode = 0 then 2 else exitcode, text⟩

/-! ### All scanners -/

/-- The configured scanners, each with what happens to it if it is run. -/
abbrev Runs := List (PgScanner × Attempt)

/-- The first loop of `scanner_main`: the results, and whether `terminate` has ended it. -/
def scanAll (flags : ℕ) : Runs → Option (List ScanResult × Bool)
  | [] => some ([], false)
  | (s, a) :: runs =>
    if flags ≠ 0 ∧ s.required = false then scanAll flags runs
    else (scannerRun s a).bind fun result =>
      if a.terminated.isSome then some ([result], true)
      else (scanAll flags runs).map fun (results, terminate) => (result :: results, terminate)

/-- The size of `resbuf`. -/
def resbufSize : ℕ := 8000

/-- What the second loop of `scanner_main` writes for a result. The last of the `dlen` bytes of the description
    is set to NUL. -/
def report (limit : ℕ) (result : ScanResult) : Bytes :=
  if result.exitcode = 0 then []
  else
    let dlen := min (result.scanner.description.length + 1) (limit / 2)
    cBytes (result.scanner.description.take (dlen - 1)) ++
      cBytes (result.text.take (min (limit - dlen - 1) result.text.length))

/-- `err` in the second loop. -/
def nextErr (err : ℕ) (result : ScanResult) : ℕ :=
  if result.exitcode = 0 then err
  else if result.scanner.required then eperm
  else if err = 0 then eagain else err

/-- `scanner_main` up to `out`: the error and the payload of the reply. -/
def scannerMain (flags : ℕ) (runs : Runs) : Option (ℕ × Bytes) :=
  if runs = [] then some (eperm, [])
  else (scanAll flags runs).map fun (results, terminate) =>
    if terminate then (eintr, [])
    else
      let nresults := results.countP (·.exitcode ≠ 0)
      let limit := resbufSize / nresults
      if nresults ≠ 0 ∧ limit < 100 then (efault, [])
      else (results.foldl nextErr 0, results.flatMap (report limit))

/-! ### The pipe -/

/-- A number in the byte order of the machine. -/
def hostBytes : ℕ → ℕ → Bytes
  | 0, _ => []
  | width + 1, n => UInt8.ofNat n :: hostBytes width (n / 256)

/-- The ANOUBISD_MSG_PGCOMMIT_REPLY message of the child: the size and the type, the token zero, the length of
    the payload and the error. -/
def replyMsg (error : ℕ) (payload : Bytes) : Bytes :=
  hostBytes 4 (payload.length + 24) ++ hostBytes 4 pgcommitReply ++ hostBytes 8 0 ++
    hostBytes 4 payload.length ++ hostBytes 4 error ++ payload

/-- The bytes at and around `buf`. -/
def memory (around : ℤ → UInt8) (msg : Bytes) (i : ℤ) : UInt8 :=
  if 0 ≤ i then msg.getD i.toNat (around i) else around i

/-- The last loop of `scanner_main`: what it writes to the pipe. If the call is interrupted, -1 is added to the
    offset. -/
def writeReply (mem : ℤ → UInt8) (size : ℕ) : List Call → ℤ → Option Bytes
  | calls, off =>
    if off < size then match calls with
      | [] => none
      | .again :: calls => writeReply mem size calls (off - 1)
      | .upto n :: calls =>
        let ret := min (n + 1) (size - off).toNat
        (writeReply mem size calls (off + ret)).map ((List.range ret).map (fun i : ℕ => mem (off + i)) ++ ·)
    else some []

/-- One round of the loop of `dispatch_scand2m`, when the child has exited. If it returns early, the loop of
    `anoubisd_scanproc_exit` calls it again; if its loop is left by `break` (`.inr`), the pipe is closed. -/
def readOnce (junk : ℕ → UInt8) (call : Call) (sp : ScanProc) : ScanProc ⊕ ScanProc :=
  let len := wanted sp
  let sp := limited sp
  if len ≤ sp.msgoff then .inr sp
  else
    let sp := { sp with msgbuf := grow junk len sp.msgbuf }
    match call with
    | .again => .inl sp
    | .upto n =>
      let data := sp.unread.take (min (n + 1) (len - sp.msgoff))
      if data = [] then .inr sp
      else .inl { sp with
        msgbuf := sp.msgbuf.take sp.msgoff ++ data ++ sp.msgbuf.drop (sp.msgoff + data.length)
        msgoff := sp.msgoff + data.length
        unread := sp.unread.drop data.length }

/-- The reading in `anoubisd_scanproc_exit`. -/
def readAll (junk : ℕ → UInt8) : List Call → ScanProc → Option ScanProc
  | [], sp => if wanted sp ≤ (limited sp).msgoff then some (limited sp) else none
  | call :: calls, sp =>
    match readOnce junk call sp with
    | .inl sp => readAll junk calls sp
    | .inr sp => some sp

/-- The reply that `anoubisd_scanproc_exit` enqueues for a child that exited with status zero. -/
def exitReply (K : Kernel) (junk : ℕ → UInt8) (env : Commit) (calls : List Call) (sp : ScanProc) : Option Reply :=
  (readAll junk calls sp).bind fun sp => (scanReply K env sp).bind (makeReply sp.token)

/-! ### The client -/

/-- The second loop of `anoubis_client_parse_pgcommit_reply`, from the index `idx` on: the pointers behind the
    first one, as indices. -/
def pointers (plen cnt : ℕ) : ℕ → ℕ → Bytes → List (Option ℕ)
  | _, _, [] => []
  | idx, cnt2, b :: buf =>
    if cnt2 < cnt then
      if b = 0 then
        (if idx + 1 < plen then some (idx + 1) else none) :: pointers plen cnt (idx + 1) (cnt2 + 1) buf
      else pointers plen cnt (idx + 1) cnt2 buf
    else []

/-- `anoubis_client_parse_pgcommit_reply`: an array of pointers that ends with NULL. -/
def parsePgcommitReply (buf : Bytes) : List (Option ℕ) :=
  let cnt := buf.count 0
  (some 0 :: pointers buf.length cnt 0 0 buf).set cnt none

/-- The strings that the pointers up to NULL point to. -/
def pgcommitStrings (buf : Bytes) : List CString :=
  ((parsePgcommitReply buf).takeWhile Option.isSome).reduceOption.map fun i => cString (buf.drop i)

/-! ### One scan -/

/-- All that a scan depends on. -/
structure Scan where
  flags : ℕ
  runs : Runs
  around : ℤ → UInt8
  writes : List Call
  reads : List Call

/-- The reply to a scan: the child exits, `ioctl` and `fremovexattr` succeed. Nothing has been read before. -/
def scanVerdict (K : Kernel) (junk : ℕ → UInt8) (x : Scan) (sp : ScanProc) : Option Reply :=
  (scannerMain x.flags x.runs).bind fun (error, payload) =>
  (writeReply (memory x.around (replyMsg error payload)) (payload.length + 24) x.writes 0).bind fun out =>
  exitReply K junk ⟨none, none⟩ x.reads { sp with msgbuf := [], msgoff := 0, unread := out, unwritten := [] }

end Anoubis.Daemon.Scanner

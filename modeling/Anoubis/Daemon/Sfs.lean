import Anoubis.Daemon.Csmulti
import Anoubis.Daemon.SfsPath
import Anoubis.Lib.Calls
import Mathlib.Algebra.GroupWithZero.Nat

/-! The master's work on the tree of checksums (`sfs.c`, `main.c`).

    Requests come from the session engine. What the master does about them is a program over its system
    calls; nothing is assumed about their answers here.

        message --> sfsParseChecksumop --> sfsChecksumop -----> sfsWritesfsdata, sfsReadsfsdata, sfsDeletechecksum
                                      └──▶ sfsChecksumopList ─▶ sfsWantentry, sfsRemoveIndex
        csmulti --> sfsParseCsmulti -----> sfsProcessCsmulti -> sfsChecksumop, for each record -/

namespace Anoubis.Daemon.Sfs

open Anoubis.Lib
open Anoubis.Connection (Bytes u16 u32)
open Anoubis.Pe (csLen)
open Anoubis.MsgVerify (verifyLength payloadLen opAddsum opAddsig opGet2 opGetsig2 opDel opDelsig)
open Anoubis.Daemon.Csmulti (sfsParseCsmulti epermNoCertificate epermUidMismatch)

/-! ### Certificates and requests -/

/-- The fields of struct cert. `sigSize` is EVP_PKEY_size of the public key, `verifies` is
    `anoubisd_verify_csum` with it, for a checksum and a signature. -/
structure Cert where
  uid : UInt32
  keyid : Bytes
  ignore : Bool
  sigSize : ℕ
  verifies : Bytes → Bytes → Bool

/-- `cert_get_by_keyid`. -/
def certGetByKeyid (certs : List Cert) (keyid : Bytes) : Option Cert :=
  if keyid = [] then none else (certs.find? fun p => p.keyid = keyid).filter fun p => !p.ignore

/-- What the master works with: SFS_CHECKSUMROOT, the certificates, and the byte that malloc leaves. -/
structure Master where
  root : Text
  certs : List Cert
  junk : Char

/-- struct sfs_checksumop, without the records of a csmulti request. -/
structure Checksumop where
  op : ℕ
  listflags : ℕ
  uid : UInt32
  authUid : UInt32
  keyid : Bytes
  sigbuf : Bytes
  path : Text

/-- struct sfs_data. -/
structure SfsData where
  csdata : Bytes
  sigdata : Bytes
  upgradecsdata : Bytes
  deriving DecidableEq

def opGenericList : ℕ := 15

/-- ANOUBIS_CSUM_*. -/
def csumUid : ℕ := 0x01
def csumKey : ℕ := 0x02
def csumAll : ℕ := 0x10
def csumWantids : ℕ := 0x20
def csumUpgraded : ℕ := 0x40
def csumFlagMask : ℕ := 0x73

/-- A flag of a list request. -/
def has (flags flag : ℕ) : Bool := decide (flags &&& flag ≠ 0)

def eperm : ℤ := -1
def enoent : ℤ := -2
def eexist : ℤ := -17
def enotdir : ℤ := -20
def enametoolong : ℤ := 36

/-! ### Calls -/

/-- struct anoubisd_msg_csumreply: the flags START and END, and the error; the data is a checksum, a list of
    names, or a csmulti reply with index, error and checksum of each record. -/
inductive Reply where
  | checksum (error : ℤ) (data : Bytes)
  | names (start fin : Bool) (error : ℤ) (names : List Text)
  | csmulti (error : ℤ) (op : ℕ) (records : List (ℕ × ℤ × Bytes))
  deriving DecidableEq

/-- What the master calls. A write puts the fields of its data behind each other, with a table of contents; a
    read takes them apart again. -/
inductive Call where
  | space
  | mkdir (path : Text)
  | openTrunc (file : Text)
  | write (file : Text) (data : SfsData)
  | openExcl (file : Text)
  | rename (old new : Text)
  | unlink (file : Text)
  | rmdir (path : Text)
  | opendir (path : Text)
  | lstat (file : Text)
  | read (file : Text)
  | invalidate (path : Text) (owner : Owner)
  | reply (reply : Reply)
  deriving DecidableEq

/-- The answer: an error number, the entries of a directory, whether a regular file is there, or data. -/
def Answer : Call → Type
  | .opendir _ => Except ℤ (List Text)
  | .lstat _ => Bool
  | .read _ => Except ℤ SfsData
  | .invalidate _ _ => Unit
  | .reply _ => Unit
  | _ => Except ℤ Unit

/-- A program of the master. -/
abbrev Work := Prog Call Answer

/-! ### Writing -/

/-- `mkpath`: the directories on the way to `path`, from its character `i` on; `n` characters are left. -/
def mkpathFrom (path : Text) : ℕ → ℕ → Work (Except ℤ Unit)
  | _, 0 => .ret (.ok ())
  | i, n + 1 =>
    if path[i]? = some '/' ∨ path[i]? = none then
      .call (.mkdir (path.take i)) fun r => match r with
        | .error e => if e ≠ eexist then .ret (.error e) else mkpathFrom path (i + 1) n
        | .ok () => mkpathFrom path (i + 1) n
    else mkpathFrom path (i + 1) n

def mkpath (path : Text) : Work (Except ℤ Unit) := mkpathFrom path 1 path.length

/-- The prefix of the name of an index file. -/
def indexPrefix : Text := ".*u_".toList

/-- The loop of `sfs_create_upgradeindex`, from the character `i` of the path down to `min`. -/
def createIndexFrom (csumPath suffix : Text) (min : ℕ) : ℕ → ℕ → Work (Except ℤ Unit)
  | 0, _ => .ret (.ok ())
  | fuel + 1, i =>
    if i > min then
      if csumPath[i]? = some '/' then createIndexFrom csumPath suffix min fuel (i - 1)
      else
        let i := lastSlash csumPath i
        .call (.openExcl (csumPath.take i ++ '/' :: indexPrefix ++ suffix)) fun r => match r with
          | .error e => .ret (if e = eexist then .ok () else .error e)
          | .ok () => createIndexFrom csumPath suffix min fuel i
    else .ret (.ok ())

/-- The name of a file behind the last slash. -/
def baseName (file : Text) : Text := (file.reverse.takeWhile (· ≠ '/')).reverse

/-- `sfs_create_upgradeindex`. -/
def sfsCreateUpgradeindex (root csumPath csumFile : Text) : Work (Except ℤ Unit) :=
  if '/' ∉ csumFile then .ret (.error (-14))
  else if baseName csumFile = [] then .ret (.error einval)
  else if ¬ root <+: csumPath then .ret (.error einval)
  else if csumPath[root.length]? ≠ some '/' then .ret (.error einval)
  else createIndexFrom csumPath (baseName csumFile) root.length csumPath.length (csumPath.length - 1)

/-- `sfs_need_upgrade_data`. -/
def sfsNeedUpgradeData (updata cmpdata : Bytes) : Bool :=
  decide (updata ≠ [] ∧ cmpdata ≠ [] ∧ cmpdata.take updata.length ≠ updata)

/-- SFSDATA_MAX_FIELD_LENGTH. -/
def maxFieldLength : ℕ := 4096

/-- The temporary file in front of a file. -/
def tmpName (file : Text) : Text := file ++ ".tmp".toList

/-- What a file will hold. -/
def storedData (sfsdata : SfsData) : SfsData :=
  { sfsdata with
    upgradecsdata := if sfsNeedUpgradeData sfsdata.upgradecsdata sfsdata.sigdata then sfsdata.upgradecsdata else [] }

/-- The index is only needed for an upgrade checksum. -/
def upgradeindexFor (root csumPath csumFile : Text) (data : SfsData) : Work (Except ℤ Unit) :=
  if data.upgradecsdata ≠ [] then sfsCreateUpgradeindex root csumPath csumFile else .ret (.ok ())

/-- `sfs_writesfsdata`. -/
def sfsWritesfsdata (root csumFile csumPath : Text) (sfsdata : SfsData) : Work (Except ℤ Unit) :=
  .call .space fun r => match r with
  | .error e => .ret (.error e)
  | .ok () =>
    let data := storedData sfsdata
    let tmp := tmpName csumFile
    let fail := fun (e : ℤ) => (.call (.unlink tmp) fun _ => .ret (.error e) : Work (Except ℤ Unit))
    if data.csdata.length > maxFieldLength ∨ data.sigdata.length > maxFieldLength ∨
        data.upgradecsdata.length > maxFieldLength then .ret (.error einval)
    else if data.csdata = [] ∧ data.sigdata = [] ∧ data.upgradecsdata = [] then .ret (.error einval)
    else do
      match ← mkpath csumPath with
      | .error e => .ret (.error e)
      | .ok () => .call (.openTrunc tmp) fun r => match r with
        | .error e => .ret (.error e)
        | .ok () => .call (.write tmp data) fun r => match r with
          | .error e => fail e
          | .ok () => do
            match ← upgradeindexFor root csumPath csumFile data with
            | .error e => fail e
            | .ok () => .call (.rename tmp csumFile) fun r => match r with
              | .error e => fail e
              | .ok () => .ret (.ok ())

/-! ### Deleting -/

/-- `check_empty_dir`. -/
def checkEmptyDir (path : Text) : Work Bool :=
  .call (.opendir path) fun r => .ret (match r with
    | .error _ => false
    | .ok names => names.all fun name => name = ".".toList || name = "..".toList)

/-- The loop of `sfs_deletechecksum`: directories that have become empty, from the character `k` on. -/
def removeEmptyFrom (path : Text) (rootLen : ℕ) : ℕ → Work Unit
  | 0 => .ret ()
  | k + 1 =>
    if k + 1 > rootLen then
      if path[k + 1]? = some '/' then do
        let dir := path.take (k + 1)
        let empty ← checkEmptyDir dir
        if ! empty then .ret ()
        else .call (.rmdir dir) fun r => match r with
          | .error _ => .ret ()
          | .ok () => removeEmptyFrom path rootLen k
      else removeEmptyFrom path rootLen k
    else .ret ()

/-- `sfs_deletechecksum`. -/
def sfsDeletechecksum (root csumFile : Text) : Work (Except ℤ Unit) :=
  if csumFile[root.length]? ≠ some '/' then .ret (.error einval)
  else .call (.unlink csumFile) fun r => match r with
    | .error e => .ret (.error e)
    | .ok () => do
      removeEmptyFrom csumFile root.length csumFile.length
      .ret (.ok ())

/-! ### Single operations -/

/-- The first half of `__sfs_checksumop`: the file of an operation, and the certificate. -/
def checksumFile (certs : List Cert) (csop : Checksumop) (csumPath : Text) : Except ℤ (Text × Option Cert) :=
  if csop.op = opAddsum ∨ csop.op = opGet2 ∨ csop.op = opDel then
    if csop.uid ≠ csop.authUid ∧ csop.authUid ≠ 0 then .error eperm
    else if csop.op = opAddsum ∧ csop.sigbuf.length ≠ csLen then .error einval
    else .ok (fileIn csumPath (uidName csop.uid), none)
  else if csop.op = opAddsig ∨ csop.op = opGetsig2 ∨ csop.op = opDelsig then
    if csop.keyid = [] then .error einval
    else match certGetByKeyid certs csop.keyid with
      | none => .error epermNoCertificate
      | some cert =>
        if cert.uid ≠ csop.authUid ∧ csop.authUid ≠ 0 then .error epermUidMismatch
        else if csop.op = opAddsig ∧ cert.sigSize + csLen ≠ csop.sigbuf.length then .error einval
        else if csop.op = opAddsig ∧ ! cert.verifies (csop.sigbuf.take csLen) (csop.sigbuf.drop csLen) then
          .error eperm
        else .ok (fileIn csumPath (keyName csop.keyid), some cert)
  else .error einval

/-- The checks on what a get operation has read. -/
def checkData (cert : Option Cert) (data : SfsData) : Except ℤ SfsData :=
  if data.csdata ≠ [] ∧ data.csdata.length ≠ csLen then .error einval
  else match cert with
    | none => .ok { data with sigdata := [] }
    | some cert =>
      if data.sigdata ≠ [] ∧ cert.sigSize ≠ 0 then
        if data.sigdata.length ≠ csLen + cert.sigSize then .error enoent
        else if ! cert.verifies (data.sigdata.take csLen) (data.sigdata.drop csLen) then .error enoent
        else .ok data
      else .ok { data with sigdata := [] }

/-- An operation that returns data. -/
def isGet (op : ℕ) : Bool := decide (op = opGet2 ∨ op = opGetsig2)

/-- The second half of `__sfs_checksumop`. -/
def checksumWork (root : Text) (csop : Checksumop) (csumPath csumFile : Text) (cert : Option Cert) :
    Work (Except ℤ SfsData) :=
  if csop.op = opAddsum then do
    let r ← sfsWritesfsdata root csumFile csumPath ⟨csop.sigbuf, [], []⟩
    .ret (r.map fun _ => ⟨[], [], []⟩)
  else if csop.op = opAddsig then do
    let r ← sfsWritesfsdata root csumFile csumPath ⟨[], csop.sigbuf, []⟩
    .ret (r.map fun _ => ⟨[], [], []⟩)
  else if isGet csop.op then
    .call (.read csumFile) fun r => .ret (match r with
      | .error e => .error e
      | .ok data => checkData cert data)
  else do
    let r ← sfsDeletechecksum root csumFile
    .ret (r.map fun _ => ⟨[], [], []⟩)

/-- `__sfs_checksumop`, for the root of the tree that the process sees; `data` says whether the caller wants
    data back. -/
def sfsChecksumopAt (root : Text) (certs : List Cert) (csop : Checksumop) (data isChroot : Bool) :
    Work (Except ℤ SfsData) :=
  if isGet csop.op ∧ data = false then .ret (.error einval)
  else if isGet csop.op = false ∧ isChroot then .ret (.error eperm)
  else if isGet csop.op = false ∧ data then .ret (.error einval)
  else match convertUserPath root csop.path false with
    | .error e => .ret (.error e)
    | .ok csumPath => match checksumFile certs csop csumPath with
      | .error e => .ret (.error e)
      | .ok (csumFile, cert) => checksumWork root csop csumPath csumFile cert

/-- `sfs_checksumop_chroot`. -/
def sfsChecksumopChroot (chrootRoot : Text) (certs : List Cert) (csop : Checksumop) : Work (Except ℤ SfsData) :=
  sfsChecksumopAt chrootRoot certs csop true true

/-- `set_value` of an u32n. -/
def be32 (n : ℕ) : Bytes :=
  [UInt8.ofNat (n / 16777216), UInt8.ofNat (n / 65536), UInt8.ofNat (n / 256), UInt8.ofNat n]

/-- `sfs_copy_one_sig_type`, for a type other than ANOUBIS_SIG_TYPE_EOT. -/
def sfsCopyOneSigType (src : Bytes) (type : ℕ) : Bytes :=
  if src = [] then [] else be32 type ++ be32 src.length ++ src

/-- The records that a get operation returns. -/
def sigRecords (data : SfsData) : Bytes :=
  sfsCopyOneSigType data.csdata 1 ++ sfsCopyOneSigType data.sigdata 2 ++ sfsCopyOneSigType data.upgradecsdata 3 ++
    be32 0 ++ be32 0

/-- `sfs_checksumop`; the data is empty for operations other than get. -/
def sfsChecksumop (d : Master) (csop : Checksumop) : Work (Except ℤ Bytes) :=
  if isGet csop.op then do
    match ← sfsChecksumopAt d.root d.certs csop true false with
    | .error e => .ret (.error e)
    | .ok data =>
      .ret (if csop.op = opGet2 ∧ data.csdata = [] ∨ csop.op = opGetsig2 ∧ data.sigdata = [] then .error enoent
        else .ok (sigRecords data))
  else do
    let r ← sfsChecksumopAt d.root d.certs csop false false
    .ret (r.map fun _ => [])

/-- `send_sfscache_invalidate`. -/
def sendSfscacheInvalidate (csop : Checksumop) : Work Unit :=
  if csop.op = opAddsum ∨ csop.op = opDel then .call (.invalidate csop.path (.uid csop.uid)) fun _ => .ret ()
  else if csop.op = opAddsig ∨ csop.op = opDelsig then
    .call (.invalidate csop.path (.key csop.keyid)) fun _ => .ret ()
  else .ret ()

/-! ### Lists -/

/-- `sfs_upgraded`. -/
def sfsUpgraded (csumFile : Text) : Work Bool :=
  .call (.read csumFile) fun r => .ret (match r with
    | .error _ => false
    | .ok data => decide (data.upgradecsdata ≠ []))

/-- `sfs_check_for_uid` and `sfs_check_for_key`, for the name of the file. -/
def checkFor (name sfsPath entryname : Text) (listflags : ℕ) (checkForIndex : Bool) : Work Bool :=
  let upgradeOnly := has listflags csumUpgraded
  let file := fileIn (fileIn sfsPath entryname) ((if checkForIndex then indexPrefix else []) ++ name)
  if checkForIndex ∧ upgradeOnly = false then .ret true
  else .call (.lstat file) fun (regular : Bool) =>
    if regular = false then .ret false
    else if checkForIndex then .ret true
    else if upgradeOnly then sfsUpgraded file
    else .ret true

def sfsCheckForUid (sfsPath entryname : Text) (uid : UInt32) : ℕ → Bool → Work Bool :=
  checkFor (uidName uid) sfsPath entryname

def sfsCheckForKey (sfsPath entryname : Text) (keyid : Bytes) : ℕ → Bool → Work Bool :=
  checkFor (keyName keyid) sfsPath entryname

/-- The entries that no list reports: index files and the two names of every directory. -/
def hidden (entryname : Text) : Bool :=
  decide (entryname[0]? = some '.' ∧
    (entryname[1]? = some '*' ∨ entryname[1]? = none ∨ (entryname[1]? = some '.' ∧ entryname[2]? = none)))

/-- An entry of the directory of a file that stands for a user, or for a key. -/
def wantId (listflags : ℕ) (entryname : Text) : Bool :=
  entryname.head?.any fun c => (c.isDigit && has listflags csumUid) || (c == 'k' && has listflags csumKey)

/-- An entry with an even number of stars in front is a directory that has no checksums of its own. -/
def isDirEntry (entryname : Text) : Bool := decide ((entryname.takeWhile (· = '*')).length % 2 = 0)

def wantUid (csop : Checksumop) (sfsPath entryname : Text) : Work Bool :=
  if has csop.listflags csumUid then
    sfsCheckForUid sfsPath entryname csop.uid csop.listflags (isDirEntry entryname)
  else .ret false

def wantKey (csop : Checksumop) (sfsPath entryname : Text) : Work Bool :=
  if has csop.listflags csumKey then
    sfsCheckForKey sfsPath entryname csop.keyid csop.listflags (isDirEntry entryname)
  else .ret false

/-- `sfs_wantentry`. -/
def sfsWantentry (csop : Checksumop) (sfsPath entryname : Text) : Work Bool :=
  if hidden entryname then .ret false
  else if has csop.listflags csumWantids then .ret (wantId csop.listflags entryname)
  else if has csop.listflags csumAll then .ret true
  else do
    let uid ← wantUid csop sfsPath entryname
    if uid then .ret true else wantKey csop sfsPath entryname

/-- The index file of a user or key goes, if the request is about it. -/
def removeIndexFor (root path : Text) (flag : Bool) (name : Text) : Work Unit :=
  if flag then do
    let _ ← sfsDeletechecksum root (fileIn path (indexPrefix ++ name))
    .ret ()
  else .ret ()

/-- `sfs_remove_index`. -/
def sfsRemoveIndex (root path : Text) (csop : Checksumop) : Work Unit :=
  if has csop.listflags csumUpgraded = false then .ret ()
  else if has csop.listflags csumAll || has csop.listflags csumWantids then .ret ()
  else do
    removeIndexFor root path (has csop.listflags csumUid) (uidName csop.uid)
    removeIndexFor root path (has csop.listflags csumKey) (keyName csop.keyid)

/-- The size of the data of a reply. -/
def replySize : ℕ := 8000

/-- What a reply says of an entry. -/
def listedName (d : Master) (csop : Checksumop) (entry : Text) : Text :=
  if has csop.listflags csumWantids then entry else removeEscapeSeq d.junk entry

/-- The loop of `sfs_checksumop_list`: the entries that are left; `start` is the flag of the message in work, whose
    names are `names`. Returns these three. -/
def listEntries (d : Master) (csop : Checksumop) (sfsPath : Text) :
    List Text → Bool → List Text → Bool → Work (Except Unit (Bool × List Text × Bool))
  | [], start, names, found => .ret (.ok (start, names, found))
  | entry :: entries, start, names, found => do
    let wanted ← sfsWantentry csop sfsPath entry
    if ! wanted then listEntries d csop sfsPath entries start names found
    else
      let tmp := listedName d csop entry
      let tmplen := tmp.length + 1
      let offset := (names.map fun name => name.length + 1).sum
      if offset + tmplen > replySize then
        .call (.reply (.names start false 0 names)) fun _ =>
          if tmplen > replySize then .ret (.error ())
          else listEntries d csop sfsPath entries false [tmp] true
      else listEntries d csop sfsPath entries start (names ++ [tmp]) true

/-- `sfs_checksumop_list`. -/
def sfsChecksumopList (d : Master) (csop : Checksumop) : Work Unit :=
  let wantids := has csop.listflags csumWantids
  let single := fun (error : ℤ) => (.call (.reply (.names true true error [])) fun _ => .ret () : Work Unit)
  if csop.op ≠ opGenericList then single (-einval)
  else match convertUserPath d.root csop.path (!wantids) with
    | .error e => single (-e)
    | .ok sfsPath => .call (.opendir sfsPath) fun r => match r with
      | .error e => single (if e = enoent ∨ e = enotdir then 0 else -e)
      | .ok entries => do
        match ← listEntries d csop sfsPath entries true [] false with
        | .error () => .call (.reply (.names false true enametoolong [])) fun _ => .ret ()
        | .ok (start, names, found) =>
          .call (.reply (.names start true 0 names)) fun _ =>
            if found then .ret () else sfsRemoveIndex d.root sfsPath csop

/-! ### Requests -/

/-- The bytes of a message as text. -/
def toText (b : Bytes) : Text := b.map fun x => Char.ofNat x.toNat

/-- `sfs_op_is_add`. -/
def sfsOpIsAdd (op : ℕ) : Bool := decide (op = opAddsum ∨ op = opAddsig)

/-- The flags of a list request, in `sfs_validate_checksumop`. -/
def validateList (csop : Checksumop) : Except ℤ Unit :=
  let f := csop.listflags
  if f &&& (0xffffffff - csumFlagMask) ≠ 0 then .error einval
  else if csop.sigbuf ≠ [] then .error einval
  else if has f csumUpgraded then
    if f ≠ csumUpgraded ||| csumKey then .error einval
    else if csop.keyid = [] then .error einval
    else .ok ()
  else if has f csumWantids then
    if has f csumAll = false then .error einval
    else if csop.authUid ≠ 0 then .error eperm
    else if csop.keyid ≠ [] then .error einval
    else if csop.uid ≠ 0 then .error einval
    else .ok ()
  else if has f csumAll then
    if has f csumUid = false then .error einval
    else if has f csumKey = false then .error einval
    else if csop.authUid ≠ 0 then .error eperm
    else if csop.keyid ≠ [] then .error einval
    else .ok ()
  else if has f csumKey then if csop.keyid = [] then .error einval else .ok ()
  else if csop.keyid ≠ [] then .error einval
  else .ok ()

/-- The certificate of a request, in `sfs_validate_checksumop`. -/
def validateCert (certs : List Cert) (csop : Checksumop) : Except ℤ (Option Cert) :=
  if csop.uid ≠ csop.authUid ∧ csop.authUid ≠ 0 then .error eperm
  else if csop.keyid = [] then .ok none
  else match certGetByKeyid certs csop.keyid with
    | none => .error epermNoCertificate
    | some cert =>
      if cert.uid ≠ csop.authUid ∧ csop.authUid ≠ 0 then .error epermUidMismatch
      else if csop.authUid ≠ csop.uid ∧ csop.uid ≠ cert.uid then .error epermUidMismatch
      else .ok (some cert)

/-- `sfs_validate_checksumop`. -/
def sfsValidateChecksumop (certs : List Cert) (csop : Checksumop) : Except ℤ Unit :=
  match validateCert certs csop with
  | .error e => .error e
  | .ok cert =>
    if csop.op = opDel ∨ csop.op = opGet2 ∨ csop.op = opAddsum then
      if csop.listflags ≠ 0 then .error einval
      else if cert.isSome then .error einval
      else if csop.op = opAddsum then if csop.sigbuf.length ≠ csLen then .error einval else .ok ()
      else if csop.sigbuf.length ≠ 0 then .error einval
      else .ok ()
    else if csop.op = opGetsig2 ∨ csop.op = opDelsig ∨ csop.op = opAddsig then
      if csop.listflags ≠ 0 then .error einval
      else if cert.isNone then .error eperm
      else if csop.op = opAddsig then if csop.sigbuf.length < csLen then .error einval else .ok ()
      else if csop.sigbuf ≠ [] then .error einval
      else .ok ()
    else if csop.op = opGenericList then validateList csop
    else .error einval

/-- The fields of a checksum request whose payload starts at `base`, with a checksum of `siglen` bytes. -/
def requestFields (m : Bytes) (authUid : UInt32) (base siglen : ℕ) : Except ℤ Checksumop :=
  let op := u32 m 4
  let flags := u32 m 8
  let uid := UInt32.ofNat (u32 m 12)
  let idlen := u16 m 16
  let keyid := (m.drop base).take idlen
  let plen := (payloadLen m base).toNat - (idlen + siglen)
  let path := (m.drop (base + idlen + siglen)).take plen
  let asks := has flags csumUid && !has flags csumAll
  if 0 ∉ path then .error einval
  else .ok {
    op := op
    listflags := if op = opGenericList then flags else 0
    uid := if asks || (op ≠ opGenericList && keyid.isEmpty && has flags csumUid) then uid else authUid
    authUid := authUid
    keyid := keyid
    sigbuf := (m.drop (base + idlen)).take siglen
    path := toText (path.takeWhile (· ≠ 0)) }

/-- `sfs_parse_checksumop`. -/
def sfsParseChecksumop (certs : List Cert) (m : Bytes) (authUid : UInt32) : Except ℤ Checksumop :=
  if ! verifyLength m 18 then .error einval
  else
    let idlen := u16 m 16
    let fields : Except ℤ Checksumop :=
      if sfsOpIsAdd (u32 m 4) then
        if ! verifyLength m 20 then .error einval
        else
          let siglen := u16 m 18
          let plen := (payloadLen m 20).toNat
          if idlen > plen ∨ siglen > plen then .error einval
          else if ! verifyLength m (20 + idlen + siglen) then .error einval
          else requestFields m authUid 20 siglen
      else if idlen > (payloadLen m 18).toNat then .error einval
      else if ! verifyLength m (18 + idlen) then .error einval
      else requestFields m authUid 18 0
    match fields with
    | .error e => .error e
    | .ok csop => match sfsValidateChecksumop certs csop with
      | .error e => .error e
      | .ok () => .ok csop

/-- `dispatch_checksumop`. -/
def dispatchChecksumop (d : Master) (m : Bytes) (authUid : UInt32) : Work Unit :=
  match sfsParseChecksumop d.certs m authUid with
  | .error e => .call (.reply (.checksum (-e) [])) fun _ => .ret ()
  | .ok csop =>
    if csop.op = opGenericList then sfsChecksumopList d csop
    else do
      match ← sfsChecksumop d csop with
      | .error e => .call (.reply (.checksum (-e) [])) fun _ => .ret ()
      | .ok data => do
        sendSfscacheInvalidate csop
        .call (.reply (.checksum 0 data)) fun _ => .ret ()

/-- The operation of one record of a csmulti request. -/
def recordOp (req : Csmulti.Checksumop) (rec' : Csmulti.CsmultiRecord) : Checksumop where
  op := req.op
  listflags := 0
  uid := UInt32.ofNat req.uid
  authUid := UInt32.ofNat req.authUid
  keyid := req.keyid
  sigbuf := rec'.csdata
  path := toText rec'.path

/-- The cache of the policy process hears of every change. -/
def invalidateAfter (csop : Checksumop) (r : Except ℤ Bytes) : Work Unit :=
  if r.isOk ∧ isGet csop.op = false then sendSfscacheInvalidate csop else .ret ()

/-- Index, error and checksum of one record in the reply. -/
def replyRecord (index : ℕ) : Except ℤ Bytes → ℕ × ℤ × Bytes
  | .error e => (index, -e, [])
  | .ok data => (index, 0, data)

/-- The loop of `sfs_process_csmulti`, with the length of the reply so far. -/
def processRecords (d : Master) (req : Csmulti.Checksumop) :
    List Csmulti.CsmultiRecord → ℕ → Work (List (ℕ × ℤ × Bytes))
  | [], _ => .ret []
  | rec' :: recs, totallen => do
    let csop := recordOp req rec'
    let r ← sfsChecksumop d csop
    invalidateAfter csop r
    let answer := replyRecord rec'.index r
    let totallen := totallen + 8 + answer.2.2.length
    if totallen > 16000 then .ret [answer]
    else do
      let rest ← processRecords d req recs totallen
      .ret (answer :: rest)

/-- `sfs_process_csmulti`, where memory does not run out. -/
def sfsProcessCsmulti (d : Master) (req : Csmulti.Checksumop) : Work Unit := do
  let records ← processRecords d req (req.csmulti.take 1000) 12
  .call (.reply (.csmulti 0 req.op records)) fun _ => .ret ()

/-- The owner of the certificate for a key ID. -/
def certUid (certs : List Cert) (keyid : Bytes) : Option ℕ :=
  (certGetByKeyid certs keyid).map fun cert => cert.uid.toNat

/-- `dispatch_csmulti_request`. A failed assertion ends the daemon. -/
def dispatchCsmultiRequest (d : Master) (m : Bytes) (authUid : UInt32) : Work Unit :=
  match sfsParseCsmulti (certUid d.certs) m ⟨0, m.length⟩ authUid.toNat with
  | none => .ret ()
  | some (.error e) => .call (.reply (.csmulti (-e) 0 [])) fun _ => .ret ()
  | some (.ok req) => sfsProcessCsmulti d req

/-- A checksum request of a client. -/
inductive Request where
  | single (m : Bytes)
  | csmulti (m : Bytes)

/-- One request of the user `authUid`. -/
def dispatch (d : Master) (authUid : UInt32) : Request → Work Unit
  | .single m => dispatchChecksumop d m authUid
  | .csmulti m => dispatchCsmultiRequest d m authUid

/-- Requests one after the other. -/
def serve (d : Master) (authUid : UInt32) : List Request → Work Unit
  | [] => .ret ()
  | r :: rs => do
    dispatch d authUid r
    serve d authUid rs

end Anoubis.Daemon.Sfs

import Anoubis.Daemon.Cfg
import Anoubis.Daemon.SfsPath
import Mathlib.Data.List.Lookmap

/-! The certificates of the daemon (`cert.c`).

    A directory holds one certificate for each user, under the user ID as a number. Two certificates with one key ID
    are both ignored.

        pubkeys/0        key a                      uid 0      key a
        pubkeys/1000     key b     cert_load_db     uid 1000   key b   ignored
        pubkeys/1001     key b    ------------->    uid 1001   key b   ignored
        pubkeys/readme

    The functions of OpenSSL are a parameter. Memory that cannot be allocated is left out. -/

namespace Anoubis.Certs

open Anoubis.Lib
open Anoubis.Cfg (strtol)
open Anoubis.Daemon.Sfs (hexString)

/-- The functions of OpenSSL on files: PEM_read_X509, X509_get_pubkey, the data of the extensions for the subject key
    identifier in their order, and PEM_read_PrivateKey with a passphrase. -/
structure Ssl (X K : Type) where
  pemReadX509 : List UInt8 → Option X
  x509GetPubkey : X → Option K
  keyIdentifiers : X → List (List UInt8)
  pemReadPrivateKey : List UInt8 → CString → Option K

/-- What `d_type` says of an entry. -/
inductive FileType where
  | reg
  | unknown
  | other
  deriving DecidableEq

/-- An entry of the directory: its name and type, what `lstat` says of it (is it a regular file?), and the bytes that
    can be read from it. -/
structure Dirent where
  name : CString
  type : FileType
  lstat : Option Bool
  file : Option (List UInt8)
  deriving DecidableEq

/-- struct cert. -/
structure Cert (X K : Type) where
  uid : ℕ
  pubkey : Option K
  privkey : Option K
  keyid : List UInt8
  ignore : Bool
  req : X
  deriving DecidableEq

variable {X K : Type}

/-! ### Loading -/

/-- UID_MAX. -/
def uidMax : ℤ := 4294967295

/-- `strtonum`. -/
def strtonum (numstr : CString) (minval maxval : ℤ) : Option ℤ :=
  match strtol numstr with
  | some (n, []) => if n < minval ∨ n > maxval then none else some n
  | _ => none

/-- `cert_keyid`: the last one of the extensions, without the description of a key of 20 bytes. -/
def certKeyid (ssl : Ssl X K) (req : X) : List UInt8 :=
  match (ssl.keyIdentifiers req).getLast? with
  | none => []
  | some data => if data.length < 2 then [] else if data.take 2 = [4, 20] then data.drop 2 else data

/-- A certificate from an entry of the directory; `none` goes on with the next one. -/
def certRead (ssl : Ssl X K) (dp : Dirent) : Option (Cert X K) :=
  if dp.type = .other then none
  else do
    let uid ← strtonum dp.name 0 uidMax
    if dp.type = .unknown ∧ dp.lstat = some false then none
    else do
      let file ← dp.file
      let req ← ssl.pemReadX509 file
      let pubkey ← ssl.x509GetPubkey req
      if certKeyid ssl req = [] then none else some ⟨uid.toNat, some pubkey, none, certKeyid ssl req, false, req⟩

/-- `_cert_get_by_keyid`. -/
def certFindKeyid (keyid : List UInt8) (checkIgnore : Bool) (certdb : List (Cert X K)) : Option (Cert X K) :=
  if keyid = [] then none
  else match certdb.find? fun p => decide (p.keyid = keyid) with
    | none => none
    | some p => if checkIgnore && p.ignore then none else some p

/-- A certificate that was read gets into the database; if one with its key ID is there, both are ignored. -/
def certInsert (certs : List (Cert X K)) (sc : Cert X K) : List (Cert X K) :=
  match certFindKeyid sc.keyid false certs with
  | some _ =>
    certs.lookmap (fun check => if check.keyid = sc.keyid then some { check with ignore := true } else none) ++
      [{ sc with ignore := true }]
  | none => certs ++ [{ sc with ignore := false }]

/-- The body of the loop in `cert_load_db`. -/
def certLoad (ssl : Ssl X K) (certs : List (Cert X K)) (dp : Dirent) : List (Cert X K) :=
  match certRead ssl dp with
  | none => certs
  | some sc => certInsert certs sc

/-- `cert_load_db`, for a directory that is read in this order; `none` cannot be opened. -/
def certLoadDb (ssl : Ssl X K) : Option (List Dirent) → List (Cert X K)
  | none => []
  | some dir => dir.foldl (certLoad ssl) []

/-! ### Lookups -/

/-- `_cert_get_by_uid`. -/
def certFindUid (certs : List (Cert X K)) (uid : ℕ) (checkIgnore : Bool) : Option (Cert X K) :=
  match certs.find? fun p => decide (p.uid = uid) with
  | none => none
  | some p => if checkIgnore && p.ignore then none else some p

/-- `cert_get_by_uid`. -/
def certGetByUid (certs : List (Cert X K)) (uid : ℕ) : Option (Cert X K) := certFindUid certs uid true

/-- `cert_get_by_keyid`. -/
def certGetByKeyid (certs : List (Cert X K)) (keyid : List UInt8) : Option (Cert X K) :=
  certFindKeyid keyid true certs

/-- `cert_keyid_for_uid`. -/
def certKeyidForUid (certs : List (Cert X K)) (uid : ℕ) : Option Text :=
  match certs.find? fun p => decide (p.uid = uid) && !p.ignore with
  | none => none
  | some p => if p.keyid = [] then none else some (hexString p.keyid)

end Anoubis.Certs

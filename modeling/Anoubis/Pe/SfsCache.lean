import Anoubis.Daemon.Sfs
import Anoubis.Lib.LruTable

/-! The cache of checksums in the policy process (`pe_sfscache.c`).

    A lookup for a path and a user or a key first searches the cache. Only if there is no entry, the file in
    the tree of checksums is read; a checksum that is found and a file that is missing are both remembered. -/

namespace Anoubis.Pe.SfsCache

open Anoubis.Lib
open Anoubis.Connection (Bytes)
open Anoubis.Pe (csLen)
open Anoubis.MsgVerify (opGet2 opGetsig2)
open Anoubis.Daemon.Sfs (Cert SfsData Checksumop Call Answer Work sfsChecksumopChroot)

/-! ### Entries -/

/-- Whose checksum an entry holds: a user's, or that of a key, which is a string of hex digits. -/
inductive Who where
  | uid (uid : UInt32)
  | key (key : Text)
  deriving DecidableEq

/-- struct sfshash_entry; `negative` is CSTYPE_NEGATIVE. -/
structure Entry where
  slot : ℕ
  who : Who
  negative : Bool
  path : Text
  csum : Bytes
  deriving DecidableEq

/-- `sfshash_tab`, `sfshash_lru` and `sfshash_entries`. -/
abbrev Cache := LruTable Entry

def sfshashNrentry : ℕ := 8192
def sfshashMax : ℕ := 4 * sfshashNrentry

/-- A char in an unsigned long. -/
def extend (c : Char) : UInt64 :=
  UInt64.ofNat (if c.toNat < 128 then c.toNat else 18446744073709551616 - 256 + c.toNat)

/-- One character in the loops of `sfshash_fn`. -/
def hashStep (ret : UInt64) (c : Char) : UInt64 :=
  let ret := (ret <<< 1) ^^^ extend c.toLower
  (ret ^^^ (ret >>> 13)) &&& 8191

/-- `sfshash_fn`; without a key, `key` is NULL in the source and empty here. -/
def sfshashFn (path key : Text) (uid : UInt32) : ℕ :=
  ((key.foldl hashStep (path.foldl hashStep (uid.toUInt64 &&& 8191))) &&& 8191).toNat

/-- `(uid_t)-1`. -/
def noUid : UInt32 := 0xffffffff

/-- The slot of a path and a user or key. -/
def slotOf (path : Text) : Who → ℕ
  | .uid uid => sfshashFn path [] uid
  | .key key => sfshashFn path key noUid

/-- strcasecmp. -/
def sameText (s t : Text) : Bool := decide (s.map Char.toLower = t.map Char.toLower)

/-- An entry for this user or key. -/
def sameWho : Who → Who → Bool
  | .uid u, .uid v => decide (u = v)
  | .key k, .key l => sameText k l
  | _, _ => false

/-! ### The table -/

/-- `sfshash_remove_entry`. -/
def sfshashRemoveEntry (c : Cache) (entry : Entry) : Cache := c.remove Entry.slot entry

/-- `sfshash_insert_entry`. -/
def sfshashInsertEntry (c : Cache) (slot : ℕ) (entry : Entry) : Cache :=
  let c := c.insert Entry.slot { entry with slot := slot }
  c.trim Entry.slot sfshashMax c.count

/-- `sfshash_touch`. -/
def sfshashTouch (c : Cache) (entry : Entry) : Cache := c.touch Entry.slot entry

/-- `sfshash_flush`. -/
def sfshashFlush (c : Cache) : Cache := c.flush Entry.slot c.order.length

/-- `sfshash_insert_common`, where memory does not run out. -/
def sfshashInsertCommon (c : Cache) (path : Text) (csum : Bytes) (negative : Bool) (who : Who) : Cache :=
  sfshashInsertEntry c (slotOf path who) ⟨0, who, negative, path, csum⟩

/-- `sfshash_find_uid` and `sfshash_find_key`. -/
def sfshashFind (c : Cache) (path : Text) (who : Who) : Option Entry × Cache :=
  match (c.tab (slotOf path who)).find? fun entry => sameWho entry.who who && decide (path = entry.path) with
  | none => (none, c)
  | some entry => (some entry, sfshashTouch c entry)

/-! ### Reading -/

def enoent : ℤ := -2
def enomem : ℤ := -12

/-- What the files of the tree hold, or the error of reading them. -/
abbrev Disk := Text → Except ℤ SfsData

/-- The policy process only reads files. -/
def diskHandle (disk : Disk) : (c : Call) → Answer c × Disk
  | .read file => (disk file, disk)
  | .opendir _ => (.error enoent, disk)
  | .lstat _ => (false, disk)
  | .invalidate _ _ => ((), disk)
  | .reply _ => ((), disk)
  | .space => (.error enoent, disk)
  | .mkdir _ => (.error enoent, disk)
  | .openTrunc _ => (.error enoent, disk)
  | .write _ _ => (.error enoent, disk)
  | .openExcl _ => (.error enoent, disk)
  | .rename _ _ => (.error enoent, disk)
  | .unlink _ => (.error enoent, disk)
  | .rmdir _ => (.error enoent, disk)

/-- `chartohex`. -/
def chartohex (ch : Char) : Option ℕ :=
  if '0' ≤ ch ∧ ch ≤ '9' then some (ch.toNat - '0'.toNat)
  else if 'A' ≤ ch ∧ ch ≤ 'F' then some (10 + ch.toNat - 'A'.toNat)
  else if 'a' ≤ ch ∧ ch ≤ 'f' then some (10 + ch.toNat - 'a'.toNat)
  else none

/-- The bytes of a key, two digits each. -/
def keyBytes : Text → Option Bytes
  | [] => some []
  | [_] => none
  | c1 :: c2 :: key => do
    let c1 ← chartohex c1
    let c2 ← chartohex c2
    let rest ← keyBytes key
    some (UInt8.ofNat (16 * c1 + c2) :: rest)

section Site

variable (root : Text) (certs : List Cert)

/-- The checksum at the front of what a get operation returns. -/
def frontSum (sigbuf : Bytes) : Except ℤ Bytes :=
  if sigbuf.length < csLen then .error enoent else .ok (sigbuf.take csLen)

/-- `sfshash_readsum`; `root` is SFS_CHECKSUMCHROOT. -/
def sfshashReadsum (path : Text) : Who → Work (Except ℤ Bytes)
  | .uid uid => do
    let r ← sfsChecksumopChroot root certs ⟨opGet2, 0, uid, 0, [], [], path⟩
    .ret (match r with
      | .error e => .error e
      | .ok data => frontSum data.csdata)
  | .key key =>
    if key.length % 2 = 1 then .ret (.error enoent)
    else if key = [] then .ret (.error enomem)
    else match keyBytes key with
      | none => .ret (.error enoent)
      | some keyid => do
        let r ← sfsChecksumopChroot root certs ⟨opGetsig2, 0, 0, 0, keyid, [], path⟩
        .ret (match r with
          | .error e => .error e
          | .ok data => frontSum data.sigdata)

/-- Reading the checksum from disk. -/
def readsum (disk : Disk) (path : Text) (who : Who) : Except ℤ Bytes :=
  ((sfshashReadsum root certs path who).run diskHandle disk).1

/-- `sfshash_get_uid` and `sfshash_get_key`. -/
def sfshashGet (disk : Disk) (c : Cache) (path : Text) (who : Who) : Except ℤ Bytes × Cache :=
  let clone := fun (csum : Bytes) => if csum = [] then (.error enomem : Except ℤ Bytes) else .ok csum
  match sfshashFind c path who with
  | (some entry, c) => if entry.negative then (.error enoent, c) else (clone entry.csum, c)
  | (none, c) => match readsum root certs disk path who with
    | .error e => (.error e, if e = enoent then sfshashInsertCommon c path [] true who else c)
    | .ok csum => (clone csum, sfshashInsertCommon c path csum false who)

def sfshashGetUid (disk : Disk) (c : Cache) (path : Text) (uid : UInt32) : Except ℤ Bytes × Cache :=
  sfshashGet root certs disk c path (.uid uid)

def sfshashGetKey (disk : Disk) (c : Cache) (path key : Text) : Except ℤ Bytes × Cache :=
  sfshashGet root certs disk c path (.key key)

end Site

/-- `sfshash_invalidate_uid` and `sfshash_invalidate_key`. -/
def sfshashInvalidate (c : Cache) (path : Text) (who : Who) : Cache :=
  match sfshashFind c path who with
  | (some entry, c) => sfshashRemoveEntry c entry
  | (none, c) => c

def sfshashInvalidateUid (c : Cache) (path : Text) (uid : UInt32) : Cache := sfshashInvalidate c path (.uid uid)

def sfshashInvalidateKey (c : Cache) (path key : Text) : Cache := sfshashInvalidate c path (.key key)

end Anoubis.Pe.SfsCache

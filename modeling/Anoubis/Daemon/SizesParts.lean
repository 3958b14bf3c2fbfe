import Anoubis.Pe.PathEvent

/-! The parts of a message between the daemon's processes.

    What the receiver of a message finds behind its structure: counted bytes, strings with a NUL byte at
    their ends, and events of the kernel. Every part has its place in the message: all offsets count from the
    start of the message, whose type stands at 4 and whose contents start at 8.

        0      4       8
        │ size │ mtype │ structure │ parts …                │
                       └─ len, off, … say where they lie ───┘ -/

namespace Anoubis.Daemon.Sizes

open Anoubis.Lib
open Anoubis.Connection (Bytes u16 u32 csumLen)
open Anoubis.MsgVerify (int opAddsum opAddsig)
open Anoubis.PathEvent (peParsePathEvent Declared)

variable (m : Bytes)

/-- The `len` bytes at `off` lie in the message. -/
def Within (off len : ℕ) : Prop := off + len ≤ m.length

/-- The string at `off` ends before `fin`. -/
def StringIn (off fin : ℕ) : Prop := ∃ p, FirstNul m off p ∧ p < fin

/-- So many strings, one behind the other, end before `fin`. -/
def Strings (fin : ℕ) : ℕ → ℕ → Prop
  | 0, _ => True
  | n + 1, off => ∃ p, FirstNul m off p ∧ p < fin ∧ Strings fin n (p + 1)

/-! ### Checksum operations -/

/-- From one record of a csmulti request to the next; the last one has the length zero. -/
def NextRecord (r r' : ℕ) : Prop := u32 m r ≠ 0 ∧ r' = r + u32 m r

/-- A record that ends before `fin`: its header, its checksum and its path. -/
structure RecordIn (fin r : ℕ) : Prop where
  header : r + 8 ≤ fin
  record : r + u32 m r ≤ fin
  checksum : u32 m r ≠ 0 → 8 + u16 m (r + 6) ≤ u32 m r
  path : u32 m r ≠ 0 → StringIn m (r + 8 + u16 m (r + 6)) (r + u32 m r)

/-- A csmulti request at `b`: the ID of the key and the records. -/
structure CsmultiOk (b fin : ℕ) : Prop where
  keyid : b + 16 + u16 m (b + 12) ≤ fin
  records : ∀ r, Relation.ReflTransGen (NextRecord m) (b + 16 + u16 m (b + 14)) r → RecordIn m fin r

/-- The requests that carry a checksum. -/
def HasChecksum (b : ℕ) : Prop := u32 m (b + 4) = opAddsum ∨ u32 m (b + 4) = opAddsig

/-- Any other checksum request at `b`: the ID of the key, the checksum and the path. -/
structure CsumOk (b fin : ℕ) : Prop where
  add : HasChecksum m b → sha256DigestLength ≤ u16 m (b + 18) ∧
    StringIn m (b + 20 + u16 m (b + 16) + u16 m (b + 18)) fin
  other : ¬ HasChecksum m b → StringIn m (b + 18 + u16 m (b + 16)) fin

/-- A checksum operation at `b`, for the `len` bytes up to the protocol's own checksum. -/
structure ChecksumopOk (b len : ℕ) : Prop where
  csum : csumLen ≤ len
  multi : u32 m b = csmultirequest → CsmultiOk m b (b + len - csumLen)
  single : u32 m b ≠ csmultirequest → CsumOk m b (b + len - csumLen)

/-- Bytes whose number is a short. -/
structure ShortPart (field off : ℕ) : Prop where
  nonneg : 0 ≤ short (host m field 2)
  part : Within m off (short (host m field 2)).toNat

/-! ### Events -/

variable (K : Kernel)

/-- The number of strings of an sfs_path_message. -/
def pathCount (b : ℕ) : ℕ :=
  (if field m b K.pathlen0 ≠ 0 then 1 else 0) + if field m b K.pathlen1 ≠ 0 then 1 else 0

/-- The event at `b` ends before `fin`. -/
def EventParts (b fin : ℕ) : Source → Prop
  | .alf => b + K.alfEvent ≤ fin
  | .sandbox | .sfs | .sfsexec => StringIn m (b + K.pathhint) fin
  | .sfspath => Strings m fin (pathCount m K b) (b + K.paths)
  | .process => b + K.acProcessMessage ≤ fin
  | .stat => b + K.anoubisStatMessage ≤ fin
  | .ipc => b + K.acIpcMessage ≤ fin
  | .playground =>
    (field m b K.pgOp = K.opOpen → Strings m fin 1 (b + K.pathbuf)) ∧
    (field m b K.pgOp ≠ K.opOpen → field m b K.pgOp = K.opRename ∧ Strings m fin 2 (b + K.pathbuf))
  | .playgroundproc => b + K.pgProcMessage ≤ fin
  | .playgroundfile => Strings m fin 2 (b + K.pgFilePath)

/-- A complete event, header included, in the `len` bytes at `hdr`. -/
structure EventOk (hdr len : ℕ) : Prop where
  header : K.eventdevHdr ≤ len
  size : field m hdr K.msgSize ≤ len
  event : ∃ s, K.source (field m hdr K.msgSource) = some s ∧
    EventParts m K (hdr + K.eventdevHdr) (hdr + field m hdr K.msgSize) s

/-- A struct anoubisd_msg_eventask: its five regions, the strings and the event in them. -/
structure EventaskOk : Prop where
  regions : ∀ f ∈ eventaskFields, host m (8 + f + 2) 2 ≠ 0 → Within m 48 (host m (8 + f) 2 + host m (8 + f + 2) 2)
  path : host m 34 2 ≠ 0 → HasNul m (48 + host m 32 2) (host m 34 2)
  ctxpath : host m 42 2 ≠ 0 → HasNul m (48 + host m 40 2) (host m 42 2)
  event : host m 46 2 ≠ 0 → EventOk m K (48 + host m 44 2) (host m 46 2)

/-! ### Messages -/

/-- The contents of a policy request that starts with a request of the protocol. -/
structure PolrequestOk : Prop where
  data : Within m 26 (host m 24 2)
  type : host m 20 4 % 2 = 1 → (u32 m 26 = 0x100 ∧ 12 ≤ host m 24 2) ∨ (u32 m 26 = 0x101 ∧ 14 ≤ host m 24 2)

/-- A struct anoubisd_sfscache_invalidate: the path and the key behind it. -/
structure InvalidateOk : Prop where
  path : Within m 20 (host m 12 4) ∧ HasNul m 20 (host m 12 4)
  key : host m 16 4 ≠ 0 → Within m (20 + host m 12 4) (host m 16 4) ∧ StringIn m (20 + host m 12 4) m.length

/-- A struct anoubisd_msg_upgrade: a chunk consists of strings. -/
structure UpgradeOk : Prop where
  part : host m 8 4 ≠ upgradeNotify → Within m 16 (host m 12 4)
  chunk : host m 8 4 = upgradeChunk → host m 12 4 ≠ 0 → StringIn m 16 m.length

/-- The parts of a message of the daemon. -/
def PartsOk : MsgType → Prop
  | .polrequest => PolrequestOk m
  | .checksumOp | .csmultirequest => ShortPart m 20 22 ∧ ChecksumopOk m 22 (short (host m 20 2)).toNat
  | .polreply | .checksumreply | .csmultireply => ShortPart m 24 26
  | .eventdev => EventOk m K 8 (m.length - 8)
  | .logrequest | .eventask => EventaskOk m K
  | .eventreply => Within m 8 K.eventdevReply
  | .eventcancel => Within m 8 K.eventdevToken
  | .pgchange => StringIn m 28 m.length
  | .sfscacheInvalidate => InvalidateOk m
  | .upgrade => UpgradeOk m
  | .sfsUpdateAll => Within m 12 (host m 8 4) ∧ StringIn m (12 + host m 8 4) m.length
  | .config => Strings m m.length (1 + host m 8 4) 17
  | .logit => StringIn m 12 m.length
  | .passphrase => StringIn m 8 m.length
  | .authChallenge => Within m 32 (host m 24 4 + host m 28 4)
  | .authVerify => Within m 28 (host m 20 4 + host m 24 4)
  | .listreply => Within m 24 (host m 20 4)
  | .pgcommit => StringIn m 45 m.length
  | .pgcommitReply => Within m 24 (host m 16 4)
  | .polrequestAbort | .policychange => Within m 8 8
  | .authRequest | .authResult | .pgunlinkReply => Within m 8 16
  | .listrequest => Within m 8 24
  | .pgunlink => Within m 8 40

/-- A message of the daemon: its type is known and its parts lie in it. -/
def MsgOk : Prop := Within m 0 8 ∧ ∃ t, msgTypes[host m 4 4]? = some t ∧ PartsOk m K t

end Anoubis.Daemon.Sizes

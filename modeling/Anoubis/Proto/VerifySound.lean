import Anoubis.Proto.Verify
import Mathlib.Logic.Relation

/-! What a verified message promises.

    `Sound t m` says of a message of the type `t` that all of its fields lie in the bytes before the
    checksum, with the keys, checksums and records that the fields tell the place of, and that every string
    has its NUL byte in its own part:

        0        structSize                              L - 4      L
        │ fields │ part │ part │ record │ record │ …     │ checksum │   -/

namespace Anoubis.MsgVerify

open Anoubis.Lib
open Anoubis.Connection (Bytes u16 u32 csumLen)
open Anoubis.Pe (csLen)

/-! ### The macros without overflow -/

variable {m : Bytes}

/-- The `len` bytes at `off` are payload. -/
def Inside (m : Bytes) (off len : ℕ) : Prop := off + len + csumLen ≤ m.length

variable {off base : ℕ}
variable {len n size field : ℕ}

theorem Inside.mono {off' len' : ℕ} (h : Inside m off len) (hle : off' + len' ≤ off + len) : Inside m off' len' := by
  unfold Inside at h ⊢
  omega

theorem u16_lt (off : ℕ) : u16 m off < 65536 := by
  have h₀ := (m.getD off 0).toNat_lt
  have h₁ := (m.getD (off + 1) 0).toNat_lt
  rw [u16]
  omega

theorem u32_lt (off : ℕ) : u32 m off < 4294967296 := by
  have h₀ := (m.getD off 0).toNat_lt
  have h₁ := (m.getD (off + 1) 0).toNat_lt
  have h₂ := (m.getD (off + 2) 0).toNat_lt
  have h₃ := (m.getD (off + 3) 0).toNat_lt
  rw [u32]
  omega

theorem uint_natCast (h : n < 4294967296) : uint n = n := by
  rw [uint]
  omega

theorem int_natCast (h : n < 4294967296) :
    (int n = n ∧ n < 2147483648) ∨ (int n = n - 4294967296 ∧ 2147483648 ≤ n) := by
  rw [int, Int.bmod]
  split <;> omega

theorem readU32_eq (h : off + 4 ≤ m.length) : readU32 m off = some (u32 m off) := if_pos h

theorem readU16_eq (h : off + 2 ≤ m.length) : readU16 m off = some (u16 m off) := if_pos h

section

variable (hm : m.length ≤ messageMaxlen)
include hm

theorem verifyLength_iff (h : len < 2147483648) : verifyLength m len = true ↔ Inside m 0 len := by
  have hint : int len = len := by
    rcases int_natCast (n := len) (by omega) with hi | hi <;> omega
  have huint : uint (uint len + csumLen) = len + csumLen := by
    rw [uint_natCast (by omega), csumLen]
    exact uint_natCast (n := len + 4) (by omega)
  unfold messageMaxlen at hm
  rw [verifyLength, decide_eq_true_iff, hint, huint, Inside, csumLen, messageMaxlen]
  omega

theorem verifyBuffer_iff (hb : base < 1000) {start len : ℤ}
    (hs : -2147483648 ≤ start ∧ start < 4294967296) (hl : -2147483648 ≤ len ∧ len < 4294967296) :
    verifyBuffer m base start len = true ↔ 0 ≤ start ∧ 0 ≤ len ∧ Inside m base (start.toNat + len.toNat) := by
  have hm' := hm
  unfold messageMaxlen at hm'
  rw [verifyBuffer, decide_eq_true_iff]
  by_cases hsmall : uint (uint start + uint len) ≤ messageMaxlen
  · have hfin : uint (base + uint (uint start + uint len)) = base + uint (uint start + uint len) := by
      unfold messageMaxlen at hsmall
      exact uint_natCast (n := base + uint (uint start + uint len)) (by omega)
    unfold messageMaxlen at hsmall ⊢
    rw [hfin, verifyLength_iff hm (by omega)]
    unfold uint at hsmall ⊢
    unfold Inside csumLen
    omega
  · refine iff_of_false (fun h => hsmall h.2.1) ?_
    rintro ⟨h₀, h₁, h⟩
    unfold messageMaxlen uint at hsmall
    unfold Inside csumLen at h
    omega

theorem verifyBuffer_nat (hb : base < 1000) (ho : off < 4294967296)
    (hn : n < 4294967296) : verifyBuffer m base off n = true ↔ Inside m (base + off) n := by
  rw [verifyBuffer_iff hm hb (by omega) (by omega)]
  unfold Inside
  omega

theorem payloadLen_eq (h : Inside m 0 base) : payloadLen m base = m.length - base - csumLen := by
  have hle := hm
  unfold messageMaxlen at hle
  unfold Inside csumLen at h
  rw [payloadLen, if_pos ((verifyLength_iff hm (by omega)).mpr (by unfold Inside csumLen; omega)), csumLen]
  have hint := int_natCast (n := m.length - base - 4) (by omega)
  have hcast : ((m.length - base - 4 : ℕ) : ℤ) = m.length - base - (4 : ℕ) := by omega
  rw [hcast] at hint
  omega

end

/-! ### Records -/

/-- A string fills the payload from `off` on. -/
def StringAt (m : Bytes) (off : ℕ) : Prop := HasNul m off (m.length - csumLen - off)

/-- From one record of a csmulti request to the next; the last one has the length zero. -/
def NextRequest (m : Bytes) (off off' : ℕ) : Prop := u32 m (16 + off) ≠ 0 ∧ off' = off + u32 m (16 + off)

/-- The records of a csmulti request. -/
def RequestRecord (m : Bytes) (off : ℕ) : Prop := Relation.ReflTransGen (NextRequest m) (u16 m 14) off

/-- A record of a csmulti request up to its path: the checksum in front of the path is part of it. -/
structure RequestRecordOk (m : Bytes) (off : ℕ) : Prop where
  header : Inside m (16 + off) 8
  record : Inside m (16 + off) (u32 m (16 + off))
  checksum : u32 m (16 + off) ≠ 0 → 8 + u16 m (16 + off + 6) ≤ u32 m (16 + off)

/-- The path of a record ends in the record. -/
def RequestPathOk (m : Bytes) (off : ℕ) : Prop :=
  u32 m (16 + off) ≠ 0 →
    HasNul m (16 + off + 8 + u16 m (16 + off + 6)) (u32 m (16 + off) - (8 + u16 m (16 + off + 6)))

/-- From one record of a csmulti reply to the next. -/
def NextReply (m : Bytes) (off off' : ℕ) : Prop := u16 m (12 + off) ≠ 0 ∧ off' = off + u16 m (12 + off)

/-- The records of a csmulti reply. -/
def ReplyRecord (m : Bytes) (off : ℕ) : Prop := Relation.ReflTransGen (NextReply m) 0 off

/-- From one entry of a record to the next; the last one has the type EOT. -/
def NextEntry (m : Bytes) (base : ℕ) (off off' : ℕ) : Prop :=
  u32 m (base + off) ≠ sigTypeEot ∧ off' = off + 8 + u32 m (base + off + 4)

/-- The entries behind `off` in a payload of `len` bytes at `base` lie in it. -/
def EntriesOk (m : Bytes) (base len off : ℕ) : Prop :=
  ∀ off', Relation.ReflTransGen (NextEntry m base) off off' → off' + 8 ≤ len ∧
    off' + 8 + u32 m (base + off' + 4) ≤ len

/-- A record of a csmulti reply, with the entries that a successful GET returns. -/
structure ReplyRecordOk (m : Bytes) (get : Bool) (off : ℕ) : Prop where
  header : Inside m (12 + off) 8
  record : Inside m (12 + off) (u16 m (12 + off))
  entries : u16 m (12 + off) ≠ 0 → get = true → u32 m (12 + off + 4) = 0 →
    EntriesOk m (12 + off + 8) (u16 m (12 + off) - 8) 0

/-- Where the record `i` of a list reply starts, counted from the one at `off`. -/
def recordOff (m : Bytes) (off : ℕ) : ℕ → ℕ
  | 0 => off
  | i + 1 => recordOff m (off + u32 m (16 + off)) i

/-- So many contexts, each a checksum and a path, stand between `p` and `fin`. -/
def Contexts (m : Bytes) (fin : ℕ) : ℕ → ℕ → Prop
  | 0, _ => True
  | n + 1, p => ∃ q, FirstNul m (p + csLen) q ∧ q < fin ∧ Contexts m fin n (q + 1)

/-- The strings of a record of a list reply, for a record of `len` bytes at `r`. -/
def ListStrings (m : Bytes) (rectype r len : ℕ) : Prop :=
  if rectype = recProclist then Contexts m (r + len) 3 (r + procRecord)
  else HasNul m (r + 32) (len - 32)

def listRecordSize (rectype : ℕ) : ℕ := if rectype = recProclist then procRecord else 32

/-- A record of a list reply. -/
structure ListRecordOk (m : Bytes) (rectype off : ℕ) : Prop where
  type : rectype = recPglist ∨ rectype = recPgfilelist ∨ rectype = recProclist
  header : listRecordSize rectype ≤ u32 m (16 + off)
  record : Inside m (16 + off) (u32 m (16 + off))
  strings : ListStrings m rectype (16 + off) (u32 m (16 + off))

/-! ### Messages -/

/-- The size of the structure of a message without its payload. -/
def structSize : MsgType → ℕ
  | .reply | .delegate => 20
  | .hello | .versel | .authdata | .request => 8
  | .auth | .optreq | .optack | .protosel | .closereq | .closeack | .version | .passphrase => 4
  | .authreply | .csumList | .csmultireply | .policyReply | .policychange | .statusnotify => 12
  | .csumrequest => 18
  | .csmultirequest | .versionreply | .listreq | .listrep => 16
  | .pgcommit => 17
  | .pgunlink => 32
  | .register | .unregister => 24
  | .ask | .notify | .lognotify => 72
  | .resyou | .resother | .pgchange => 20

/-- A message of the type ANOUBIS_C_AUTHDATA. -/
structure AuthdataOk (m : Bytes) : Prop where
  challenge : u32 m 4 = 2 → Inside m 0 16 ∧ Inside m 16 (u32 m 8 + u32 m 12)
  challengereply : u32 m 4 = 3 → Inside m 0 20 ∧ Inside m 20 (u32 m 12 + u32 m 16)

/-- A checksum request: with a checksum in front of the path, and without one. -/
structure CsumrequestOk (m : Bytes) : Prop where
  add : u32 m 4 = opAddsum ∨ u32 m 4 = opAddsig → Inside m 0 20 ∧ Inside m 20 (u16 m 16 + u16 m 18) ∧
    StringAt m (20 + (u16 m 16 + u16 m 18))
  other : ¬ (u32 m 4 = opAddsum ∨ u32 m 4 = opAddsig) → Inside m 18 (u16 m 16) ∧ StringAt m (18 + u16 m 16)

/-- A notify message: five buffers, of which two are paths; an empty one is none. -/
structure NotifyOk (m : Bytes) : Prop where
  buffers : ∀ field ∈ [52, 56, 60, 64, 68], Inside m 72 (u16 m field + u16 m (field + 2))
  paths : ∀ field ∈ [56, 64], u16 m (field + 2) ≠ 0 → HasNul m (72 + u16 m field) (u16 m (field + 2))

/-- The parts of a message behind its structure. -/
def PartsOk (m : Bytes) : MsgType → Prop
  | .authdata => AuthdataOk m
  | .csumrequest => CsumrequestOk m
  | .csmultirequest => Inside m 16 (u16 m 12) ∧
      ∀ off, RequestRecord m off → RequestRecordOk m off ∧ RequestPathOk m off
  | .csmultireply => u32 m 8 = 0 → ∀ off, ReplyRecord m off →
      ReplyRecordOk m (decide (u32 m 4 = opGet2 ∨ u32 m 4 = opGetsig2)) off
  | .passphrase => StringAt m 4
  | .listrep => u32 m 8 = 0 → ∀ i < u16 m 12, ListRecordOk m (u16 m 14) (recordOff m 0 i)
  | .pgcommit => StringAt m 17
  | .ask | .notify | .lognotify => NotifyOk m
  | .pgchange => StringAt m 20
  | _ => True

/-- What a receiver of a verified message relies on. -/
def Sound (t : MsgType) (m : Bytes) : Prop := Inside m 0 (structSize t) ∧ PartsOk m t

/-! ### Messages without records -/

theorem checks_checkFunction (hm : m.length ≤ messageMaxlen) (h : size < 1000) :
    Checks (checkFunction size m) (Inside m 0 size) := by
  refine ⟨_, rfl, fun ht => ?_⟩
  exact (verifyLength_iff hm (by omega)).mp ht

theorem checks_strictCheckFunction (hm : m.length ≤ messageMaxlen) (h : size < 1000) :
    Checks (strictCheckFunction size m) (Inside m 0 size) := by
  refine ⟨_, rfl, fun ht => ?_⟩
  rw [Bool.and_eq_true] at ht
  exact (verifyLength_iff hm (by omega)).mp ht.1

/-- `buffer_strlen` stays in the bytes that it is given, and a result below their number is a NUL byte. -/
theorem bufferStrlen_spec (m : Bytes) (off : ℕ) (n : ℤ) (h : off + n.toNat ≤ m.length) :
    ∃ s, bufferStrlen m off n = some s ∧ (s < n → HasNul m off n.toNat) := by
  obtain ⟨r, hr⟩ := scan_inside m off n.toNat h
  refine ⟨_, congrArg _ hr, fun hlt => ?_⟩
  cases r with
  | none => exact absurd hlt (Int.lt_irrefl n)
  | some p => exact (scan_isSome_iff hr).mp rfl

section

variable (hm : m.length ≤ messageMaxlen)
include hm

theorem checks_verifyPath {used : ℕ} (h : Inside m base used) :
    Checks (verifyPath m base used) (StringAt m (base + used)) := by
  have hin := h
  unfold Inside csumLen at hin
  rw [verifyPath, payloadLen_eq hm (h.mono (by omega))]
  refine checks_need fun hlt => ?_
  have hlen : ((m.length : ℤ) - base - csumLen - used).toNat = m.length - csumLen - (base + used) := by
    unfold csumLen
    omega
  obtain ⟨s, hs, hnul⟩ := bufferStrlen_spec m (base + used)
    ((m.length : ℤ) - base - csumLen - used) (by unfold csumLen; omega)
  rw [hlen] at hnul
  refine Checks.bind (hs : bufferStrlen m (base + (used : ℤ).toNat) _ = some s) ?_
  exact checks_decide fun hd => hnul hd.1

/-- Two parts of a payload, one behind the other, with their lengths read as ints. -/
theorem checks_parts {a b : ℕ} (hb : base < 1000) (ha : a < 4294967296) (hb' : b < 4294967296) (c : Bool) :
    Checks (need (verifyBuffer m base 0 (int a) = true) <| need (verifyBuffer m base (int a) (int b) = true) <|
      some c) (Inside m base (a + b)) := by
  have hia := int_natCast ha
  have hib := int_natCast hb'
  refine checks_need fun _ => checks_need fun h => ⟨c, rfl, fun _ => ?_⟩
  obtain ⟨h₀, h₁, hin⟩ := (verifyBuffer_iff hm hb (by omega) (by omega)).mp h
  rcases hia with ⟨hia, -⟩ | ⟨hia, -⟩
  · rcases hib with ⟨hib, -⟩ | ⟨hib, -⟩
    · rw [hia, hib] at hin
      exact hin
    · omega
  · omega

theorem checks_challengereply :
    Checks (verifyChallengereply m) (Inside m 0 20 ∧ Inside m 20 (u32 m 12 + u32 m 16)) := by
  refine checks_need fun h => ?_
  have hin : Inside m 0 20 := (verifyLength_iff hm (by decide)).mp h
  have hlen : 0 + 20 + 4 ≤ m.length := hin
  refine Checks.bind (readU32_eq (by omega)) (Checks.bind (readU32_eq (by omega)) ?_)
  exact (checks_parts hm (by decide) (u32_lt (m := m) 12) (u32_lt (m := m) 16) _).mono fun hp => ⟨hin, hp⟩

theorem checks_challenge : Checks (verifyChallenge m) (Inside m 0 16 ∧ Inside m 16 (u32 m 8 + u32 m 12)) := by
  refine checks_need fun h => ?_
  have hin : Inside m 0 16 := (verifyLength_iff hm (by decide)).mp h
  have hlen : 0 + 16 + 4 ≤ m.length := hin
  refine Checks.bind (readU32_eq (by omega)) (Checks.bind (readU32_eq (by omega)) ?_)
  exact (checks_parts hm (by decide) (u32_lt (m := m) 8) (u32_lt (m := m) 12) _).mono fun hp => ⟨hin, hp⟩

theorem checks_authdata : Checks (verifyAuthdata m) (Sound .authdata m) := by
  refine checks_need fun h => ?_
  have hin : Inside m 0 8 := (verifyLength_iff hm (by decide)).mp h
  have hlen : 4 + 4 ≤ m.length := by
    unfold Inside at hin
    omega
  refine Checks.bind (readU32_eq hlen) ?_
  split
  · rename_i htr
    exact checks_true ⟨hin, fun h2 => by omega, fun h3 => by omega⟩
  · split
    · rename_i h2
      exact (checks_challenge hm).mono fun hc => ⟨hin, fun _ => hc, fun h3 => by omega⟩
    · split
      · exact (checks_challengereply hm).mono fun hc => ⟨hin, fun h2 => by omega, fun _ => hc⟩
      · exact checks_false

theorem checks_csumrequest : Checks (verifyCsumrequest m) (Sound .csumrequest m) := by
  refine checks_need fun h => ?_
  have hin : Inside m 0 18 := (verifyLength_iff hm (by decide)).mp h
  have hlen : 0 + 18 + 4 ≤ m.length := hin
  refine Checks.bind (readU32_eq (by omega)) ?_
  split
  · rename_i hadd
    refine checks_need fun h' => ?_
    have hin' : Inside m 0 20 := (verifyLength_iff hm (by decide)).mp h'
    have hlen' : 0 + 20 + 4 ≤ m.length := hin'
    refine Checks.bind (readU16_eq (by omega)) (Checks.bind (readU16_eq (by omega)) ?_)
    refine checks_need fun _ => checks_need fun _ => checks_need fun hbuf => ?_
    have hid := u16_lt (m := m) 16
    have hcs := u16_lt (m := m) 18
    obtain ⟨-, -, hpay⟩ := (verifyBuffer_iff hm (by decide) (by omega) (by omega)).mp hbuf
    simp only [Int.toNat_natCast] at hpay
    refine (checks_verifyPath hm hpay).mono fun hs => ⟨hin, fun _ => ⟨hin', hpay, hs⟩, fun hno => absurd hadd hno⟩
  · rename_i hother
    refine Checks.bind (readU16_eq (by omega)) (checks_need fun hbuf => ?_)
    have hid := u16_lt (m := m) 16
    obtain ⟨-, -, hpay⟩ := (verifyBuffer_iff hm (by decide) (by omega) (by omega)).mp hbuf
    simp only [Int.toNat_natCast, Int.toNat_zero, zero_add] at hpay
    exact (checks_verifyPath hm hpay).mono fun hs => ⟨hin, fun hadd => absurd hadd hother, fun _ => ⟨hpay, hs⟩⟩

theorem checks_passphrase : Checks (verifyPassphrase m) (Sound .passphrase m) := by
  refine checks_need fun h => ?_
  have hin : Inside m 0 4 := (verifyLength_iff hm (by decide)).mp h
  have hlen : 0 + 4 + 4 ≤ m.length := hin
  have hplen : (payloadLen m 4).toNat = m.length - csumLen - 4 := by
    rw [payloadLen_eq hm hin]
    unfold csumLen
    omega
  obtain ⟨s, hs, hnul⟩ := bufferStrlen_spec m 4 (payloadLen m 4) (by unfold csumLen at hplen; omega)
  rw [hplen] at hnul
  refine Checks.bind hs ?_
  exact checks_decide fun hd => ⟨hin, hnul hd.1⟩

theorem checks_pgcommit : Checks (verifyPgcommit m) (Sound .pgcommit m) := by
  refine checks_need fun h => ?_
  have hin : Inside m 0 17 := (verifyLength_iff hm (by decide)).mp h
  have hlen : 0 + 17 + 4 ≤ m.length := hin
  have hplen : (payloadLen m 17).toNat = m.length - csumLen - 17 := by
    rw [payloadLen_eq hm hin]
    unfold csumLen
    omega
  rw [hplen]
  obtain ⟨r, hr⟩ := scan_inside m 17 (m.length - csumLen - 17) (by unfold csumLen; omega)
  refine Checks.bind hr ?_
  exact ⟨_, rfl, fun ht => ⟨hin, (scan_isSome_iff hr).mp ht⟩⟩

end

/-! ### Notify messages -/

theorem notifybuffer_eq (hm : m.length ≤ messageMaxlen) (hin : Inside m 0 72) (hf : field < 69) :
    verifyNotifybuffer m field = some (verifyBuffer m 72 (u16 m field) (u16 m (field + 2))) ∧
      (verifyBuffer m 72 (u16 m field) (u16 m (field + 2)) = true →
        Inside m 72 (u16 m field + u16 m (field + 2))) := by
  have hlen : 0 + 72 + 4 ≤ m.length := hin
  have hoff := u16_lt (m := m) field
  have hl := u16_lt (m := m) (field + 2)
  refine ⟨?_, fun h => ?_⟩
  · rw [verifyNotifybuffer, readU16_eq (by omega), readU16_eq (by omega)]
    rfl
  · exact ((verifyBuffer_iff hm (by decide) (by omega) (by omega)).mp h).2.2

theorem checks_notifybuffer (hm : m.length ≤ messageMaxlen) (hin : Inside m 0 72) (hf : field < 69) :
    Checks (verifyNotifybuffer m field) (Inside m 72 (u16 m field + u16 m (field + 2))) := by
  obtain ⟨heq, hb⟩ := notifybuffer_eq hm hin hf
  exact ⟨_, heq, hb⟩

theorem checks_notifystring (hm : m.length ≤ messageMaxlen) (hin : Inside m 0 72) (hf : field < 69) :
    Checks (verifyNotifystring m field) (Inside m 72 (u16 m field + u16 m (field + 2)) ∧
      (u16 m (field + 2) ≠ 0 → HasNul m (72 + u16 m field) (u16 m (field + 2)))) := by
  obtain ⟨heq, hb⟩ := notifybuffer_eq hm hin hf
  have hlen : 0 + 72 + 4 ≤ m.length := hin
  refine Checks.bind heq (checks_need fun hok => ?_)
  refine Checks.bind (readU16_eq (by omega)) (Checks.bind (readU16_eq (by omega)) ?_)
  have hbuf := hb hok
  rw [verifyNotifyString]
  split
  · rename_i h0
    exact checks_true ⟨hbuf, fun hne => absurd h0 hne⟩
  · obtain ⟨s, hs, hnul⟩ := bufferStrlen_spec m (72 + u16 m field) (u16 m (field + 2)) (by
      unfold Inside at hbuf
      simp only [Int.toNat_natCast]
      omega)
    rw [Int.toNat_natCast] at hnul
    refine Checks.bind hs ?_
    exact checks_decide fun hlt => ⟨hbuf, fun _ => hnul hlt⟩

theorem checks_notify (hm : m.length ≤ messageMaxlen) : Checks (verifyNotify m) (Inside m 0 72 ∧ NotifyOk m) := by
  refine checks_need fun h => ?_
  have hin : Inside m 0 72 := (verifyLength_iff hm (by decide)).mp h
  refine Checks.andThen (checks_notifybuffer hm hin (by decide)) fun hcsum => ?_
  refine Checks.andThen (checks_notifystring hm hin (by decide)) fun hpath => ?_
  refine Checks.andThen (checks_notifybuffer hm hin (by decide)) fun hctxcsum => ?_
  refine Checks.andThen (checks_notifystring hm hin (by decide)) fun hctxpath => ?_
  obtain ⟨b, hb, hev⟩ := checks_notifybuffer hm hin (show 68 < 69 by decide)
  refine Checks.bind hb ⟨b, rfl, fun ht => ⟨hin, ?_, ?_⟩⟩
  · simpa using ⟨hcsum, hpath.1, hctxcsum, hctxpath.1, hev ht⟩
  · simpa using ⟨hpath.2, hctxpath.2⟩

end Anoubis.MsgVerify

import Anoubis.Daemon.SizesMsg
import Anoubis.Proto.VerifyRecords

/-! csmulti requests, as the master reads them (`sfs.c`, `anoubis_alloc.c`).

    The master sees the request as a buffer and opens the records in it one after the other. The accessors of
    a buffer assert that they stay in it: a failed assertion ends the daemon, and is `none` here, as is a read
    outside of the message.

        │ type, operation, uid, idlen, recoff │ key ID │ padding │ length, index, cslen │ checksum │ path 0 …
        0                                     16       16 + idlen  16 + recoff                              -/

namespace Anoubis.Daemon.Csmulti

open List

open Anoubis.Lib Option
open Anoubis.Connection (Bytes u16 u32 csumLen)
open Anoubis.Pe (csLen)
open Anoubis.MsgVerify (readU16 readU32 readU16_eq readU32_eq u16_lt u32_lt opAddsum opAddsig opGet2 opGetsig2 opDel
  opDelsig)
open Anoubis.Daemon.Sizes (csmultirequest)

/-! ### Buffers -/

/-- struct abuf_buffer: a part of the message. -/
structure Abuf where
  data : ℕ
  length : ℕ
  deriving DecidableEq

/-- `__abuf_check`, in unsigned ints; `none` is a failed ASSERT_MEM. -/
def abufCheck (buf : Abuf) (off len : ℕ) : Option Unit :=
  if off ≤ buf.length ∧ len ≤ buf.length ∧ (off + len) % 4294967296 ≤ buf.length then some () else none

/-- `abuf_open`. -/
def abufOpen (buf : Abuf) (off : ℕ) : Option Abuf :=
  if off ≤ buf.length then some ⟨buf.data + off, buf.length - off⟩ else none

/-- `abuf_limit`. -/
def abufLimit (buf : Abuf) (len : ℕ) : Abuf := if len < buf.length then { buf with length := len } else buf

/-- The bytes of a buffer. -/
def contents (m : Bytes) (buf : Abuf) : Bytes := (m.drop buf.data).take buf.length

/-- `abuf_tostr`: the string at an offset, or NULL where it does not end in the buffer. -/
def abufTostr (m : Bytes) (buf : Abuf) (off : ℕ) : Option (Option Bytes) :=
  (scan m (buf.data + off) (buf.length - off)).map fun r =>
    r.map fun p => (m.drop (buf.data + off)).take (p - (buf.data + off))

/-! ### Requests -/

/-- Error codes, as `sfs_parse_csmulti` returns them. -/
def efault : ℤ := -14
def einval : ℤ := -22
def eperm : ℤ := -1
def epermNoCertificate : ℤ := -1024
def epermUidMismatch : ℤ := -1025

/-- struct sfs_csmulti_record. -/
structure CsmultiRecord where
  index : ℕ
  csdata : Bytes
  path : Bytes
  deriving DecidableEq

/-- The fields of a struct sfs_checksumop that a csmulti request sets. -/
structure Checksumop where
  op : ℕ
  authUid : ℕ
  uid : ℕ
  keyid : Bytes
  csmulti : List CsmultiRecord
  deriving DecidableEq

/-- The operations of a csmulti request. -/
def known (op : ℕ) : Bool :=
  decide (op = opAddsum ∨ op = opAddsig ∨ op = opGet2 ∨ op = opGetsig2 ∨ op = opDel ∨ op = opDelsig)

def isAdd (op : ℕ) : Bool := decide (op = opAddsum ∨ op = opAddsig)

/-- The validation checks, for the owner `certUid` of the certificate of a key ID: an error, or none. -/
def validate (certUid : Bytes → Option ℕ) (keyid : Bytes) (uid authUid : ℕ) : Option ℤ :=
  if keyid ≠ [] then
    (certUid keyid).elim (some epermNoCertificate) fun owner =>
      if owner ≠ authUid ∧ authUid ≠ 0 then some epermUidMismatch else none
  else if uid ≠ authUid ∧ authUid ≠ 0 then some eperm
  else none

/-- The first loop of `sfs_parse_csmulti`: the number of records. -/
def countRecords (m : Bytes) (mbuf : Abuf) : ℕ → ℕ → ℕ → Option (Except ℤ ℕ)
  | 0, _, _ => none
  | fuel + 1, off2, nrec => do
    let rbuf ← abufOpen mbuf off2
    abufCheck rbuf 0 8
    let len ← readU32 m rbuf.data
    if len = 0 then some (.ok nrec)
    else if len > rbuf.length then some (.error efault)
    else countRecords m mbuf fuel (off2 + len) (nrec + 1)

/-- The lengths of the checksum that an operation takes. -/
def cslenOk (op cslen : ℕ) : Bool :=
  if cslen ≠ 0 then
    if op = opAddsum then decide (cslen = csLen) else if op = opAddsig then decide (csLen ≤ cslen) else false
  else ! isAdd op

/-- One record of the second loop of `sfs_parse_csmulti`, with its length. -/
def fillRecord (m : Bytes) (op : ℕ) (rbuf : Abuf) : Option (Except ℤ (CsmultiRecord × ℕ)) := do
  abufCheck rbuf 0 8
  let len ← readU32 m rbuf.data
  if len < 8 then some (.error efault)
  else if (abufLimit rbuf len).length < len then some (.error efault)
  else do
    let rbuf := abufLimit rbuf len
    let index ← readU16 m (rbuf.data + 4)
    let cslen ← readU16 m (rbuf.data + 6)
    if ! cslenOk op cslen then some (.error einval)
    else do
      let pbuf ← abufOpen rbuf 8
      let csdata := abufLimit pbuf cslen
      if csdata.length ≠ cslen then some (.error efault)
      else do
        let path ← abufTostr m rbuf (8 + cslen)
        some (path.elim (.error efault) fun path => .ok (⟨index, contents m csdata, path⟩, len))

/-- The second loop of `sfs_parse_csmulti`. -/
def fillRecords (m : Bytes) (op : ℕ) (mbuf : Abuf) : ℕ → ℕ → Option (Except ℤ (List CsmultiRecord))
  | 0, _ => some (.ok [])
  | n + 1, off => do
    let rbuf ← abufOpen mbuf off
    let rec' ← fillRecord m op rbuf
    match rec' with
    | .error e => some (.error e)
    | .ok (r, len) => do
      let rest ← fillRecords m op mbuf n (off + len)
      some (rest.map fun rs => r :: rs)

/-- `sfs_parse_csmulti`, where memory does not run out. -/
def sfsParseCsmulti (certUid : Bytes → Option ℕ) (m : Bytes) (mbuf : Abuf) (authUid : ℕ) :
    Option (Except ℤ Checksumop) := do
  abufCheck mbuf 0 16
  let type ← readU32 m mbuf.data
  if type ≠ csmultirequest then some (.error einval)
  else do
    let op ← readU32 m (mbuf.data + 4)
    if ! known op then some (.error einval)
    else do
      let uid ← readU32 m (mbuf.data + 8)
      let idlen ← readU16 m (mbuf.data + 12)
      if idlen ≠ 0 ∧ uid ≠ 0 then some (.error einval)
      else do
        let keyid ← abufOpen mbuf 16
        if keyid.length < idlen then some (.error efault)
        else do
          let keyid := contents m (abufLimit keyid idlen)
          match validate certUid keyid uid authUid with
          | some e => some (.error e)
          | none => do
            match ← countRecords m mbuf (m.length + 1) (16 + idlen) 0 with
            | .error e => some (.error e)
            | .ok nrec => do
              let recs ← fillRecords m op mbuf nrec (16 + idlen)
              some (recs.map fun recs => ⟨op, authUid, uid, keyid, recs⟩)

/-! ### What stands in the message -/

variable {m : Bytes} {op off r n fuel nrec : ℕ} {rs rs' : List ℕ}

/-- The records from `off` on, up to one of the length zero, all in the first `n` bytes. -/
inductive RecordsIn (m : Bytes) (n : ℕ) : ℕ → List ℕ → Prop where
  | stop {off : ℕ} (header : off + 8 ≤ n) (last : u32 m off = 0) : RecordsIn m n off []
  | record {off : ℕ} {rs : List ℕ} (header : off + 8 ≤ n) (more : u32 m off ≠ 0) (fits : off + u32 m off ≤ n)
      (rest : RecordsIn m n (off + u32 m off) rs) : RecordsIn m n off (off :: rs)

/-- From `off` on one gets to the last seven bytes, where no header fits. -/
inductive Truncated (m : Bytes) (n : ℕ) : ℕ → Prop where
  | here {off : ℕ} (le : off ≤ n) (short : n < off + 8) : Truncated m n off
  | record {off : ℕ} (header : off + 8 ≤ n) (more : u32 m off ≠ 0) (rest : Truncated m n (off + u32 m off)) :
      Truncated m n off

/-- From `off` on one gets to a record that is longer than what is left. -/
inductive Overlong (m : Bytes) (n : ℕ) : ℕ → Prop where
  | here {off : ℕ} (header : off + 8 ≤ n) (long : n < off + u32 m off) : Overlong m n off
  | record {off : ℕ} (header : off + 8 ≤ n) (more : u32 m off ≠ 0) (rest : Overlong m n (off + u32 m off)) :
      Overlong m n off

/-- The string at `off`. -/
def stringAt (m : Bytes) (off : ℕ) : Bytes := (m.drop off).takeWhile (· ≠ 0)

/-- The record at `r` as the message has it. -/
def recordAt (m : Bytes) (r : ℕ) : CsmultiRecord :=
  ⟨u16 m (r + 4), (m.drop (r + 8)).take (u16 m (r + 6)), stringAt m (r + 8 + u16 m (r + 6))⟩

/-- A record that the operation can work with. -/
structure Fits (m : Bytes) (op r : ℕ) : Prop where
  header : 8 ≤ u32 m r
  cslen : cslenOk op (u16 m (r + 6)) = true
  checksum : 8 + u16 m (r + 6) ≤ u32 m r
  path : HasNul m (r + 8 + u16 m (r + 6)) (u32 m r - (8 + u16 m (r + 6)))

theorem Truncated.le (h : Truncated m n off) : off ≤ n := by
  cases h with
  | here le short => exact le
  | record header more rest => omega

theorem RecordsIn.unique (h : RecordsIn m n off rs) (h' : RecordsIn m n off rs') : rs = rs' := by
  induction h generalizing rs' with
  | stop _ last =>
    cases h' with
    | stop => rfl
    | record _ more => exact absurd last more
  | record _ more _ _ ih =>
    cases h' with
    | stop _ last => exact absurd last more
    | record _ _ _ rest => rw [ih rest]

theorem RecordsIn.not_truncated (h : RecordsIn m n off rs) : ¬ Truncated m n off := by
  induction h with
  | stop header last =>
    intro ht
    cases ht with
    | here _ short => omega
    | record _ more => exact absurd last more
  | record header more _ _ ih =>
    intro ht
    cases ht with
    | here _ short => omega
    | record _ _ rest => exact ih rest

theorem Overlong.not_truncated (h : Overlong m n off) : ¬ Truncated m n off := by
  induction h with
  | here header long =>
    intro ht
    cases ht with
    | here _ short => omega
    | record _ _ rest =>
      have := rest.le
      omega
  | record header more _ ih =>
    intro ht
    cases ht with
    | here _ short => omega
    | record _ _ rest => exact ih rest

theorem Overlong.not_records (h : Overlong m n off) : ¬ RecordsIn m n off rs := by
  induction h generalizing rs with
  | here header long =>
    intro hr
    cases hr with
    | stop _ last => omega
    | record _ _ fits => omega
  | record header more _ ih =>
    intro hr
    cases hr with
    | stop _ last => exact absurd last more
    | record _ _ _ rest => exact ih rest

/-- From a position in the message one gets to the end of the records, or to one of the two other ends. -/
theorem records_or (hoff : off ≤ n) : (∃ rs, RecordsIn m n off rs) ∨ Truncated m n off ∨ Overlong m n off := by
  obtain ⟨k, hk⟩ : ∃ k, n - off < k := ⟨_, Nat.lt_succ_self _⟩
  induction k generalizing off with
  | zero => omega
  | succ k ih =>
    by_cases hhead : off + 8 ≤ n
    · by_cases hlast : u32 m off = 0
      · exact .inl ⟨[], .stop hhead hlast⟩
      · by_cases hfit : off + u32 m off ≤ n
        · rcases ih hfit (by omega) with ⟨rs, hrs⟩ | ht | ho
          · exact .inl ⟨_, .record hhead hlast hfit hrs⟩
          · exact .inr (.inl (.record hhead hlast ht))
          · exact .inr (.inr (.record hhead hlast ho))
        · exact .inr (.inr (.here hhead (by omega)))
    · exact .inr (.inl (.here hoff (by omega)))

/-! ### The loops -/

theorem abufOpen_eq (h : off ≤ n) : abufOpen ⟨0, n⟩ off = some ⟨off, n - off⟩ := by
  rw [abufOpen, if_pos h, zero_add]

theorem abufCheck_eq (buf : Abuf) (len : ℕ) (hlen : buf.length < 4294967296) :
    abufCheck buf 0 len = if len ≤ buf.length then some () else none := by
  rw [abufCheck]
  by_cases h : len ≤ buf.length
  · rw [if_pos h, if_pos ⟨Nat.zero_le _, h, by omega⟩]
  · rw [if_neg h, if_neg fun hc => h hc.2.1]

/-- One step of the first loop. -/
theorem countRecords_step (hn : m.length < 2147483648) (hoff : off ≤ m.length) :
    countRecords m ⟨0, m.length⟩ (fuel + 1) off nrec =
      if m.length < off + 8 then none
      else if u32 m off = 0 then some (.ok nrec)
      else if m.length < off + u32 m off then some (.error efault)
      else countRecords m ⟨0, m.length⟩ fuel (off + u32 m off) (nrec + 1) := by
  have hopen := abufOpen_eq hoff
  have hcheck := abufCheck_eq ⟨off, m.length - off⟩ 8 (by dsimp only; omega)
  rw [countRecords, hopen, bind_eq_bind, bind_some, hcheck]
  by_cases h8 : off + 8 ≤ m.length
  · rw [if_pos (by dsimp only; omega), if_neg (by omega)]
    simp only [readU32_eq (show off + 4 ≤ m.length by omega), bind_eq_bind, bind_some]
    have hiff : u32 m off > m.length - off ↔ m.length < off + u32 m off := by omega
    simp only [hiff]
  · rw [if_neg (by dsimp only; omega), if_pos (by omega)]
    rfl

theorem countRecords_records (hn : m.length < 2147483648) (h : RecordsIn m m.length off rs)
    (hf : m.length - off < fuel) : countRecords m ⟨0, m.length⟩ fuel off nrec = some (.ok (nrec + rs.length)) := by
  induction h generalizing fuel nrec with
  | stop header last =>
    cases fuel with
    | zero => omega
    | succ fuel => rw [countRecords_step hn (by omega), if_neg (by omega), if_pos last, length_nil, add_zero]
  | record header more fits rest ih =>
    cases fuel with
    | zero => omega
    | succ fuel =>
      rw [countRecords_step hn (by omega), if_neg (by omega), if_neg more, if_neg (by omega), ih (by omega),
        length_cons, add_assoc, add_comm 1]

/-- The first loop asserts a header in the last bytes of the message. -/
theorem countRecords_truncated (hn : m.length < 2147483648) (h : Truncated m m.length off) :
    countRecords m ⟨0, m.length⟩ fuel off nrec = none := by
  induction h generalizing fuel nrec with
  | here le short =>
    cases fuel with
    | zero => rfl
    | succ fuel => rw [countRecords_step hn le, if_pos short]
  | record header more rest ih =>
    cases fuel with
    | zero => rfl
    | succ fuel =>
      have := rest.le
      rw [countRecords_step hn (by omega), if_neg (by omega), if_neg more, if_neg (by omega), ih]

theorem countRecords_overlong (hn : m.length < 2147483648) (h : Overlong m m.length off)
    (hf : m.length - off < fuel) : countRecords m ⟨0, m.length⟩ fuel off nrec = some (.error efault) := by
  induction h generalizing fuel nrec with
  | here header long =>
    cases fuel with
    | zero => omega
    | succ fuel => rw [countRecords_step hn (by omega), if_neg (by omega), if_neg (by omega), if_pos long]
  | @record off' header more rest ih =>
    cases fuel with
    | zero => omega
    | succ fuel =>
      by_cases hfit : m.length < off' + u32 m off'
      · rw [countRecords_step hn (by omega), if_neg (by omega), if_neg more, if_pos hfit]
      · rw [countRecords_step hn (by omega), if_neg (by omega), if_neg more, if_neg hfit, ih (by omega)]

/-- The bytes up to the first NUL byte. -/
theorem stringAt_eq {p : ℕ} (h : FirstNul m off p) : (m.drop off).take (p - off) = stringAt m off := by
  have hlt := h.lt_length
  have hle := h.le
  have hsplit : m.drop off = (m.drop off).take (p - off) ++ m.drop p := by
    have := take_append_drop (p - off) (m.drop off)
    rw [drop_drop, show off + (p - off) = p by omega] at this
    exact this.symm
  have hnul : m.drop p = 0 :: m.drop (p + 1) := by
    rw [drop_eq_getElem_cons hlt]
    have := h.nul
    rw [getElem?_eq_getElem hlt] at this
    rw [some.inj this]
  have hall : ∀ b ∈ (m.drop off).take (p - off), b ≠ 0 := by
    intro b hb
    obtain ⟨i, hi, rfl⟩ := mem_iff_getElem.mp hb
    rw [length_take, length_drop] at hi
    rw [getElem_take, getElem_drop]
    intro h0
    refine h.first (off + i) (by omega) (by omega) ?_
    rw [getElem?_eq_getElem (by omega), h0]
  rw [stringAt]
  conv_rhs => rw [hsplit, hnul]
  rw [takeWhile_append_of_pos (by simpa using hall), takeWhile_cons_of_neg (by simp), append_nil]

theorem abufTostr_eq (buf : Abuf) (off : ℕ) (h : buf.data + buf.length ≤ m.length) (hoff : off ≤ buf.length) :
    (HasNul m (buf.data + off) (buf.length - off) → abufTostr m buf off = some (some (stringAt m (buf.data + off)))) ∧
    (¬ HasNul m (buf.data + off) (buf.length - off) → abufTostr m buf off = some none) := by
  obtain ⟨r, hr⟩ := scan_inside m (buf.data + off) (buf.length - off) (by omega)
  have hiff := scan_isSome_iff hr
  rw [abufTostr, hr]
  cases r with
  | none =>
    refine ⟨fun hn => ?_, fun _ => rfl⟩
    have hsome := hiff.mpr hn
    cases hsome
  | some p =>
    refine ⟨fun _ => ?_, fun hno => absurd (hiff.mp rfl) hno⟩
    have hp := (scan_some hr).1
    simp only [map_some, stringAt_eq hp]

theorem abufLimit_length (buf : Abuf) (len : ℕ) : (abufLimit buf len).length = min len buf.length := by
  rw [abufLimit]
  split
  · exact (Nat.min_eq_left (by dsimp only; omega)).symm
  · exact (Nat.min_eq_right (by omega)).symm

theorem abufLimit_data (buf : Abuf) (len : ℕ) : (abufLimit buf len).data = buf.data := by
  rw [abufLimit]
  split <;> rfl

theorem abufLimit_eq {buf : Abuf} {len : ℕ} (h : len ≤ buf.length) : abufLimit buf len = ⟨buf.data, len⟩ := by
  have hlen := abufLimit_length buf len
  rw [Nat.min_eq_left h] at hlen
  have hdata := abufLimit_data buf len
  revert hlen hdata
  cases abufLimit buf len
  rintro rfl rfl
  rfl

/-- One step of the second loop, at a record that the first loop has seen. -/
theorem fillRecord_spec (op : ℕ) (hn : m.length < 2147483648) (hhead : r + 8 ≤ m.length) (hfit : r + u32 m r ≤ m.length) :
    (Fits m op r → fillRecord m op ⟨r, m.length - r⟩ = some (.ok (recordAt m r, u32 m r))) ∧
    (¬ Fits m op r → ∃ e, fillRecord m op ⟨r, m.length - r⟩ = some (.error e)) := by
  have hcheck := abufCheck_eq ⟨r, m.length - r⟩ 8 (by dsimp only; omega)
  rw [if_pos (by dsimp only; omega)] at hcheck
  have hlim : abufLimit ⟨r, m.length - r⟩ (u32 m r) = ⟨r, u32 m r⟩ := abufLimit_eq (by dsimp only; omega)
  rw [fillRecord, hcheck]
  simp only [bind_eq_bind, bind_some, readU32_eq (show r + 4 ≤ m.length by omega), hlim,
    readU16_eq (show r + 4 + 2 ≤ m.length by omega), readU16_eq (show r + 6 + 2 ≤ m.length by omega)]
  by_cases h8 : u32 m r < 8
  · rw [if_pos h8]
    exact ⟨fun h => absurd h.header (by omega), fun _ => ⟨_, rfl⟩⟩
  rw [if_neg h8, if_neg (Nat.lt_irrefl _)]
  by_cases hcs : cslenOk op (u16 m (r + 6)) = true
  swap
  · rw [if_pos (by simpa using hcs)]
    exact ⟨fun h => absurd h.cslen hcs, fun _ => ⟨_, rfl⟩⟩
  have hopen : abufOpen ⟨r, u32 m r⟩ 8 = some ⟨r + 8, u32 m r - 8⟩ := by
    rw [abufOpen, if_pos (by dsimp only; omega)]
  rw [if_neg (by simpa using hcs), hopen]
  simp only [bind_some]
  by_cases hlen : 8 + u16 m (r + 6) ≤ u32 m r
  swap
  · rw [if_pos (by rw [abufLimit_length]; dsimp only; omega)]
    exact ⟨fun h => absurd h.checksum hlen, fun _ => ⟨_, rfl⟩⟩
  have hlim' : abufLimit ⟨r + 8, u32 m r - 8⟩ (u16 m (r + 6)) = ⟨r + 8, u16 m (r + 6)⟩ :=
    abufLimit_eq (by dsimp only; omega)
  rw [hlim', if_neg (fun h => h rfl)]
  obtain ⟨hyes, hno⟩ := abufTostr_eq ⟨r, u32 m r⟩ (8 + u16 m (r + 6)) hfit hlen
  dsimp only at hyes hno
  rw [← Nat.add_assoc] at hyes hno
  by_cases hnul : HasNul m (r + 8 + u16 m (r + 6)) (u32 m r - (8 + u16 m (r + 6)))
  · rw [hyes hnul]
    exact ⟨fun _ => rfl, fun h => absurd ⟨by omega, hcs, hlen, hnul⟩ h⟩
  · rw [hno hnul]
    exact ⟨fun h => absurd h.path hnul, fun _ => ⟨_, rfl⟩⟩

/-- The second loop reads the records that the first one has counted. -/
theorem fillRecords_spec (op : ℕ) (hn : m.length < 2147483648) (h : RecordsIn m m.length off rs) :
    ((∀ r ∈ rs, Fits m op r) → fillRecords m op ⟨0, m.length⟩ rs.length off = some (.ok (rs.map (recordAt m)))) ∧
    (¬ (∀ r ∈ rs, Fits m op r) → ∃ e, fillRecords m op ⟨0, m.length⟩ rs.length off = some (.error e)) := by
  induction h with
  | stop => exact ⟨fun _ => rfl, fun hno => absurd (fun r hr => absurd hr not_mem_nil) hno⟩
  | @record off' rs header more fits rest ih =>
    have hspec := fillRecord_spec op hn header fits
    rw [length_cons, fillRecords, abufOpen_eq (by omega), bind_eq_bind, bind_some]
    by_cases hfit : Fits m op off'
    · rw [hspec.1 hfit]
      simp only [bind_eq_bind, bind_some]
      refine ⟨fun hall => ?_, fun hno => ?_⟩
      · rw [ih.1 fun r hr => hall r (mem_cons_of_mem _ hr)]
        rfl
      · obtain ⟨e, he⟩ := ih.2 fun hall => hno (forall_mem_cons.mpr ⟨hfit, hall⟩)
        exact ⟨e, by rw [he]; rfl⟩
    · obtain ⟨e, he⟩ := hspec.2 hfit
      refine ⟨fun hall => absurd (hall off' mem_cons_self) hfit, fun _ => ⟨e, ?_⟩⟩
      rw [he]
      rfl

/-! ### The parser -/

variable {certUid : Bytes → Option ℕ} {authUid : ℕ}

/-- The key ID of a request. -/
def keyidOf (m : Bytes) : Bytes := (m.drop 16).take (u16 m 12)

/-- The parser gets to the records: type and user ID fit, and the user may use the key or the user ID. -/
structure Served (certUid : Bytes → Option ℕ) (m : Bytes) (authUid : ℕ) : Prop where
  type : u32 m 0 = csmultirequest
  uid : ¬ (u16 m 12 ≠ 0 ∧ u32 m 8 ≠ 0)
  allowed : validate certUid (keyidOf m) (u32 m 8) authUid = none

/-- What the parser does before it looks at the records. -/
theorem sfsParseCsmulti_eq (hn : m.length < 2147483648) (hlen : 16 + u16 m 12 ≤ m.length)
    (hop : known (u32 m 4) = true) :
    (Served certUid m authUid → sfsParseCsmulti certUid m ⟨0, m.length⟩ authUid =
      (countRecords m ⟨0, m.length⟩ (m.length + 1) (16 + u16 m 12) 0).bind fun c =>
        c.casesOn (fun e => some (.error e)) fun nrec =>
          (fillRecords m (u32 m 4) ⟨0, m.length⟩ nrec (16 + u16 m 12)).bind fun recs =>
            some (recs.map fun recs => ⟨u32 m 4, authUid, u32 m 8, keyidOf m, recs⟩)) ∧
    (¬ Served certUid m authUid →
      ∃ e, sfsParseCsmulti certUid m ⟨0, m.length⟩ authUid = some (.error e)) := by
  have hcheck := abufCheck_eq ⟨0, m.length⟩ 16 (by dsimp only; omega)
  rw [if_pos (by dsimp only; omega)] at hcheck
  have hkey : contents m (abufLimit ⟨16, m.length - 16⟩ (u16 m 12)) = keyidOf m := by
    rw [abufLimit_eq (by dsimp only; omega), contents, keyidOf]
  rw [sfsParseCsmulti, hcheck]
  simp only [bind_eq_bind, bind_some, readU32_eq (show 0 + 4 ≤ m.length by omega),
    readU32_eq (show 0 + 4 + 4 ≤ m.length by omega), readU32_eq (show 0 + 8 + 4 ≤ m.length by omega),
    readU16_eq (show 0 + 12 + 2 ≤ m.length by omega), zero_add]
  by_cases htype : u32 m 0 = csmultirequest
  swap
  · rw [if_pos htype]
    exact ⟨fun hs => absurd hs.type htype, fun _ => ⟨_, rfl⟩⟩
  rw [if_neg (fun h => h htype), if_neg (by simp [hop])]
  by_cases huid : u16 m 12 ≠ 0 ∧ u32 m 8 ≠ 0
  · rw [if_pos huid]
    exact ⟨fun hs => absurd huid hs.uid, fun _ => ⟨_, rfl⟩⟩
  rw [if_neg huid, abufOpen_eq (by omega)]
  simp only [bind_some]
  rw [if_neg (by omega), hkey]
  cases hval : validate certUid (keyidOf m) (u32 m 8) authUid with
  | some e => exact ⟨fun hs => (by simp [hs.allowed] at hval), fun _ => ⟨e, rfl⟩⟩
  | none =>
    refine ⟨fun _ => bind_congr fun c _ => ?_, fun hno => absurd ⟨htype, huid, hval⟩ hno⟩
    cases c <;> rfl

theorem sfsParseCsmulti_truncated (hn : m.length < 2147483648) (hlen : 16 + u16 m 12 ≤ m.length)
    (hop : known (u32 m 4) = true) (hs : Served certUid m authUid) (ht : Truncated m m.length (16 + u16 m 12)) :
    sfsParseCsmulti certUid m ⟨0, m.length⟩ authUid = none := by
  rw [(sfsParseCsmulti_eq hn hlen hop).1 hs, countRecords_truncated hn ht]
  rfl

theorem sfsParseCsmulti_overlong (hn : m.length < 2147483648) (hlen : 16 + u16 m 12 ≤ m.length)
    (hop : known (u32 m 4) = true) (hs : Served certUid m authUid) (ho : Overlong m m.length (16 + u16 m 12)) :
    sfsParseCsmulti certUid m ⟨0, m.length⟩ authUid = some (.error efault) := by
  rw [(sfsParseCsmulti_eq hn hlen hop).1 hs, countRecords_overlong hn ho (by omega)]
  rfl

/-- Where the bytes behind the key ID are records, the parser returns them or refuses one of them. -/
theorem sfsParseCsmulti_records (hn : m.length < 2147483648) (hlen : 16 + u16 m 12 ≤ m.length)
    (hop : known (u32 m 4) = true) (hs : Served certUid m authUid) (hr : RecordsIn m m.length (16 + u16 m 12) rs) :
    ((∀ r ∈ rs, Fits m (u32 m 4) r) → sfsParseCsmulti certUid m ⟨0, m.length⟩ authUid =
      some (.ok ⟨u32 m 4, authUid, u32 m 8, keyidOf m, rs.map (recordAt m)⟩)) ∧ (¬ (∀ r ∈ rs, Fits m (u32 m 4) r) →
      ∃ e, sfsParseCsmulti certUid m ⟨0, m.length⟩ authUid = some (.error e)) := by
  obtain ⟨hyes, hno⟩ := fillRecords_spec (u32 m 4) hn hr
  rw [(sfsParseCsmulti_eq hn hlen hop).1 hs, countRecords_records hn hr (by omega)]
  simp only [bind_some, zero_add]
  refine ⟨fun hall => ?_, fun hnot => ?_⟩
  · rw [hyes hall]
    rfl
  · obtain ⟨e, he⟩ := hno hnot
    exact ⟨e, by rw [he]; rfl⟩

end Anoubis.Daemon.Csmulti

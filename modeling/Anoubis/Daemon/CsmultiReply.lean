import Anoubis.Client.Csmulti
import Anoubis.Daemon.Sfs

/-! The bytes of a csmulti reply (`sfs_process_csmulti`, `verify_csmultireply`).

    When the master has executed the records it knows the length of the reply. It fills a buffer of this
    length, and the client checks what it gets:

        │ type │ operation │ error │ length index error data │ … │ 0 0 0 │
        0                          12                              totallen - 8

    The data of a record is what `sfs_checksumop` returns: entries with a type and a length, of which the last
    one has the type ANOUBIS_SIG_TYPE_EOT. -/

namespace Anoubis.Daemon.Sfs

open Anoubis.Lib List
open Anoubis.Connection (Bytes u16 u32 csumLen)
open Anoubis.MsgVerify Option
open Anoubis.Daemon.Csmulti (abufCheck known)
open Anoubis.Client (pCsmultireply)

/-! ### Filling the buffer -/

/-- `set_value` of an u16n. -/
def be16 (n : ℕ) : Bytes := [UInt8.ofNat (n / 256), UInt8.ofNat n]

/-- Bytes go into a buffer. A failed assertion in `__abuf_check` is `none`. -/
def store (buf : Bytes) (off : ℕ) (b : Bytes) : Option Bytes := do
  abufCheck ⟨0, buf.length⟩ off b.length
  some (buf.take off ++ b ++ buf.drop (off + b.length))

/-- length, index and error of an Anoubis_CSMultiReplyRecord. -/
def recordHead (length index : ℕ) (error : ℤ) : Bytes := be16 length ++ be16 index ++ be32 (uint error)

/-- The data of a record, if there is any. -/
def storeData (buf : Bytes) (off : ℕ) (data : Bytes) : Option Bytes :=
  if data = [] then some buf else store buf off data

/-- The loop that fills in the records, with the offset behind them. -/
def storeRecords : List (ℕ × ℤ × Bytes) → ℕ → Bytes → Option (ℕ × Bytes)
  | [], off, buf => some (off, buf)
  | (index, error, data) :: records, off, buf => do
    let length := 8 + data.length
    let buf ← store buf off (recordHead length index error)
    let buf ← storeData buf (off + 8) data
    storeRecords records (off + length) buf

/-- `totallen` behind the loop that executes the records. -/
def totallen (records : List (ℕ × ℤ × Bytes)) : ℕ :=
  records.foldl (fun total r => total + 8 + r.2.2.length) 12

/-- The second half of `sfs_process_csmulti`: the bytes of the reply. `mem` is what the memory holds before. -/
def csmultiReply (mem : ℕ → UInt8) (op : ℕ) (records : List (ℕ × ℤ × Bytes)) : Option Bytes := do
  let buf := (List.range (totallen records + 8)).map mem
  let buf ← store buf 0 (be32 pCsmultireply ++ be32 op ++ be32 0)
  let (off, buf) ← storeRecords records 12 buf
  store buf off (recordHead 0 0 0)

/-! ### What the reply says -/

/-- A record of the reply. -/
def recordBytes (r : ℕ × ℤ × Bytes) : Bytes := recordHead (8 + r.2.2.length) r.1 r.2.1 ++ r.2.2

/-- A reply: the records in order, and the zero sentinel. -/
def replyBytes (op : ℕ) (records : List (ℕ × ℤ × Bytes)) : Bytes :=
  be32 pCsmultireply ++ be32 op ++ be32 0 ++ records.flatMap recordBytes ++ recordHead 0 0 0

theorem length_recordHead (length index : ℕ) (error : ℤ) : (recordHead length index error).length = 8 := rfl

theorem length_recordBytes (r : ℕ × ℤ × Bytes) : (recordBytes r).length = 8 + r.2.2.length := by
  rw [recordBytes, length_append, length_recordHead]

variable {records : List (ℕ × ℤ × Bytes)} {buf : Bytes}

theorem foldl_totallen (total : ℕ) :
    records.foldl (fun total r => total + 8 + r.2.2.length) total = total + (records.flatMap recordBytes).length := by
  induction records generalizing total with
  | nil => rfl
  | cons r records ih =>
    rw [foldl_cons, ih, flatMap_cons, length_append, length_recordBytes]
    omega

theorem totallen_eq : totallen records = 12 + (records.flatMap recordBytes).length := foldl_totallen 12

/-- Bytes that fit replace as many. -/
theorem store_middle {p b old q : Bytes} (h : old.length = b.length) :
    store (p ++ (old ++ q)) p.length b = some (p ++ (b ++ q)) := by
  have hcheck : abufCheck ⟨0, (p ++ (old ++ q)).length⟩ p.length b.length = some () := by
    rw [abufCheck, if_pos]
    simp only [length_append]
    omega
  have hdrop : (p ++ (old ++ q)).drop (p.length + b.length) = q := by
    rw [← h, drop_append, drop_eq_nil_of_le (by omega), Nat.add_sub_cancel_left, drop_left, nil_append]
  rw [store, hcheck, take_left, hdrop, append_assoc]
  rfl

/-- The first bytes of a buffer, and the others. -/
theorem split_length {b : Bytes} {n : ℕ} (h : n ≤ b.length) : ∃ old q, b = old ++ q ∧ old.length = n :=
  ⟨b.take n, b.drop n, (take_append_drop n b).symm, by rw [length_take]; omega⟩

/-- A record is written where the buffer has room for it. -/
theorem storeRecord {p old q : Bytes} (r : ℕ × ℤ × Bytes) (h : old.length = (recordBytes r).length) :
    (store (p ++ (old ++ q)) p.length (recordHead (8 + r.2.2.length) r.1 r.2.1)).bind
      (fun buf => storeData buf (p.length + 8) r.2.2) = some (p ++ (recordBytes r ++ q)) := by
  rw [length_recordBytes] at h
  obtain ⟨head, data, rfl, hhead⟩ := split_length (b := old) (n := 8) (by omega)
  rw [length_append, hhead, Nat.add_left_cancel_iff] at h
  have hfirst := store_middle (p := p) (b := recordHead (8 + r.2.2.length) r.1 r.2.1) (q := data ++ q) hhead
  rw [append_assoc, hfirst, bind_some, storeData, recordBytes, append_assoc]
  by_cases hnil : r.2.2 = []
  · rw [hnil] at h ⊢
    obtain rfl := eq_nil_of_length_eq_zero h
    rw [if_pos rfl]
  · have hsecond := store_middle (p := p ++ recordHead (8 + r.2.2.length) r.1 r.2.1) (q := q) h
    rw [length_append, length_recordHead, append_assoc, append_assoc] at hsecond
    rw [if_neg hnil, hsecond]

/-- The records are written one behind the other. -/
theorem storeRecords_append {p old q : Bytes} (h : old.length = (records.flatMap recordBytes).length) :
    storeRecords records p.length (p ++ (old ++ q)) =
      some (p.length + old.length, p ++ (records.flatMap recordBytes ++ q)) := by
  induction records generalizing p old with
  | nil =>
    obtain rfl := eq_nil_of_length_eq_zero h
    rfl
  | cons r records ih =>
    rw [flatMap_cons, length_append] at h
    obtain ⟨first, rest, rfl, hfirst⟩ := split_length (b := old) (n := (recordBytes r).length) (by omega)
    rw [length_append, hfirst, Nat.add_left_cancel_iff] at h
    have hrecord := storeRecord (p := p) (q := rest ++ q) r hfirst
    have hrest := ih (p := p ++ recordBytes r) h
    rw [length_append, append_assoc, append_assoc, length_recordBytes] at hrest
    obtain ⟨index, error, data⟩ := r
    rw [storeRecords, append_assoc]
    simp only [bind_eq_bind]
    rw [← bind_assoc, hrecord, bind_some, hrest, length_append, hfirst, length_recordBytes,
      flatMap_cons, append_assoc, add_assoc]

/-- Every byte of the buffer is written, and no other. -/
theorem csmultiReply_eq (mem : ℕ → UInt8) (op : ℕ) (records : List (ℕ × ℤ × Bytes)) :
    csmultiReply mem op records = some (replyBytes op records) := by
  have hlen : ((List.range (totallen records + 8)).map mem).length = 12 + (records.flatMap recordBytes).length + 8 := by
    rw [length_map, length_range, totallen_eq]
  rw [csmultiReply]
  generalize (List.range (totallen records + 8)).map mem = buf at hlen
  obtain ⟨head, rest, rfl, hhead⟩ := split_length (b := buf) (n := 12) (by omega)
  rw [length_append, hhead] at hlen
  obtain ⟨body, last, rfl, hbody⟩ := split_length (b := rest) (n := (records.flatMap recordBytes).length) (by omega)
  rw [length_append, hbody] at hlen
  have hlast : last.length = 8 := by omega
  have hfirst : store ([] ++ (head ++ (body ++ last))) 0 (be32 pCsmultireply ++ be32 op ++ be32 0) = _ :=
    store_middle hhead
  have hrecs : storeRecords records 12 (be32 pCsmultireply ++ be32 op ++ be32 0 ++ (body ++ last)) = _ :=
    storeRecords_append (p := be32 pCsmultireply ++ be32 op ++ be32 0) hbody
  have hsentinel := store_middle (p := be32 pCsmultireply ++ be32 op ++ be32 0 ++ records.flatMap recordBytes)
    (b := recordHead 0 0 0) (q := []) hlast
  rw [append_nil, append_nil, append_assoc, length_append, ← hbody] at hsentinel
  simp only [bind_eq_bind]
  rw [nil_append, nil_append] at hfirst
  rw [hfirst, bind_some, hrecs, bind_some]
  rw [replyBytes]
  exact hsentinel

/-! ### Reading the reply -/

theorem u16_append (p b : Bytes) (k : ℕ) : u16 (p ++ b) (p.length + k) = u16 b k := by
  have hget : ∀ i, (p ++ b).getD (p.length + i) 0 = b.getD i 0 := by
    intro i
    rw [getD_append_right _ _ _ _ (Nat.le_add_right _ _), Nat.add_sub_cancel_left]
  rw [u16, u16, hget, add_assoc, hget]

theorem u32_append (p b : Bytes) (k : ℕ) : u32 (p ++ b) (p.length + k) = u32 b k := by
  have hget : ∀ i, (p ++ b).getD (p.length + i) 0 = b.getD i 0 := by
    intro i
    rw [getD_append_right _ _ _ _ (Nat.le_add_right _ _), Nat.add_sub_cancel_left]
  rw [u32, u32]
  simp only [add_assoc, hget]

theorem u16_be16 {n : ℕ} (h : n < 65536) (q : Bytes) : u16 (be16 n ++ q) 0 = n := by
  simp only [u16, be16, cons_append, nil_append, getD_cons_zero, getD_cons_succ, UInt8.toNat_ofNat']
  omega

theorem u32_be32 {n : ℕ} (h : n < 4294967296) (q : Bytes) : u32 (be32 n ++ q) 0 = n := by
  simp only [u32, be32, cons_append, nil_append, getD_cons_zero, getD_cons_succ, UInt8.toNat_ofNat']
  omega

variable {m p q : Bytes} {n off : ℕ}

/-- A number that was written is read. -/
theorem readU16_at (hm : m = p ++ (be16 n ++ q)) (hoff : off = p.length) (h : n < 65536) : readU16 m off = some n := by
  subst hm hoff
  rw [readU16_eq (by simp [be16]), ← add_zero p.length, u16_append, u16_be16 h]

theorem readU32_at (hm : m = p ++ (be32 n ++ q)) (hoff : off = p.length) (h : n < 4294967296) :
    readU32 m off = some n := by
  subst hm hoff
  rw [readU32_eq (by simp [be32]), ← add_zero p.length, u32_append, u32_be32 h]

/-- The entries of a record, one for each kind of data. -/
def sigParts (d : SfsData) : List (Bytes × ℕ) := [(d.csdata, 1), (d.sigdata, 2), (d.upgradecsdata, 3)]

def partBytes (x : Bytes × ℕ) : Bytes := sfsCopyOneSigType x.1 x.2

theorem sigRecords_eq (d : SfsData) : sigRecords d = (sigParts d).flatMap partBytes ++ (be32 0 ++ be32 0) := by
  simp [sigRecords, sigParts, partBytes]

/-- The entries of a record end with the one of type ANOUBIS_SIG_TYPE_EOT. -/
theorem csentryLoop_parts {parts : List (Bytes × ℕ)} {fuel base : ℕ} {o : Bytes}
    (htypes : ∀ x ∈ parts, x.2 = sigTypeCs ∨ x.2 = sigTypeSig ∨ x.2 = sigTypeUpgradecs)
    (hlens : ∀ x ∈ parts, x.1.length < 4294967296)
    (hm : m = p ++ (o ++ (parts.flatMap partBytes ++ (be32 0 ++ (be32 0 ++ q))))) (hbase : base = p.length)
    (hoff : off = o.length) (hf : (parts.flatMap partBytes).length + 8 < fuel) :
    csentryLoop m base fuel off ((parts.flatMap partBytes).length + 8) = some (some 0) := by
  induction parts generalizing fuel off o with
  | nil =>
    cases fuel with
    | zero => exact absurd hf (Nat.not_lt_zero _)
    | succ fuel =>
      have hlen : readU32 m (base + off + 4) = some 0 :=
        readU32_at (p := p ++ o ++ be32 0) (q := q) (by simp [hm])
          (by simp [hbase, hoff, be32, add_assoc]) (by decide)
      have htype : readU32 m (base + off) = some 0 :=
        readU32_at (p := p ++ o) (q := be32 0 ++ q) (by simp [hm]) (by simp [hbase, hoff]) (by decide)
      rw [csentryLoop]
      simp only [hlen, htype, bind_eq_bind, bind_some]
      rfl
  | cons x parts ih =>
    obtain ⟨src, type⟩ := x
    rw [forall_mem_cons] at htypes hlens
    by_cases hnil : src = []
    · have hpart : ((src, type) :: parts).flatMap partBytes = parts.flatMap partBytes := by
        simp [partBytes, sfsCopyOneSigType, hnil]
      rw [hpart] at hm hf ⊢
      exact ih htypes.2 hlens.2 hm hoff hf
    · have hpart : ((src, type) :: parts).flatMap partBytes =
          be32 type ++ be32 src.length ++ src ++ parts.flatMap partBytes := by
        simp [partBytes, sfsCopyOneSigType, hnil]
      have hlength : (((src, type) :: parts).flatMap partBytes).length =
          8 + src.length + (parts.flatMap partBytes).length := by
        simp [hpart, be32]
        omega
      rw [hlength] at hf ⊢
      rw [hpart] at hm
      cases fuel with
      | zero => exact absurd hf (Nat.not_lt_zero _)
      | succ fuel =>
        have htypelt : type < 4294967296 := by
          rcases htypes.1 with h | h | h <;> (dsimp only at h; rw [h]; decide)
        have hlen : readU32 m (base + off + 4) = some src.length :=
          readU32_at (p := p ++ o ++ be32 type) (q := src ++ parts.flatMap partBytes ++ (be32 0 ++ (be32 0 ++ q)))
            (by simp [hm]) (by simp [hbase, hoff, be32, add_assoc]) hlens.1
        have htype : readU32 m (base + off) = some type :=
          readU32_at (p := p ++ o)
            (q := be32 src.length ++ src ++ parts.flatMap partBytes ++ (be32 0 ++ (be32 0 ++ q)))
            (by simp [hm]) (by simp [hbase, hoff]) htypelt
        have heot : type ≠ sigTypeEot := by
          rcases htypes.1 with h | h | h <;> (dsimp only at h; rw [h]; decide)
        have hrest : csentryLoop m base fuel (off + 8 + src.length) ((parts.flatMap partBytes).length + 8) = _ :=
          ih (o := o ++ be32 type ++ be32 src.length ++ src) htypes.2 hlens.2 (by simp [hm])
            (by simp [hoff, be32]; omega) (by omega)
        have hleft : 8 + src.length + (parts.flatMap partBytes).length + 8 - 8 - src.length =
            (parts.flatMap partBytes).length + 8 := by omega
        rw [csentryLoop, if_neg (by omega)]
        simp only [hlen, htype, bind_eq_bind, bind_some]
        rw [if_neg (by omega), if_neg heot, if_pos htypes.1, hleft]
        exact hrest

/-- A record of the reply as the verifier wants it. -/
structure GoodRecord (get : Bool) (r : ℕ × ℤ × Bytes) : Prop where
  short : 8 + r.2.2.length < 65536
  plain : get = false ∨ uint r.2.1 ≠ 0 → r.2.2 = []
  data : get = true → uint r.2.1 = 0 → ∃ d : SfsData, (∀ x ∈ sigParts d, x.1.length < 4294967296) ∧ r.2.2 = sigRecords d

theorem uint_lt (z : ℤ) : uint z < 4294967296 := by
  rw [uint]
  omega

theorem csmultireplyLoop_records {get : Bool} {fuel : ℕ} (hmax : m.length ≤ messageMaxlen)
    (hgood : ∀ r ∈ records, GoodRecord get r) (hq : q.length = csumLen)
    (hm : m = p ++ (records.flatMap recordBytes ++ (recordHead 0 0 0 ++ q))) (hoff : 12 + off = p.length)
    (hf : records.length < fuel) : csmultireplyLoop m get fuel off = some true := by
  have hmax' := hmax
  rw [messageMaxlen] at hmax'
  rw [csumLen] at hq
  induction records generalizing fuel off p with
  | nil =>
    cases fuel with
    | zero => exact absurd hf (Nat.not_lt_zero _)
    | succ fuel =>
      have hlen : m.length = 12 + off + 8 + 4 := by
        rw [hm]
        simp [length_recordHead, hq, ← hoff]
      have hlength : readU16 m (12 + off) = some 0 :=
        readU16_at (p := p) (q := be16 0 ++ be32 (uint 0) ++ q) (by simp [hm, recordHead]) hoff (by decide)
      have hindex : readU16 m (12 + off + 2) = some 0 :=
        readU16_at (p := p ++ be16 0) (q := be32 (uint 0) ++ q) (by simp [hm, recordHead])
          (by simp [hoff, be16]) (by decide)
      have herror : readU32 m (12 + off + 4) = some 0 :=
        readU32_at (n := uint 0) (p := p ++ be16 0 ++ be16 0) (q := q) (by simp [hm, recordHead])
          (by simp [hoff, be16]) (by decide)
      have hbuf : verifyBuffer m 12 off 8 = true :=
        (verifyBuffer_iff hmax (by decide) (by omega) (by omega)).mpr
          ⟨by omega, by omega, by unfold Inside csumLen; omega⟩
      have hpayload : payloadLen m 16 = m.length - (16 : ℕ) - csumLen :=
        payloadLen_eq hmax (by unfold Inside csumLen; omega)
      rw [csmultireplyLoop, need_pos hbuf, hlength, hindex, herror, hpayload]
      simp only [bind_eq_bind, bind_some, if_true]
      rw [need_pos (by simp)]
      have hslack : ¬ uint (uint (off + 8) + 8) < uint (m.length - (16 : ℕ) - csumLen) := by
        simp only [uint, csumLen]
        omega
      rw [decide_eq_false hslack]
      rfl
  | cons r records ih =>
    obtain ⟨hshort, hplain, hdata⟩ := hgood r mem_cons_self
    rw [flatMap_cons] at hm
    cases fuel with
    | zero => exact absurd hf (Nat.not_lt_zero _)
    | succ fuel =>
      have hlen : m.length = 12 + off + (8 + r.2.2.length) + (records.flatMap recordBytes).length + 8 + 4 := by
        rw [hm]
        simp only [length_append, length_recordBytes, length_recordHead, hq, ← hoff]
        omega
      have hlength : readU16 m (12 + off) = some (8 + r.2.2.length) :=
        readU16_at (p := p) (q := be16 r.1 ++ be32 (uint r.2.1) ++ r.2.2 ++
          (records.flatMap recordBytes ++ (recordHead 0 0 0 ++ q))) (by simp [hm, recordBytes, recordHead]) hoff hshort
      have herror : readU32 m (12 + off + 4) = some (uint r.2.1) :=
        readU32_at (p := p ++ be16 (8 + r.2.2.length) ++ be16 r.1)
          (q := r.2.2 ++ (records.flatMap recordBytes ++ (recordHead 0 0 0 ++ q)))
          (by simp [hm, recordBytes, recordHead]) (by simp [hoff, be16]) (uint_lt _)
      have hbuf : verifyBuffer m 12 off 8 = true :=
        (verifyBuffer_iff hmax (by decide) (by omega) (by omega)).mpr
          ⟨by omega, by omega, by unfold Inside csumLen; omega⟩
      have hrecord : verifyBuffer m 12 off (8 + r.2.2.length : ℕ) = true :=
        (verifyBuffer_iff hmax (by decide) (by omega) (by omega)).mpr
          ⟨by omega, by omega, by unfold Inside csumLen; omega⟩
      have hnext : uint (off + (8 + r.2.2.length : ℕ)) = off + (8 + r.2.2.length) := by
        rw [uint]
        omega
      have hrest : csmultireplyLoop m get fuel (off + (8 + r.2.2.length)) = _ := ih (p := p ++ recordBytes r)
        (fun r hr => hgood r (mem_cons_of_mem _ hr)) (by rw [hm]; simp only [append_assoc])
        (by rw [length_append, length_recordBytes, ← hoff, add_assoc])
        (by rw [length_cons] at hf; omega)
      rw [csmultireplyLoop, need_pos hbuf, hlength, herror]
      simp only [bind_eq_bind, bind_some]
      rw [if_neg (by omega), need_pos (by rw [hrecord]; simp), hnext]
      by_cases hget : get = false ∨ uint r.2.1 ≠ 0
      · rw [if_pos hget, need_pos (by rw [hplain hget]; simp)]
        exact hrest
      · rw [if_neg hget]
        rw [not_or, Bool.not_eq_false, not_not] at hget
        obtain ⟨d, hlens, hsig⟩ := hdata hget.1 hget.2
        have hsize : r.2.2.length = ((sigParts d).flatMap partBytes).length + 8 := by
          rw [hsig, sigRecords_eq, length_append]
          rfl
        have hentries : csentryLoop m (12 + off + 8) (8 + r.2.2.length + 1) 0
            (((sigParts d).flatMap partBytes).length + 8) = _ :=
          csentryLoop_parts (o := []) (p := p ++ recordHead (8 + r.2.2.length) r.1 r.2.1)
            (q := records.flatMap recordBytes ++ (recordHead 0 0 0 ++ q))
            (by simp [sigParts, sigTypeCs, sigTypeSig, sigTypeUpgradecs]) hlens
            (by rw [hm, recordBytes, hsig, sigRecords_eq]; simp) (by simp [← hoff, length_recordHead]) rfl (by omega)
        rw [← hsize] at hentries
        rw [Nat.add_sub_cancel_left, hentries]
        exact hrest

/-- Every record has a header. -/
theorem length_le_flatMap : records.length ≤ (records.flatMap recordBytes).length := by
  induction records with
  | nil => exact le_rfl
  | cons r records ih =>
    rw [flatMap_cons, length_append, length_recordBytes, length_cons]
    omega

/-- The client accepts the reply. -/
theorem verify_replyBytes {op : ℕ} (hop : known op = true) (hsize : totallen records + 8 + csumLen ≤ messageMaxlen)
    (hgood : ∀ r ∈ records, GoodRecord (isGet op) r) (hq : q.length = csumLen) :
    verifyCsmultireply (replyBytes op records ++ q) = some true := by
  have hlen : (replyBytes op records ++ q).length = totallen records + 8 + csumLen := by
    rw [totallen_eq, length_append, hq, replyBytes, length_append, length_append]
    rfl
  have hmax : (replyBytes op records ++ q).length ≤ messageMaxlen := by rwa [hlen]
  have hop' : op < 4294967296 ∧ (isGet op = true ∨ op = opAddsum ∨ op = opAddsig ∨ op = opDel ∨ op = opDelsig) := by
    simp only [known, decide_eq_true_iff, isGet] at hop ⊢
    rcases hop with h | h | h | h | h | h <;> (subst h; decide)
  have hoperation : readU32 (replyBytes op records ++ q) 4 = some op :=
    readU32_at (p := be32 pCsmultireply) (q := be32 0 ++ records.flatMap recordBytes ++ recordHead 0 0 0 ++ q)
      (by simp [replyBytes]) rfl hop'.1
  have herror : readU32 (replyBytes op records ++ q) 8 = some 0 :=
    readU32_at (p := be32 pCsmultireply ++ be32 op) (q := records.flatMap recordBytes ++ recordHead 0 0 0 ++ q)
      (by simp [replyBytes]) rfl (by decide)
  have hin : Inside (replyBytes op records ++ q) 0 12 := by
    unfold Inside
    rw [hlen, totallen_eq]
    omega
  have hlength : verifyLength (replyBytes op records ++ q) 12 = true :=
    (verifyLength_iff hmax (by decide)).mpr hin
  have hcount : records.length ≤ _ := length_le_flatMap
  rw [verifyCsmultireply, need_pos hlength, hoperation]
  simp only [bind_eq_bind, bind_some]
  rw [need_pos (by simpa [isGet] using hop'.2), herror]
  simp only [bind_some]
  rw [if_neg (fun h => h rfl)]
  exact csmultireplyLoop_records (p := be32 pCsmultireply ++ be32 op ++ be32 0) (q := q) hmax hgood hq
    (by simp [replyBytes]) rfl (by rw [hlen, totallen_eq]; omega)

end Anoubis.Daemon.Sfs

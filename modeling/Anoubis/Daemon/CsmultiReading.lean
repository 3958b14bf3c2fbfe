import Anoubis.Daemon.Csmulti

/-! One reading of a csmulti request.

    `verify_csmultireq` and `amsg_sfs_checksumop_size` start at the offset `recoff` of the message, and
    `sfs_parse_csmulti` starts behind the key ID. Up to eight bytes of padding may stand between the two:

        verifiers                             │ record │ record │ … │ 0 │
                  │ key ID │ padding (0 … 8)  │
        parser             │ length, index, cslen │ … -/

namespace Anoubis.Daemon.Csmulti

open Anoubis.Lib
open Anoubis.Connection (Bytes u16 u32 csumLen)
open Anoubis.Pe (csLen)
open Anoubis.MsgVerify (messageMaxlen verifyCsmultireq verifyCsmultireq_decides RequestAccepted RequestWalk Inside
  opAddsum opAddsig opGet2 opGetsig2 opDel opDelsig u32_lt)
open Anoubis.Daemon.Sizes (csmultirequest amsgSfsChecksumopSize amsgSfsChecksumopSize_measures NextRecord RecordIn
  CsmultiOk Region)

variable {m : Bytes} {off n : ℕ} {rs : List ℕ} {certUid : Bytes → Option ℕ} {authUid : ℕ}

/-! ### The verifiers -/

/-- `amsg_sfs_checksumop_size` accepts the message. -/
def SizeAccepted (m : Bytes) : Prop :=
  ∃ r, result (amsgSfsChecksumopSize m) ⟨0, m.length, 0⟩ = some r ∧ 0 ≤ r ∧ r ≤ m.length

/-- The records that the verifiers walk through. -/
structure Walked (m : Bytes) (rs : List ℕ) : Prop where
  chain : RecordsIn m m.length (16 + u16 m 14) rs
  verified : u32 m 0 = csmultirequest → ∀ r ∈ rs, RecordIn m (m.length - csumLen) r

/-- The walk of `verify_csmultireq` as a list of records. -/
theorem records_of_walk {add : Bool} (h : RequestWalk m add off) : ∃ rs, RecordsIn m m.length (16 + off) rs := by
  induction h with
  | stop header last =>
    refine ⟨[], .stop ?_ last⟩
    unfold Inside at header
    omega
  | record record more _ path _ next ih =>
    obtain ⟨rs, hrs⟩ := ih
    unfold Inside at record
    rw [← add_assoc] at hrs
    exact ⟨_, .record (by omega) more (by omega) hrs⟩

/-- The records of a list are those that one gets to by their lengths. -/
theorem RecordsIn.reached (h : RecordsIn m n off rs) : ∀ r ∈ rs, Relation.ReflTransGen (NextRecord m) off r := by
  induction h with
  | stop => exact fun r hr => absurd hr List.not_mem_nil
  | record header more fits rest ih =>
    intro r hr
    rcases List.mem_cons.mp hr with rfl | hr
    · exact .refl
    · exact .head ⟨more, rfl⟩ (ih r hr)

theorem SizeAccepted.csmulti (hn : m.length < 2147483648) (ha : SizeAccepted m) (htype : u32 m 0 = csmultirequest) :
    CsmultiOk m 0 (m.length - csumLen) := by
  obtain ⟨r, hr, h0, hle⟩ := ha
  obtain ⟨r', hr', hok⟩ :=
    (amsgSfsChecksumopSize_measures (m := m) (b := 0) (l := m.length) ⟨by omega, by omega⟩).result
  cases hr.symm.trans hr'
  have hsize := (hok.resolve_left fun hneg => Int.not_le.mpr hneg.2 h0).2.2.1
  exact (hsize.multi htype).mono (by omega)

/-- A message that both verifiers accept has a list of records. -/
theorem walked (hm : m.length ≤ messageMaxlen) (hv : RequestAccepted m) (ha : SizeAccepted m) : ∃ rs, Walked m rs := by
  obtain ⟨rs, hrs⟩ := records_of_walk hv.walk
  refine ⟨rs, hrs, fun htype r hr => ?_⟩
  unfold messageMaxlen at hm
  have hok := ha.csmulti (by omega) htype
  have hreach := hrs.reached r hr
  exact hok.records r (by simpa using hreach)

theorem known_of_accepted (hv : RequestAccepted m) : known (u32 m 4) = true := decide_eq_true hv.operation

/-! ### The claim -/

/-- The parser returns, and if it succeeds, then with the records that the verifiers walk through. -/
def OneReading (certUid : Bytes → Option ℕ) (m : Bytes) (authUid : ℕ) : Prop :=
  ∃ r, sfsParseCsmulti certUid m ⟨0, m.length⟩ authUid = some r ∧
    ∀ csop, r = .ok csop → ∃ rs, Walked m rs ∧ csop.csmulti = rs.map (recordAt m)

/-- The bytes behind the key ID, where they are not those at `recoff`: they lead to no header in the last bytes
    of the message, and if they are records that the operation can work with, then equal ones. -/
structure Harmless (m : Bytes) : Prop where
  header : ¬ Truncated m m.length (16 + u16 m 12)
  records : ∀ rs, RecordsIn m m.length (16 + u16 m 12) rs → (∀ r ∈ rs, Fits m (u32 m 4) r) →
    ∀ vs, RecordsIn m m.length (16 + u16 m 14) vs → rs.map (recordAt m) = vs.map (recordAt m)

/-- Without padding there is one reading. -/
theorem harmless_of_unpadded (hv : RequestAccepted m) (h : u16 m 14 = u16 m 12) : Harmless m := by
  obtain ⟨vs, hvs⟩ := records_of_walk hv.walk
  refine ⟨?_, fun rs hrs _ vs' hvs' => ?_⟩
  · rw [← h]
    exact hvs.not_truncated
  · rw [← h] at hrs
    rw [hrs.unique hvs']

/-- The parser reads the records of the verifiers exactly where there is no padding between key ID and records,
    or the request is refused before its records, or the padding does no harm. -/
theorem one_reading_iff (certUid : Bytes → Option ℕ) (m : Bytes) (authUid : ℕ) (hm : m.length ≤ messageMaxlen)
    (hv : verifyCsmultireq m = some true) (ha : SizeAccepted m) :
    OneReading certUid m authUid ↔
      u16 m 14 = u16 m 12 ∨ ¬ Served certUid m authUid ∨ Harmless m := by
  obtain ⟨b, hb, hacc⟩ := verifyCsmultireq_decides hm
  have hok : RequestAccepted m := hacc.mp (Option.some.inj (hb.symm.trans hv))
  obtain ⟨vs, hvs⟩ := walked hm hok ha
  have hn : m.length < 2147483648 := by
    unfold messageMaxlen at hm
    omega
  have hlen : 16 + u16 m 12 ≤ m.length := by
    have := hok.walk.header
    have := hok.idlen
    unfold Inside at *
    omega
  have hop := known_of_accepted hok
  have hharm : u16 m 14 = u16 m 12 ∨ ¬ Served certUid m authUid ∨ Harmless m ↔
      ¬ Served certUid m authUid ∨ Harmless m :=
    ⟨fun h => h.elim (fun heq => Or.inr (harmless_of_unpadded hok heq)) id, Or.inr⟩
  rw [hharm]
  by_cases hs : Served certUid m authUid
  swap
  · obtain ⟨e, he⟩ := (sfsParseCsmulti_eq hn hlen hop).2 hs
    exact iff_of_true ⟨_, he, fun csop h => by cases h⟩ (Or.inl hs)
  rw [or_iff_right fun hno => hno hs]
  rcases records_or (m := m) hlen with ⟨rs, hrs⟩ | ht | ho
  · obtain ⟨hyes, hno⟩ := sfsParseCsmulti_records hn hlen hop hs hrs
    by_cases hall : ∀ r ∈ rs, Fits m (u32 m 4) r
    · constructor
      · rintro ⟨r, hr, hread⟩
        obtain rfl := Option.some.inj (hr.symm.trans (hyes hall))
        obtain ⟨ws, hws, heq⟩ := hread _ rfl
        refine ⟨hrs.not_truncated, fun rs' hrs' _ vs' hvs' => ?_⟩
        rw [hrs'.unique hrs, hvs'.unique hws.chain]
        exact heq
      · intro h
        refine ⟨_, hyes hall, fun csop hcsop => ⟨vs, hvs, ?_⟩⟩
        obtain rfl := Except.ok.inj hcsop
        exact h.records rs hrs hall vs hvs.chain
    · obtain ⟨e, he⟩ := hno hall
      refine iff_of_true ⟨_, he, fun csop h => by cases h⟩ ⟨hrs.not_truncated, fun rs' hrs' hall' => ?_⟩
      rw [hrs'.unique hrs] at hall'
      exact absurd hall' hall
  · refine iff_of_false ?_ fun h => h.header ht
    rintro ⟨r, hr, -⟩
    rw [sfsParseCsmulti_truncated hn hlen hop hs ht] at hr
    cases hr
  · refine iff_of_true ⟨_, sfsParseCsmulti_overlong hn hlen hop hs ho, fun csop h => by cases h⟩ ?_
    exact ⟨ho.not_truncated, fun rs hrs => absurd hrs ho.not_records⟩

/-- A request for the checksum of "/a", without padding. -/
def sampleRequest : Bytes :=
  [0, 0, 0x31, 0x10, 0, 0, 0, 16, 0, 0, 3, 232, 0, 0, 0, 0] ++ [0, 0, 0, 11, 0, 7, 0, 0, 47, 97, 0] ++
    [0, 0, 0, 0, 0, 0, 0, 0] ++ [0, 0, 0, 0]

theorem one_reading_iff_sample :
    sampleRequest.length ≤ messageMaxlen ∧ verifyCsmultireq sampleRequest = some true ∧
      SizeAccepted sampleRequest ∧ (OneReading (fun _ => none) sampleRequest 1000 ↔
        u16 sampleRequest 14 = u16 sampleRequest 12 ∨ ¬ Served (fun _ => none) sampleRequest 1000 ∨
          Harmless sampleRequest) :=
  have hm : sampleRequest.length ≤ messageMaxlen := by decide
  have hv : verifyCsmultireq sampleRequest = some true := by decide +kernel
  have ha : SizeAccepted sampleRequest := ⟨39, by decide +kernel, by decide, by decide⟩
  ⟨hm, hv, ha, one_reading_iff (fun _ => none) sampleRequest 1000 hm hv ha⟩

/-- A request without records: four bytes of padding hold the number 16. -/
def samplePadded : Bytes :=
  [0, 0, 0x31, 0x10, 0, 0, 0, 16, 0, 0, 3, 232, 0, 0, 0, 4] ++ [0, 0, 0, 16] ++ [0, 0, 0, 0, 0, 0, 0, 0] ++
    [0, 0, 0, 0]

/-- Both verifiers accept it, and the parser asserts that a header fits behind its end. -/
theorem not_one_reading_padded :
    samplePadded.length ≤ messageMaxlen ∧ verifyCsmultireq samplePadded = some true ∧ SizeAccepted samplePadded ∧
      sfsParseCsmulti (fun _ => none) samplePadded ⟨0, samplePadded.length⟩ 1000 = none ∧
      ¬ OneReading (fun _ => none) samplePadded 1000 := by
  have hnone : sfsParseCsmulti (fun _ => none) samplePadded ⟨0, samplePadded.length⟩ 1000 = none := by
    decide +kernel
  refine ⟨by decide, by decide +kernel, ⟨32, by decide +kernel, by decide, by decide⟩, hnone, ?_⟩
  rintro ⟨r, hr, -⟩
  rw [hnone] at hr
  cases hr

end Anoubis.Daemon.Csmulti

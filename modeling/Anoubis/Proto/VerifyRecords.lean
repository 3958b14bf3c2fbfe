import Anoubis.Proto.VerifySound

/-! Messages with records: what their walks accept.

    A walk goes from a record to the next by the length of the record. That of the csmulti request also
    looks for the end of the path, to refuse more than eight bytes of padding behind it; where a record has
    no NUL byte at all it finds no padding and accepts:

        │ length │ index │ cslen │ checksum │ path … 0 │ padding │
        └────────────────────── length ────────────────────────┘     -/

namespace Anoubis.MsgVerify

open Anoubis.Lib Option
open Anoubis.Connection (Bytes u16 u32 csumLen)
open Anoubis.Pe (csLen)

variable {m : Bytes}

/-! ### csmulti requests -/

/-- The position of the path in a record. -/
def pathOff (m : Bytes) (off : ℕ) : ℕ := 16 + off + 8 + u16 m (16 + off + 6)

/-- The padding behind the path is short, if the record has a path. -/
def Tight (m : Bytes) (off : ℕ) : Prop :=
  ∀ p, FirstNul m (pathOff m off) p → p < 16 + off + u32 m (16 + off) → 16 + off + u32 m (16 + off) ≤ p + 9

/-- The records from `off` on are laid out as they must be, up to the ends of their paths. -/
inductive RequestWalk (m : Bytes) (add : Bool) : ℕ → Prop
  | stop {off : ℕ} (header : Inside m (16 + off) 8) (last : u32 m (16 + off) = 0)
      (cslen : u16 m (16 + off + 6) = 0) (slack : m.length ≤ 16 + off + 20) : RequestWalk m add off
  | record {off : ℕ} (record : Inside m (16 + off) (u32 m (16 + off))) (more : u32 m (16 + off) ≠ 0)
      (cslen : add = true ∨ u16 m (16 + off + 6) = 0)
      (path : 8 + u16 m (16 + off + 6) < u32 m (16 + off)) (tight : Tight m off)
      (next : RequestWalk m add (off + u32 m (16 + off))) : RequestWalk m add off

variable {off rectype : ℕ}
variable {add : Bool} {fuel n : ℕ}

theorem RequestWalk.header (h : RequestWalk m add off) : Inside m (16 + off) 8 := by
  cases h with
  | stop header => exact header
  | record record _ _ path => exact record.mono (by omega)

/-- What the end of the loop over the path compares. -/
theorem tight_iff (hlt : 8 + u16 m (16 + off + 6) < u32 m (16 + off)) {r : Option ℕ}
    (hr : scan m (pathOff m off) (u32 m (16 + off) - (8 + u16 m (16 + off + 6))) = some r) :
    (¬ (r.elim (u32 m (16 + off)) (fun p => 8 + u16 m (16 + off + 6) + (p - pathOff m off) + 1) > u32 m (16 + off) ∨
        r.elim (u32 m (16 + off)) (fun p => 8 + u16 m (16 + off + 6) + (p - pathOff m off) + 1) + 8 <
          u32 m (16 + off))) ↔ Tight m off := by
  cases r with
  | none =>
    refine iff_of_true (by simp) fun p hp hlt' => ?_
    obtain ⟨b, hb, h0⟩ := scan_none hr hp.le (by unfold pathOff; omega)
    exact absurd (some.inj (hb.symm.trans hp.nul)) h0
  | some p =>
    obtain ⟨hp, hlt'⟩ := scan_some hr
    have hle := hp.le
    unfold pathOff at hle hlt' ⊢
    constructor
    · intro h p' hp' _
      obtain rfl := hp.unique hp'
      simp only [elim_some] at h
      omega
    · intro h
      have := h p hp (by omega)
      simp only [elim_some]
      omega

/-- The walk decides. The fuel suffices, as every record is at least as long as its header. -/
theorem csmultireqLoop_decides (hm : m.length ≤ messageMaxlen) (add : Bool) (hf : m.length < fuel + off)
    (hoff : off ≤ m.length) : Decides (csmultireqLoop m add fuel off) (RequestWalk m add off) := by
  induction fuel generalizing off with
  | zero => omega
  | succ fuel ih =>
    have hmax := hm
    unfold messageMaxlen at hmax
    rw [csmultireqLoop]
    by_cases hhead : verifyBuffer m 16 off 8 = true
    · have hin : Inside m (16 + off) 8 :=
        (((verifyBuffer_iff hm (by decide) (by omega) (by omega)).mp hhead).2.2).mono (by omega)
      have hlen : 16 + off + 8 + 4 ≤ m.length := hin
      rw [need_pos hhead]
      refine Decides.bind (readU32_eq (by omega)) ?_
      by_cases hlast : u32 m (16 + off) = 0
      · rw [if_pos hlast]
        refine Decides.bind (readU32_eq (by omega)) (Decides.bind (readU16_eq (by omega)) ?_)
        have hslack : uint (uint (off + 8) + 8) < uint (payloadLen m 16) ↔ 16 + off + 20 < m.length := by
          rw [payloadLen_eq hm (show Inside m 0 16 from hin.mono (by omega))]
          unfold uint csumLen
          omega
        refine (decides_need fun _ => ⟨_, rfl, .rfl⟩).congr ?_
        rw [Bool.not_eq_true', decide_eq_false_iff_not, hslack]
        constructor
        · rintro ⟨h0, hs⟩
          exact RequestWalk.stop hin hlast (by omega) (by omega)
        · intro h
          cases h with
          | stop _ _ hcs hs => exact ⟨by omega, by omega⟩
          | record _ more => exact absurd hlast more
      · rw [if_neg hlast]
        refine Decides.bind (readU16_eq (by omega)) ?_
        have hlen := u32_lt (m := m) (16 + off)
        have hrec : verifyBuffer m 16 off (u32 m (16 + off)) = true ↔ Inside m (16 + off) (u32 m (16 + off)) := by
          rw [verifyBuffer_iff hm (by decide) (by omega) (by omega)]
          unfold Inside
          omega
        refine (decides_need fun hr => decides_need fun _ => decides_need fun hcs =>
          decides_need (Q := Tight m off ∧ RequestWalk m add (off + u32 m (16 + off))) fun hpath => ?_).congr ?_
        · have hskip : (if add = true then u16 m (16 + off + 6) else 0) = u16 m (16 + off + 6) := by
            rcases hcs with hadd | h0
            · rw [if_pos hadd]
            · rw [h0, ite_self]
          have hin' : Inside m (16 + off) (u32 m (16 + off)) := by
            rw [← hrec]
            simpa using fun h => hr (.inr h)
          have hend : 16 + off + u32 m (16 + off) + 4 ≤ m.length := hin'
          rw [hskip] at hpath
          simp only [hskip]
          obtain ⟨r, hscan⟩ := scan_inside m (pathOff m off) (u32 m (16 + off) - (8 + u16 m (16 + off + 6)))
            (by unfold pathOff; omega)
          refine Decides.bind hscan ?_
          have hnext : uint (off + u32 m (16 + off)) = off + u32 m (16 + off) :=
            uint_natCast (n := off + u32 m (16 + off)) (by omega)
          rw [hnext]
          exact (decides_need fun _ => ih (by omega) (by omega)).congr
            (and_congr_left' (tight_iff (by omega) hscan))
        · constructor
          · rintro ⟨hr, -, hcs, hpath, htight, hnext⟩
            have hskip : (if add = true then u16 m (16 + off + 6) else 0) = u16 m (16 + off + 6) := by
              rcases hcs with hadd | h0
              · rw [if_pos hadd]
              · rw [h0, ite_self]
            rw [hskip] at hpath
            refine RequestWalk.record (hrec.mp ?_) hlast hcs (by omega) htight hnext
            simpa using fun h => hr (.inr h)
          · intro h
            cases h with
            | stop _ last => exact absurd last hlast
            | record hr _ hcs hpath htight hnext =>
              have hskip : (if add = true then u16 m (16 + off + 6) else 0) ≤ u16 m (16 + off + 6) := by
                split <;> omega
              refine ⟨?_, by omega, hcs, by omega, htight, hnext⟩
              rintro (h8 | hno)
              · omega
              · rw [hrec.mpr hr] at hno
                cases hno
    · rw [need_neg hhead]
      refine decides_false.congr (iff_of_false id fun h => hhead ?_)
      refine (verifyBuffer_iff hm (by decide) (by omega) (by omega)).mpr ⟨by omega, by omega, ?_⟩
      exact h.header.mono (by omega)

/-- A csmulti request that is accepted. -/
structure RequestAccepted (m : Bytes) : Prop where
  inside : Inside m 0 16
  operation : u32 m 4 = opAddsum ∨ u32 m 4 = opAddsig ∨ u32 m 4 = opGet2 ∨ u32 m 4 = opGetsig2 ∨
    u32 m 4 = opDel ∨ u32 m 4 = opDelsig
  idlen : u16 m 12 ≤ u16 m 14
  padding : u16 m 14 ≤ u16 m 12 + 8
  walk : RequestWalk m (decide (u32 m 4 = opAddsum ∨ u32 m 4 = opAddsig)) (u16 m 14)

theorem verifyCsmultireq_decides (hm : m.length ≤ messageMaxlen) :
    Decides (verifyCsmultireq m) (RequestAccepted m) := by
  by_cases h : verifyLength m 16 = true
  · have hin : Inside m 0 16 := (verifyLength_iff hm (by decide)).mp h
    have hlen : 0 + 16 + 4 ≤ m.length := hin
    have hoff := u16_lt (m := m) 14
    rw [verifyCsmultireq, need_pos h]
    refine Decides.bind (readU32_eq (by omega)) ?_
    refine (decides_need (Q := u16 m 12 ≤ u16 m 14 ∧ u16 m 14 ≤ u16 m 12 + 8 ∧
      RequestWalk m (decide (u32 m 4 = opAddsum ∨ u32 m 4 = opAddsig)) (u16 m 14)) fun _ => ?_).congr ?_
    · refine Decides.bind (readU16_eq (by omega)) (Decides.bind (readU16_eq (by omega)) ?_)
      refine (decides_need fun _ => decides_need fun hbuf => csmultireqLoop_decides hm _ (by omega) ?_).congr ?_
      · have := ((verifyBuffer_iff hm (by decide) (by omega) (by omega)).mp hbuf).2.2
        unfold Inside at this
        omega
      · constructor
        · rintro ⟨hpad, -, hw⟩
          exact ⟨by omega, by omega, hw⟩
        · rintro ⟨hid, hpad, hw⟩
          refine ⟨by omega, (verifyBuffer_iff hm (by decide) (by omega) (by omega)).mpr ⟨by omega, by omega, ?_⟩, hw⟩
          exact hw.header.mono (by omega)
    · rw [decide_eq_true_iff]
      constructor
      · rintro ⟨hop, hid, hpad, hw⟩
        exact ⟨hin, by rcases hop with (h | h) | h <;> simp [h], hid, hpad, hw⟩
      · intro ha
        exact ⟨by have := ha.operation; tauto, ha.idlen, ha.padding, ha.walk⟩
  · rw [verifyCsmultireq, need_neg h]
    exact decides_false.congr (iff_of_false id fun ha => h ((verifyLength_iff hm (by decide)).mpr ha.inside))

/-- Every record of an accepted request lies in the payload, up to its path. -/
theorem RequestWalk.reach {off' : ℕ} (h : RequestWalk m add off)
    (hr : Relation.ReflTransGen (NextRequest m) off off') : RequestWalk m add off' := by
  induction hr with
  | refl => exact h
  | tail _ hn ih =>
    obtain ⟨hne, rfl⟩ := hn
    cases ih with
    | stop _ last => exact absurd last hne
    | record _ _ _ _ _ next => exact next

theorem RequestWalk.ok (h : RequestWalk m add off) : RequestRecordOk m off := by
  cases h with
  | stop header last =>
    exact ⟨header, by rw [last]; exact header.mono (by omega), fun hne => absurd last hne⟩
  | record record more _ path => exact ⟨record.mono (by omega), record, fun _ => by omega⟩

/-- An accepted request is sound but for paths without an end. -/
theorem RequestAccepted.sound_iff (h : RequestAccepted m) :
    Sound .csmultirequest m ↔ ∀ off, RequestRecord m off → RequestPathOk m off := by
  constructor
  · exact fun hs off hr => (hs.2.2 off hr).2
  · intro hp
    refine ⟨h.inside, ?_, fun off hr => ⟨(h.walk.reach hr).ok, hp off hr⟩⟩
    have := h.idlen
    exact h.walk.header.mono (by omega)

/-! ### csmulti replies -/

/-- The entries from `off` on, by the one at `off` and those behind it. -/
theorem EntriesOk.step {base len : ℕ} (hentry : off + 8 + u32 m (base + off + 4) ≤ len)
    (hnext : u32 m (base + off) ≠ sigTypeEot → EntriesOk m base len (off + 8 + u32 m (base + off + 4))) :
    EntriesOk m base len off := by
  intro off' hr
  rcases Relation.ReflTransGen.cases_head hr with rfl | ⟨off₁, ⟨hne, rfl⟩, hr⟩
  · exact ⟨by omega, hentry⟩
  · exact hnext hne off' hr

theorem csentryLoop_spec (base fuel off reclen : ℕ) (hin : base + off + reclen ≤ m.length) (hf : reclen < fuel) :
    ∃ r, csentryLoop m base fuel off reclen = some r ∧
      ∀ left, r = some left → EntriesOk m base (off + reclen) off := by
  induction fuel generalizing off reclen with
  | zero => omega
  | succ fuel ih =>
    rw [csentryLoop]
    by_cases hshort : reclen < 8
    · exact ⟨none, if_pos hshort, fun _ h => by cases h⟩
    · have hcslen : readU32 m (base + off + 4) = some (u32 m (base + off + 4)) := readU32_eq (by omega)
      have hcstype : readU32 m (base + off) = some (u32 m (base + off)) := readU32_eq (by omega)
      simp only [if_neg hshort, hcslen, hcstype, bind_eq_bind, bind_some]
      by_cases hlong : u32 m (base + off + 4) > reclen - 8
      · exact ⟨none, if_pos hlong, fun _ h => by cases h⟩
      · have hentry : off + 8 + u32 m (base + off + 4) ≤ off + reclen := by omega
        rw [if_neg hlong]
        by_cases heot : u32 m (base + off) = sigTypeEot
        · rw [if_pos heot]
          by_cases hcs : u32 m (base + off + 4) ≠ 0
          · exact ⟨none, if_pos hcs, fun _ h => by cases h⟩
          · exact ⟨_, if_neg hcs, fun _ _ => EntriesOk.step hentry fun hne => absurd heot hne⟩
        · rw [if_neg heot]
          obtain ⟨r, hr, hok⟩ := ih (off + 8 + u32 m (base + off + 4))
            (reclen - 8 - u32 m (base + off + 4)) (by omega) (by omega)
          by_cases htype : u32 m (base + off) = sigTypeCs ∨ u32 m (base + off) = sigTypeSig ∨
              u32 m (base + off) = sigTypeUpgradecs
          · refine ⟨r, (if_pos htype).trans hr, fun left hleft => EntriesOk.step hentry fun _ => ?_⟩
            have hfin : off + 8 + u32 m (base + off + 4) + (reclen - 8 - u32 m (base + off + 4)) =
                off + reclen := by omega
            exact hfin ▸ hok left hleft
          · exact ⟨none, if_neg htype, fun _ h => by cases h⟩

/-- The records from `off` on, by the one at `off` and those behind it. -/
theorem replies_step {get : Bool} (hrec : ReplyRecordOk m get off)
    (hnext : u16 m (12 + off) ≠ 0 → ∀ off', Relation.ReflTransGen (NextReply m) (off + u16 m (12 + off)) off' →
      ReplyRecordOk m get off') :
    ∀ off', Relation.ReflTransGen (NextReply m) off off' → ReplyRecordOk m get off' := by
  intro off' hr
  rcases Relation.ReflTransGen.cases_head hr with rfl | ⟨off₁, ⟨hne, rfl⟩, hr⟩
  · exact hrec
  · exact hnext hne off' hr

theorem checks_csmultireplyLoop (hm : m.length ≤ messageMaxlen) (get : Bool) (hf : m.length < fuel + off)
    (hoff : off ≤ m.length) : Checks (csmultireplyLoop m get fuel off)
      (∀ off', Relation.ReflTransGen (NextReply m) off off' → ReplyRecordOk m get off') := by
  induction fuel generalizing off with
  | zero => omega
  | succ fuel ih =>
    have hmax := hm
    unfold messageMaxlen at hmax
    have hu := u16_lt (m := m) (12 + off)
    rw [csmultireplyLoop]
    refine checks_need fun hhead => ?_
    have hin : Inside m (12 + off) 8 :=
      (((verifyBuffer_iff hm (by decide) (by omega) (by omega)).mp hhead).2.2).mono (by omega)
    have hlen : 12 + off + 8 + 4 ≤ m.length := hin
    refine Checks.bind (readU16_eq (by omega)) ?_
    by_cases hlast : u16 m (12 + off) = 0
    · rw [if_pos hlast]
      refine Checks.bind (readU32_eq (by omega)) (Checks.bind (readU16_eq (by omega)) ?_)
      refine checks_need fun _ => ⟨_, rfl, fun _ => ?_⟩
      exact replies_step ⟨hin, by rw [hlast]; exact hin.mono (by omega), fun hne => absurd hlast hne⟩
        fun hne => absurd hlast hne
    · rw [if_neg hlast]
      refine checks_need fun hrec => ?_
      have hrec' : Inside m (12 + off) (u16 m (12 + off)) := by
        have hbuf : verifyBuffer m 12 off (u16 m (12 + off)) = true := by
          simpa using fun h => hrec (.inr h)
        exact (((verifyBuffer_iff hm (by decide) (by omega) (by omega)).mp hbuf).2.2).mono (by omega)
      have hend : 12 + off + u16 m (12 + off) + 4 ≤ m.length := hrec'
      have hnext : uint (off + u16 m (12 + off)) = off + u16 m (12 + off) :=
        uint_natCast (n := off + u16 m (12 + off)) (by omega)
      have hgo := @ih (off + u16 m (12 + off)) (by omega) (by omega)
      refine Checks.bind (readU32_eq (by omega)) ?_
      rw [hnext]
      by_cases hplain : get = false ∨ u32 m (12 + off + 4) ≠ 0
      · rw [if_pos hplain]
        refine checks_need fun _ => hgo.mono fun hok => replies_step ⟨hin, hrec', fun _ hg he => ?_⟩ fun _ => hok
        rcases hplain with h | h
        · rw [hg] at h
          cases h
        · exact absurd he h
      · rw [if_neg hplain]
        obtain ⟨r, hr, hok⟩ := csentryLoop_spec (m := m) (12 + off + 8) (u16 m (12 + off) + 1) 0
          (u16 m (12 + off) - 8) (by omega) (by omega)
        refine Checks.bind hr ?_
        cases r with
        | none => exact checks_false
        | some left =>
          refine checks_need fun _ => hgo.mono fun hrest => replies_step ⟨hin, hrec', fun _ _ _ => ?_⟩ fun _ => hrest
          have := hok left rfl
          rwa [zero_add] at this

theorem checks_csmultireply (hm : m.length ≤ messageMaxlen) :
    Checks (verifyCsmultireply m) (Sound .csmultireply m) := by
  refine checks_need fun h => ?_
  have hin : Inside m 0 12 := (verifyLength_iff hm (by decide)).mp h
  have hlen : 0 + 12 + 4 ≤ m.length := hin
  refine Checks.bind (readU32_eq (by omega)) (checks_need fun _ => Checks.bind (readU32_eq (by omega)) ?_)
  split
  · rename_i herr
    exact ⟨_, rfl, fun _ => ⟨hin, fun h0 => absurd h0 herr⟩⟩
  · exact (checks_csmultireplyLoop hm _ (by omega) (by omega)).mono fun hok => ⟨hin, fun _ => hok⟩

/-! ### List replies -/

/-- The structure of a record and the record lie in the payload. -/
def RecordFits (m : Bytes) (size off : ℕ) : Prop :=
  size ≤ u32 m (16 + off) ∧ Inside m (16 + off) (u32 m (16 + off))

/-- A search for so many contexts from `p` on, of which the last byte may stand before `fin`, leaves the
    message. -/
def Leaves (m : Bytes) (fin : ℕ) : ℕ → ℕ → Prop
  | 0, _ => False
  | n + 1, p =>
    (m.length < fin ∧ p + csLen < fin ∧ ∀ q, p + csLen ≤ q → m[q]? ≠ some 0) ∨
      ∃ q, FirstNul m (p + csLen) q ∧ q < fin ∧ Leaves m fin n (q + 1)

/-- Where the search of `verify_proc_record` ends: it counts the payload from behind the structure, but with
    the length of the whole record. -/
def procEnd (m : Bytes) (off : ℕ) : ℕ := 16 + off + procRecord + u32 m (16 + off)

theorem contextLoop_cases (payload reclen n off : ℕ) :
    (contextLoop m payload reclen n off = none ∧ Leaves m (payload + reclen) n (payload + off)) ∨
      ∃ b, contextLoop m payload reclen n off = some b ∧ ¬ Leaves m (payload + reclen) n (payload + off) ∧
        (b = true ↔ Contexts m (payload + reclen) n (payload + off)) := by
  induction n generalizing off with
  | zero => exact .inr ⟨true, rfl, fun h => h.elim, by simp [Contexts]⟩
  | succ n ih =>
    rw [contextLoop]
    by_cases hshort : reclen < off + csLen
    · refine .inr ⟨false, if_pos hshort, ?_, iff_of_false (by simp) ?_⟩
      · rintro (⟨-, hlt, -⟩ | ⟨q, hq, hlt, -⟩)
        · omega
        · have := hq.le
          omega
      · rintro ⟨q, hq, hlt, -⟩
        have := hq.le
        omega
    · simp only [if_neg hshort]
      cases hs : scan m (payload + (off + csLen)) (reclen - (off + csLen)) with
      | none =>
        obtain ⟨hlt, hpos, hno⟩ := scan_fails hs
        exact .inl ⟨rfl, .inl ⟨by omega, by omega, fun q hq => hno q (by omega)⟩⟩
      | some r =>
        cases r with
        | none =>
          refine .inr ⟨false, rfl, ?_, iff_of_false (by simp) ?_⟩
          · rintro (⟨hfin, hlt, -⟩ | ⟨q, hq, hlt, -⟩)
            · obtain ⟨b, hb, -⟩ := scan_none hs (show payload + (off + csLen) ≤ payload + reclen - 1 by omega)
                (by omega)
              rw [List.getElem?_eq_none_iff.mpr (by omega)] at hb
              cases hb
            · have := hq.le
              obtain ⟨b, hb, h0⟩ := scan_none hs (q := q) (by omega) (by omega)
              exact h0 (some.inj (hb.symm.trans hq.nul))
          · rintro ⟨q, hq, hlt, -⟩
            have := hq.le
            obtain ⟨b, hb, h0⟩ := scan_none hs (q := q) (by omega) (by omega)
            exact h0 (some.inj (hb.symm.trans hq.nul))
        | some p =>
          obtain ⟨hp, hlt⟩ := scan_some hs
          have hle := hp.le
          have hp' : FirstNul m (payload + off + csLen) p := by rwa [add_assoc]
          have hpos : payload + (p - payload + 1) = p + 1 := by omega
          have hgo := ih (p - payload + 1)
          rw [hpos] at hgo
          change (contextLoop m payload reclen n (p - payload + 1) = none ∧ _) ∨
            ∃ b, contextLoop m payload reclen n (p - payload + 1) = some b ∧ _
          rcases hgo with ⟨hnone, hl⟩ | ⟨b, hb, hl, hc⟩
          · exact .inl ⟨hnone, .inr ⟨p, hp', by omega, hl⟩⟩
          · refine .inr ⟨b, hb, ?_, hc.trans ?_⟩
            · rintro (⟨-, -, hno⟩ | ⟨q, hq, -, hl'⟩)
              · exact hno p hp'.le hp'.nul
              · obtain rfl := hp'.unique hq
                exact hl hl'
            · constructor
              · exact fun h => ⟨p, hp', by omega, h⟩
              · rintro ⟨q, hq, -, h⟩
                obtain rfl := hp'.unique hq
                exact h

/-- A record without its strings: what comes before the check of its type. -/
theorem listRecord_eq (hm : m.length ≤ messageMaxlen) {size : ℕ} (hs : 4 ≤ size ∧ size < 1000)
    (hoff : off ≤ m.length) (verify : Bytes → ℕ → ℕ → Check) :
    (RecordFits m size off ∧ listRecord m size verify off = (verify m (16 + off) (u32 m (16 + off))).bind
        fun ok => some (if ok then some (u32 m (16 + off)) else none)) ∨
      (¬ RecordFits m size off ∧ listRecord m size verify off = some none) := by
  have hmax := hm
  unfold messageMaxlen at hmax
  have hu := u32_lt (m := m) (16 + off)
  have hhead := verifyBuffer_nat hm (show 16 < 1000 by decide) (show off < 4294967296 by omega)
    (show size < 4294967296 by omega)
  have hrec := verifyBuffer_nat hm (show 16 < 1000 by decide) (show off < 4294967296 by omega) hu
  rw [listRecord]
  by_cases hin : Inside m (16 + off) size
  · have hlen : 16 + off + size + 4 ≤ m.length := hin
    rw [hhead.mpr hin, if_neg (by simp), readU32_eq (by omega), bind_eq_bind, bind_some]
    by_cases hshort : u32 m (16 + off) < size
    · exact .inr ⟨fun h => by have := h.1; omega, if_pos hshort⟩
    · rw [if_neg hshort]
      by_cases hin' : Inside m (16 + off) (u32 m (16 + off))
      · rw [hrec.mpr hin', if_neg (by simp)]
        exact .inl ⟨⟨by omega, hin'⟩, rfl⟩
      · rw [if_pos (Bool.eq_false_iff.mpr (mt hrec.mp hin'))]
        exact .inr ⟨fun h => hin' h.2, rfl⟩
  · rw [if_pos (Bool.eq_false_iff.mpr (mt hhead.mp hin))]
    exact .inr ⟨fun h => hin (h.2.mono (by have := h.1; omega)), rfl⟩

/-- `verify_listreply` goes on behind the record. -/
def Passes (m : Bytes) (rectype off : ℕ) : Prop :=
  if rectype = recProclist then
    RecordFits m procRecord off ∧ Contexts m (procEnd m off) 3 (16 + off + procRecord)
  else (rectype = recPglist ∨ rectype = recPgfilelist) ∧ RecordFits m 32 off ∧
    HasNul m (16 + off + 32) (u32 m (16 + off) - 32)

/-- `verify_listreply` looks for the contexts of the record outside of the message. -/
def Escapes (m : Bytes) (rectype off : ℕ) : Prop :=
  rectype = recProclist ∧ RecordFits m procRecord off ∧ Leaves m (procEnd m off) 3 (16 + off + procRecord)

theorem pathRecord_eq (h : RecordFits m 32 off) : ∃ r, verifyPathRecord m (16 + off) (u32 m (16 + off)) =
    some r ∧ (r = true ↔ HasNul m (16 + off + 32) (u32 m (16 + off) - 32)) := by
  have hin : 16 + off + u32 m (16 + off) + 4 ≤ m.length := h.2
  have hle := h.1
  obtain ⟨r, hr⟩ := scan_inside m (16 + off + 32) (u32 m (16 + off) - 32) (by omega)
  exact ⟨r.isSome, by rw [verifyPathRecord, hr]; rfl, scan_isSome_iff hr⟩

/-- The outcomes of a round. -/
theorem listRound_cases (hm : m.length ≤ messageMaxlen) (rectype : ℕ) (hoff : off ≤ m.length) :
    (listRound m rectype off = none ∧ Escapes m rectype off) ∨
      (listRound m rectype off = some (some (u32 m (16 + off))) ∧ Passes m rectype off ∧ ¬ Escapes m rectype off) ∨
      (listRound m rectype off = some none ∧ ¬ Passes m rectype off ∧ ¬ Escapes m rectype off) := by
  by_cases hproc : rectype = recProclist
  · subst hproc
    have hround : listRound m recProclist off = listRecord m procRecord verifyProcRecord off := by
      rw [listRound, if_neg (by decide), if_neg (by decide), if_pos rfl]
    rw [hround, Passes, if_pos rfl, Escapes]
    rcases listRecord_eq hm (show 4 ≤ procRecord ∧ procRecord < 1000 by decide) hoff verifyProcRecord with
      ⟨hfits, heq⟩ | ⟨hfits, heq⟩
    · rw [heq]
      have hlen := u32_lt (m := m) (16 + off)
      have hin : 16 + off + u32 m (16 + off) + 4 ≤ m.length := hfits.2
      have hmax := hm
      unfold messageMaxlen at hmax
      have hint : ¬ int (u32 m (16 + off)) < (procRecord : ℤ) := by
        have := hfits.1
        rcases int_natCast hlen with h | h <;> omega
      have hend : 16 + off + procRecord + u32 m (16 + off) = procEnd m off := rfl
      have hloop := contextLoop_cases (m := m) (16 + off + procRecord) (u32 m (16 + off)) 3 0
      rw [add_zero, hend] at hloop
      rw [verifyProcRecord, if_neg hint]
      rcases hloop with ⟨hnone, hl⟩ | ⟨b, hb, hl, hc⟩
      · exact .inl ⟨by rw [hnone]; rfl, rfl, hfits, hl⟩
      · rw [hb]
        cases b with
        | true => exact .inr (.inl ⟨rfl, ⟨hfits, hc.mp rfl⟩, fun h => hl h.2.2⟩)
        | false =>
          exact .inr (.inr ⟨rfl, fun h => absurd (hc.mpr h.2) (by simp), fun h => hl h.2.2⟩)
    · exact .inr (.inr ⟨heq, fun h => hfits h.1, fun h => hfits h.2.1⟩)
  · have hno : ¬ Escapes m rectype off := fun h => hproc h.1
    rw [Passes, if_neg hproc]
    by_cases htype : rectype = recPglist ∨ rectype = recPgfilelist
    · have hround : listRound m rectype off = listRecord m 32 verifyPathRecord off := by
        rcases htype with rfl | rfl
        · rfl
        · rfl
      rw [hround]
      rcases listRecord_eq hm (show 4 ≤ 32 ∧ 32 < 1000 by decide) hoff verifyPathRecord with
        ⟨hfits, heq⟩ | ⟨hfits, heq⟩
      · obtain ⟨r, hr, hiff⟩ := pathRecord_eq hfits
        rw [heq, hr]
        cases r with
        | true => exact .inr (.inl ⟨rfl, ⟨htype, hfits, hiff.mp rfl⟩, hno⟩)
        | false => exact .inr (.inr ⟨rfl, fun h => absurd (hiff.mpr h.2.2) (by simp), hno⟩)
      · exact .inr (.inr ⟨heq, fun h => hfits h.2.1, hno⟩)
    · refine .inr (.inr ⟨?_, fun h => htype h.1, hno⟩)
      rw [listRound, if_neg fun h => htype (.inl h), if_neg fun h => htype (.inr h), if_neg hproc]

theorem Passes.inside (h : Passes m rectype off) : Inside m (16 + off) (u32 m (16 + off)) := by
  rw [Passes] at h
  split at h
  · exact h.1.2
  · exact h.2.1.2

/-- Some record is reached whose contexts are looked for outside of the message. -/
def SomeEscapes (m : Bytes) (rectype nrec off : ℕ) : Prop :=
  ∃ i < nrec, (∀ j < i, Passes m rectype (recordOff m off j)) ∧ Escapes m rectype (recordOff m off i)

/-- All records pass. -/
def AllPass (m : Bytes) (rectype nrec off : ℕ) : Prop := ∀ i < nrec, Passes m rectype (recordOff m off i)

theorem allPass_succ : AllPass m rectype (n + 1) off ↔
    Passes m rectype off ∧ AllPass m rectype n (off + u32 m (16 + off)) := by
  constructor
  · exact fun h => ⟨h 0 (by omega), fun i hi => h (i + 1) (by omega)⟩
  · rintro ⟨h0, h⟩ i hi
    cases i with
    | zero => exact h0
    | succ i => exact h i (by omega)

theorem someEscapes_succ : SomeEscapes m rectype (n + 1) off ↔
    Escapes m rectype off ∨ Passes m rectype off ∧ SomeEscapes m rectype n (off + u32 m (16 + off)) := by
  constructor
  · rintro ⟨i, hi, hp, he⟩
    cases i with
    | zero => exact .inl he
    | succ i => exact .inr ⟨hp 0 (by omega), i, by omega, fun j hj => hp (j + 1) (by omega), he⟩
  · rintro (he | ⟨h0, i, hi, hp, he⟩)
    · exact ⟨0, by omega, fun j hj => absurd hj (by omega), he⟩
    · refine ⟨i + 1, by omega, fun j hj => ?_, he⟩
      cases j with
      | zero => exact h0
      | succ j => exact hp j (by omega)

theorem listreplyLoop_cases (hm : m.length ≤ messageMaxlen) (hoff : off ≤ m.length) :
    (listreplyLoop m rectype n off = none ∧ SomeEscapes m rectype n off) ∨
      ∃ b, listreplyLoop m rectype n off = some b ∧ ¬ SomeEscapes m rectype n off ∧
        (b = true ↔ AllPass m rectype n off) := by
  induction n generalizing off with
  | zero =>
    exact .inr ⟨true, rfl, fun ⟨i, hi, _⟩ => absurd hi (by omega), by simp [AllPass]⟩
  | succ n ih =>
    rw [listreplyLoop, someEscapes_succ, allPass_succ]
    rcases listRound_cases hm rectype hoff with ⟨hr, he⟩ | ⟨hr, hp, he⟩ | ⟨hr, hp, he⟩
    · rw [hr]
      exact .inl ⟨rfl, .inl he⟩
    · rw [hr]
      have hin : 16 + off + u32 m (16 + off) + 4 ≤ m.length := hp.inside
      change (listreplyLoop m rectype n (off + u32 m (16 + off)) = none ∧ _) ∨
        ∃ b, listreplyLoop m rectype n (off + u32 m (16 + off)) = some b ∧ _
      rcases @ih (off + u32 m (16 + off)) (by omega) with ⟨hnone, hs⟩ | ⟨b, hb, hs, hall⟩
      · exact .inl ⟨hnone, .inr ⟨hp, hs⟩⟩
      · refine .inr ⟨b, hb, ?_, hall.trans ?_⟩
        · rintro (h | h)
          · exact he h
          · exact hs h.2
        · exact (and_iff_right hp).symm
    · rw [hr]
      refine .inr ⟨false, rfl, ?_, iff_of_false (by simp) fun h => hp h.1⟩
      rintro (h | h)
      · exact he h
      · exact hp h.1

end Anoubis.MsgVerify

import Anoubis.Proto.VerifyRecords

/-! The verification of all messages.

    `anoubis_msg_verify` reads nothing outside of the message and accepts only sound messages, of all types
    but four: a HELLO without its versions, a csmulti request with a path that does not end, a list of
    processes and a PGCHANGE. For these, `Holds` tells the messages that are treated as the others are. -/

namespace Anoubis.MsgVerify

open Anoubis.Lib Option
open Anoubis.Connection (Bytes u16 u32 csumLen)

variable {m : Bytes}

/-! ### Lists of processes -/

/-- The search for the contexts of the records stays in the message, and where it finds what it looks for in
    all records, they are in the records. -/
structure ListSafe (m : Bytes) : Prop where
  stays : ¬ SomeEscapes m (u16 m 14) (u16 m 12) 0
  contexts : u16 m 14 = recProclist → AllPass m recProclist (u16 m 12) 0 → ∀ i < u16 m 12,
    Contexts m (16 + recordOff m 0 i + u32 m (16 + recordOff m 0 i)) 3 (16 + recordOff m 0 i + procRecord)

/-- A record that passes, but for the places of its contexts. -/
theorem Passes.ok_iff {rectype off : ℕ} (h : Passes m rectype off) : ListRecordOk m rectype off ↔
    (rectype = recProclist → Contexts m (16 + off + u32 m (16 + off)) 3 (16 + off + procRecord)) := by
  constructor
  · intro hok hproc
    have := hok.strings
    rwa [ListStrings, if_pos hproc] at this
  · intro hc
    rw [Passes] at h
    split at h
    · rename_i hproc
      refine ⟨.inr (.inr hproc), ?_, h.1.2, ?_⟩
      · rw [listRecordSize, if_pos hproc]
        exact h.1.1
      · rw [ListStrings, if_pos hproc]
        exact hc hproc
    · rename_i hproc
      refine ⟨by have := h.1; tauto, ?_, h.2.1.2, ?_⟩
      · rw [listRecordSize, if_neg hproc]
        exact h.2.1.1
      · rw [ListStrings, if_neg hproc]
        exact h.2.2

theorem checks_listreply_iff (hm : m.length ≤ messageMaxlen) :
    Checks (verifyListreply m) (Sound .listrep m) ↔ (Inside m 0 16 → u32 m 8 = 0 → ListSafe m) := by
  have hlength : verifyLength m 16 = true ↔ Inside m 0 16 := verifyLength_iff hm (by decide)
  by_cases hin : Inside m 0 16
  · have hlen : 0 + 16 + 4 ≤ m.length := hin
    have herror : readU32 m 8 = some (u32 m 8) := readU32_eq (by omega)
    have hnrec : readU16 m 12 = some (u16 m 12) := readU16_eq (by omega)
    have hrectype : readU16 m 14 = some (u16 m 14) := readU16_eq (by omega)
    rw [verifyListreply, need_pos (hlength.mpr hin), herror, bind_eq_bind, bind_some]
    by_cases he : u32 m 8 ≠ 0
    · rw [if_pos he]
      exact iff_of_true (checks_true ⟨hin, fun h0 => absurd h0 he⟩) fun _ h0 => absurd h0 he
    · rw [if_neg he, hnrec, bind_some, hrectype, bind_some]
      have hz : u32 m 8 = 0 := not_not.mp he
      have hsound : Sound .listrep m ↔ ∀ i < u16 m 12, ListRecordOk m (u16 m 14) (recordOff m 0 i) :=
        ⟨fun h => h.2 hz, fun h => ⟨hin, fun _ => h⟩⟩
      rcases listreplyLoop_cases (n := u16 m 12) hm (Nat.zero_le m.length) with ⟨hnone, hs⟩ | ⟨b, hb, hs, hall⟩
      · refine iff_of_false ?_ fun h => (h hin hz).stays hs
        rintro ⟨b, hb, -⟩
        rw [hnone] at hb
        cases hb
      · rw [Decides.checks_iff ⟨b, hb, hall⟩, hsound]
        constructor
        · intro h _ _
          refine ⟨hs, fun hproc hp i hi => ?_⟩
          rw [← hproc] at hp
          exact (hp i hi).ok_iff.mp (h hp i hi) hproc
        · intro h hp i hi
          refine (hp i hi).ok_iff.mpr fun hproc => (h hin hz).contexts hproc ?_ i hi
          rwa [hproc] at hp
  · rw [verifyListreply, need_neg (mt hlength.mp hin)]
    exact iff_of_true checks_false fun h => absurd h hin

/-! ### PGCHANGE and HELLO -/

theorem checks_pgchange_iff (hm : m.length ≤ messageMaxlen) : Checks (verifyPgchange m) (Sound .pgchange m) ↔
    (Inside m 0 20 → m[20]? = some 0 ∨ StringAt m 20) := by
  have hlength : verifyLength m 20 = true ↔ Inside m 0 20 := verifyLength_iff hm (by decide)
  by_cases hin : Inside m 0 20
  · rw [verifyPgchange, need_pos (hlength.mpr hin), strlen]
    have hsound : Sound .pgchange m ↔ StringAt m 20 := ⟨fun h => h.2, fun h => ⟨hin, h⟩⟩
    cases hs : scan m 20 (m.length + 1) with
    | none =>
      obtain ⟨-, -, hno⟩ := scan_fails hs
      refine iff_of_false ?_ fun h => ?_
      · rintro ⟨b, hb, -⟩
        cases hb
      · rcases h hin with h0 | ⟨p, hle, -, hp⟩
        · exact hno 20 (Nat.le_refl _) h0
        · exact hno p hle hp
    | some r =>
      cases r with
      | none =>
        obtain ⟨b, hb, -⟩ := scan_none hs (show 20 ≤ 20 + m.length by omega) (by omega)
        rw [List.getElem?_eq_none_iff.mpr (by omega)] at hb
        cases hb
      | some p =>
        obtain ⟨hp, -⟩ := scan_some hs
        have hd : Decides (some (decide (p - 20 ≠ 0))) (p - 20 ≠ 0) := decides_decide
        refine hd.checks_iff.trans ?_
        rw [hsound]
        have hle := hp.le
        have h20 : m[20]? = some 0 ↔ ¬ p - 20 ≠ 0 := by
          constructor
          · intro h0 hne
            exact hp.first 20 (Nat.le_refl _) (by omega) h0
          · intro hz
            have hpz : p = 20 := by omega
            exact hpz ▸ hp.nul
        rw [h20]
        tauto
  · rw [verifyPgchange, need_neg (mt hlength.mp hin)]
    exact iff_of_true checks_false fun h => absurd h hin

theorem checks_hello_iff (hm : m.length ≤ messageMaxlen) :
    Checks (verifyGeneral m) (Sound .hello m) ↔ ¬ (8 ≤ m.length ∧ m.length < 12) := by
  have h4 : verifyLength m 4 = true ↔ Inside m 0 4 := verifyLength_iff hm (by decide)
  have h12 : verifyLength m (8 + 4 : ℕ) = true ↔ Inside m 0 12 := verifyLength_iff hm (by decide)
  have hd : Decides (verifyGeneral m) (Inside m 0 4 ∧ ¬ Inside m 0 12) := by
    refine ⟨_, rfl, ?_⟩
    rw [← h4, ← h12]
    simp
  have hsound : Sound .hello m ↔ Inside m 0 8 := ⟨fun h => h.1, fun h => ⟨h, trivial⟩⟩
  rw [hd.checks_iff, hsound]
  unfold Inside csumLen
  omega

/-! ### All messages -/

/-- The messages of a type for which the verification does what it should: most types have no others. -/
def Holds (m : Bytes) : MsgType → Prop
  | .hello => ¬ (8 ≤ m.length ∧ m.length < 12)
  | .csmultirequest => RequestAccepted m → ∀ off, RequestRecord m off → RequestPathOk m off
  | .listrep => Inside m 0 16 → u32 m 8 = 0 → ListSafe m
  | .pgchange => Inside m 0 20 → m[20]? = some 0 ∨ StringAt m 20
  | _ => True

/-- A type that is always treated right. -/
theorem checks_case {t : MsgType} {p : Check} (h : Checks p (Inside m 0 (structSize t)))
    (hparts : Inside m 0 (structSize t) → PartsOk m t) : Checks p (Sound t m) ↔ True :=
  iff_of_true (h.mono fun hin => ⟨hin, hparts hin⟩) trivial

theorem checks_case_iff (hm : m.length ≤ messageMaxlen) (t : MsgType) :
    Checks (verifyCase t m) (Sound t m) ↔ Holds m t := by
  have plain : ∀ {size : ℕ}, size < 1000 → Checks (checkFunction size m) (Inside m 0 size) :=
    fun h => checks_checkFunction hm h
  have strict : ∀ {size : ℕ}, size < 1000 → Checks (strictCheckFunction size m) (Inside m 0 size) :=
    fun h => checks_strictCheckFunction hm h
  cases t with
  | hello => exact checks_hello_iff hm
  | csmultirequest => exact (verifyCsmultireq_decides hm).checks_iff.trans (forall_congr' fun h => h.sound_iff)
  | listrep => exact checks_listreply_iff hm
  | pgchange => exact checks_pgchange_iff hm
  | authdata => exact iff_of_true (checks_authdata hm) trivial
  | csumrequest => exact iff_of_true (checks_csumrequest hm) trivial
  | csmultireply => exact iff_of_true (checks_csmultireply hm) trivial
  | passphrase => exact iff_of_true (checks_passphrase hm) trivial
  | pgcommit => exact iff_of_true (checks_pgcommit hm) trivial
  | ask => exact iff_of_true (checks_notify hm) trivial
  | notify => exact iff_of_true (checks_notify hm) trivial
  | lognotify => exact iff_of_true (checks_notify hm) trivial
  | reply => exact checks_case (plain (by decide)) fun _ => trivial
  | delegate => exact checks_case (plain (by decide)) fun _ => trivial
  | optreq => exact checks_case (plain (by decide)) fun _ => trivial
  | optack => exact checks_case (plain (by decide)) fun _ => trivial
  | protosel => exact checks_case (plain (by decide)) fun _ => trivial
  | csumList => exact checks_case (plain (by decide)) fun _ => trivial
  | request => exact checks_case (plain (by decide)) fun _ => trivial
  | policyReply => exact checks_case (plain (by decide)) fun _ => trivial
  | listreq => exact checks_case (plain (by decide)) fun _ => trivial
  | pgunlink => exact checks_case (plain (by decide)) fun _ => trivial
  | versel => exact checks_case (strict (by decide)) fun _ => trivial
  | auth => exact checks_case (strict (by decide)) fun _ => trivial
  | authreply => exact checks_case (strict (by decide)) fun _ => trivial
  | closereq => exact checks_case (strict (by decide)) fun _ => trivial
  | closeack => exact checks_case (strict (by decide)) fun _ => trivial
  | version => exact checks_case (strict (by decide)) fun _ => trivial
  | versionreply => exact checks_case (strict (by decide)) fun _ => trivial
  | register => exact checks_case (strict (by decide)) fun _ => trivial
  | unregister => exact checks_case (strict (by decide)) fun _ => trivial
  | resyou => exact checks_case (strict (by decide)) fun _ => trivial
  | resother => exact checks_case (strict (by decide)) fun _ => trivial
  | policychange => exact checks_case (strict (by decide)) fun _ => trivial
  | statusnotify => exact checks_case (strict (by decide)) fun _ => trivial

/-- The verification of a message reads nothing outside of it, and accepts it only if it is sound. -/
def Verified (m : Bytes) : Prop :=
  Checks (anoubisMsgVerify m) (∃ t, msgType (u32 m 0) = some t ∧ Sound t m)

theorem verified_case (hm : m.length ≤ messageMaxlen) (hin : Inside m 0 4) {t : MsgType}
    (ht : msgType (u32 m 0) = some t) : Verified m ↔ Holds m t := by
  have hfield : verifyField m 4 = true := decide_eq_true (by unfold Inside at hin; omega)
  have hlen : 0 + 4 + 4 ≤ m.length := hin
  have hcase : anoubisMsgVerify m = verifyCase t m := by
    rw [anoubisMsgVerify, need_pos (by omega), need_pos hfield, readU32_eq (by omega), bind_eq_bind,
      bind_some, ht]
  rw [← checks_case_iff hm t, Verified, hcase]
  constructor
  · exact fun h => h.mono fun ⟨t', ht', hs⟩ => some.inj (ht'.symm.trans ht) ▸ hs
  · exact fun h => h.mono fun hs => ⟨t, ht, hs⟩

/-- The verification is safe and sufficient for exactly the messages that `Holds` tells. -/
theorem verified_iff (m : Bytes) : Verified m ↔
    (m.length ≤ messageMaxlen → Inside m 0 4 → ∀ t, msgType (u32 m 0) = some t → Holds m t) := by
  by_cases hm : m.length ≤ messageMaxlen
  · by_cases hin : Inside m 0 4
    · cases ht : msgType (u32 m 0) with
      | some t =>
        rw [verified_case hm hin ht]
        exact ⟨fun h _ _ t' ht' => Option.some.inj ht' ▸ h, fun h => h hm hin t rfl⟩
      | none =>
        have hfield : verifyField m 4 = true := decide_eq_true (by unfold Inside at hin; omega)
        have hlen : 0 + 4 + 4 ≤ m.length := hin
        refine iff_of_true ?_ fun _ _ t ht' => by cases ht'
        refine checks_need fun _ => checks_need fun _ => Checks.bind (readU32_eq (by omega)) ?_
        rw [ht]
        exact checks_false
    · refine iff_of_true (checks_need fun _ => ?_) fun _ h => absurd h hin
      rw [need_neg (fun hf => hin ?_)]
      · exact checks_false
      · have := of_decide_eq_true hf
        unfold Inside
        omega
  · refine iff_of_true ?_ fun h => absurd h hm
    rw [Verified, anoubisMsgVerify, need_neg (by omega)]
    exact checks_false

/-- A PGCHANGE message without a NUL byte behind its fields. -/
def pgchangeWithoutNul : Bytes := [0, 0, 0x40, 0x18] ++ List.replicate 20 1

/-- The length of its command is looked for behind its end. -/
theorem not_verified_pgchange : ¬ Verified pgchangeWithoutNul := by
  have hnone : anoubisMsgVerify pgchangeWithoutNul = none := by decide +kernel
  rintro ⟨b, hb, -⟩
  rw [hnone] at hb
  cases hb

end Anoubis.MsgVerify

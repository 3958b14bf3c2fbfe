import Anoubis.Daemon.SizesSound

/-! What the size of a checksum operation says about it, and the messages of the daemon.

    A csmulti request is a list of records that ends with a record of the length zero. The walk over it ends
    since every record has at least its header, and it has seen all records that a receiver can reach:

        │ key ID … │ length │ index, cslen │ checksum │ path 0 … │ length │ … │ 0 │ … │ csum │
          recoff   r                                             r + length        -/

namespace Anoubis.Daemon.Sizes

open Anoubis.Lib
open Anoubis.Connection (Bytes u16 u32 csumLen)
open Anoubis.MsgVerify (int readU16 readU32 readU16_eq readU32_eq u16_lt u32_lt opAddsum opAddsig)
open Anoubis.PathEvent (peParsePathEvent peParsePathEvent_spec Declared)

attribute [local irreducible] int

variable {α : Type} {m : Bytes} {K : Kernel} {Q : α → Cur → Prop} {c : Cur} {b : ℕ} {l : ℤ} {P P' : ℤ → Prop}

/-! ### Records -/

variable {fin fin' v : ℕ} {f : Unit → Walk Cur ℤ α}

theorem RecordIn.mono {r : ℕ} (h : RecordIn m fin r) (hle : fin ≤ fin') : RecordIn m fin' r :=
  ⟨Nat.le_trans h.header hle, Nat.le_trans h.record hle, h.checksum, h.path⟩

theorem recordSize_measures (h : Region m b l) : Measures (amsgCsmultiRequestRecordSize m)
      (fun r => r ≤ l ∧ 8 + u16 m (b + 6) ≤ l ∧ StringIn m (b + 8 + u16 m (b + 6)) (b + l.toNat)) ⟨b, l, 0⟩ := by
  have hin := h.inside
  refine struct_rule h fun hsize hle hs => peek_rule (readU16_eq (by dsimp only; omega)) ?_
  have hlt := u16_lt (m := m) (b + 6)
  refine count_rule (by dsimp only; omega) (h.rest hle hs) fun hcs hrest => ?_
  refine string_rule hrest fun k _ ⟨p, hp, hpk⟩ hrest' => ?_
  have h0 := hrest'.nonneg
  dsimp only at hcs hp hpk h0
  exact hrest'.returns ⟨by dsimp only; omega, by omega, p, hp, by omega⟩

theorem int_of_nonneg (hv : v < 4294967296) (h : 0 ≤ int v) : int v = v := by
  rw [int, Int.bmod] at h ⊢
  split at h <;> split <;> omega

theorem int_eq_zero (hv : v < 4294967296) : int v = 0 ↔ v = 0 := by
  rw [int, Int.bmod]
  split <;> omega

theorem csmultiRecords_rule {fuel : ℕ} {Q : Unit → Cur → Prop} (hc : Rest m c) (hfuel : c.len < fuel)
    (h : ∀ k : ℕ, (∀ r, Relation.ReflTransGen (NextRecord m) c.buf r → RecordIn m (c.buf + k + 8) r) →
      Rest m ⟨c.buf + k, c.len - k, c.size + k⟩ → Q () ⟨c.buf + k, c.len - k, c.size + k⟩) :
    wp Refused (csmultiRecords m fuel) Q c := by
  induction fuel generalizing c with
  | zero =>
    have := hc.nonneg
    omega
  | succ fuel ih =>
    have hin := hc.inside
    have hlen := hc.len
    refine castTo_region fun h8 => get_rule (peek_rule (readU32_eq (by omega)) ?_)
    have hlt := u32_lt (m := m) c.buf
    refine ite_rule (fun h0 => ?_) fun hne => ite_rule (fun _ => refused) fun hfit => ?_
    · rw [int_eq_zero hlt] at h0
      have hend := h 0 (fun r hr => ?_) (by simpa using hc)
      · simpa using hend
      rcases Relation.ReflTransGen.cases_head hr with rfl | ⟨r', ⟨hne, -⟩, -⟩
      · exact ⟨by omega, by omega, fun h => absurd h0 h, fun h => absurd h0 h⟩
      · exact absurd h0 hne
    · refine call_rule (recordSize_measures ⟨by omega, by omega⟩) fun reallen hr => ?_
      refine ite_rule (fun _ => refused) fun hreal => ?_
      obtain ⟨h0, -, hle, hcs, hstr⟩ := hr.resolve_left fun hneg => hreal (.inl hneg.2)
      have hint := int_of_nonneg hlt (Int.le_trans h0 hle)
      rw [hint] at hfit hcs hstr ⊢
      rw [int_eq_zero hlt] at hne
      refine count_rule hlt hc fun _ hrest => ?_
      refine ih hrest (by dsimp only; omega) fun k hall hrest' => ?_
      have hbuf : c.buf + u32 m c.buf + k = c.buf + (u32 m c.buf + k) := add_assoc ..
      have hl : c.len - (u32 m c.buf : ℤ) - (k : ℤ) = c.len - ((u32 m c.buf + k : ℕ) : ℤ) := by omega
      have hsz : c.size + (u32 m c.buf : ℤ) + (k : ℤ) = c.size + ((u32 m c.buf + k : ℕ) : ℤ) := by omega
      dsimp only at hall hrest' ⊢
      rw [hbuf, hl, hsz] at hrest'
      rw [hbuf, hl, hsz]
      rw [hbuf] at hall
      refine h _ (fun r hr => ?_) hrest'
      rcases Relation.ReflTransGen.cases_head hr with rfl | ⟨r', ⟨-, rfl⟩, hr'⟩
      · exact ⟨by omega, by omega, fun _ => by omega, fun _ => by simpa using hstr⟩
      · exact hall r hr'

/-! ### Checksum operations -/

theorem csmultiSize_rule (hc : Rest m c)
    (h : ∀ fin : ℕ, fin ≤ c.buf + c.len → CsmultiOk m c.buf fin → c.size + (fin - c.buf) ≤ sizeLimit →
      ∀ c' : Cur, c'.size = c.size + (fin - c.buf) → wp Refused (f ()) Q c') :
    wp Refused (csmultiSize m >>= f) Q c := by
  obtain ⟨hin, h0, hlen, hsz⟩ := hc
  rw [wp_bind, csmultiSize]
  refine castTo_region fun h16 => get_rule (peek_rule (readU16_eq (by omega)) (peek_rule (readU16_eq (by omega)) ?_))
  refine shiftField_rule hlen hsz (fun _ _ hs => ?_) fun _ => refused
  refine ite_rule (fun _ => refused) fun hid => ?_
  have hrec := u16_lt (m := m) (c.buf + 14)
  have hrest : Rest m ⟨c.buf + 16, c.len - 16, c.size + 16⟩ :=
    ⟨by dsimp only; omega, by dsimp only; omega, by dsimp only; omega, by dsimp only; omega⟩
  refine count_rule (by omega) hrest fun _ hrest' => (wp_bind _ _).mpr ?_
  have hmax := hrest'.inside
  have hpos := hrest'.nonneg
  dsimp only at hmax hpos
  refine csmultiRecords_rule hrest' (by dsimp only; omega) fun k hall hrest'' => ?_
  rw [← bind_pure (shiftCnt 8)]
  refine count_rule (show 8 < 4294967296 by decide) hrest'' fun hle hend => ?_
  dsimp only at hall hle
  have hsize := hend.size.2
  have hstart : c.buf + 16 + u16 m (c.buf + 14) + k + 8 ≥ c.buf + 16 + u16 m (c.buf + 12) := by omega
  dsimp only at hsize
  refine h (c.buf + 16 + u16 m (c.buf + 14) + k + 8) (by omega) ⟨hstart, hall⟩ (by omega) _ ?_
  dsimp only
  omega

theorem csumrequestSize_rule (hc : Rest m c)
    (h : ∀ fin : ℕ, fin ≤ c.buf + c.len → CsumOk m c.buf fin → c.size + (fin - c.buf) ≤ sizeLimit →
      ∀ c' : Cur, c'.size = c.size + (fin - c.buf) → wp Refused (f ()) Q c') :
    wp Refused (csumrequestSize m >>= f) Q c := by
  obtain ⟨hin, h0, hlen, hsz⟩ := hc
  rw [wp_bind, csumrequestSize]
  refine castTo_region fun h18 => get_rule (peek_rule (readU32_eq (by omega)) ?_)
  have hid := u16_lt (m := m) (c.buf + 16)
  refine ite_rule (fun hadd => ?_) fun hother => ?_
  · refine castTo_region fun h20 => peek_rule (readU16_eq (by omega)) (ite_rule (fun _ => refused) fun hcs => ?_)
    have hcslt := u16_lt (m := m) (c.buf + 18)
    refine shiftField_rule hlen hsz (fun _ _ hs => ?_) fun _ => refused
    have hrest : Rest m ⟨c.buf + 20, c.len - 20, c.size + 20⟩ :=
      ⟨by dsimp only; omega, by dsimp only; omega, by dsimp only; omega, by dsimp only; omega⟩
    refine peek_rule (readU16_eq (by omega)) (count_rule (by omega) hrest fun _ hrest' => ?_)
    refine count_rule (by omega) hrest' fun _ hrest'' => ?_
    rw [← bind_pure (shiftString m)]
    refine string_rule hrest'' fun k _ ⟨p, hp, hpk⟩ hend => ?_
    have hsize := hend.size.2
    have hmax := hend.nonneg
    dsimp only at hp hpk hsize hmax
    refine h (p + 1) (by omega) ⟨fun _ => ⟨by omega, p, hp, Nat.lt_succ_self p⟩, fun hno => absurd hadd hno⟩
      (by omega) _ ?_
    dsimp only
    omega
  · refine shiftField_rule hlen hsz (fun _ _ hs => ?_) fun _ => refused
    have hrest : Rest m ⟨c.buf + 18, c.len - 18, c.size + 18⟩ :=
      ⟨by dsimp only; omega, by dsimp only; omega, by dsimp only; omega, by dsimp only; omega⟩
    refine peek_rule (readU16_eq (by omega)) (count_rule (by omega) hrest fun _ hrest' => ?_)
    refine count_rule (show 0 < 4294967296 by decide) hrest' fun _ hrest'' => ?_
    rw [← bind_pure (shiftString m)]
    refine string_rule hrest'' fun k _ ⟨p, hp, hpk⟩ hend => ?_
    have hsize := hend.size.2
    have hmax := hend.nonneg
    dsimp only [add_zero] at hp hpk hsize hmax
    refine h (p + 1) (by omega) ⟨fun hyes => absurd hyes hother, fun _ => ⟨p, hp, Nat.lt_succ_self p⟩⟩
      (by omega) _ ?_
    dsimp only
    omega

theorem CsmultiOk.mono (h : CsmultiOk m b fin) (hle : fin ≤ fin') : CsmultiOk m b fin' :=
  ⟨Nat.le_trans h.keyid hle, fun r hr => (h.records r hr).mono hle⟩

theorem CsumOk.mono (h : CsumOk m b fin) (hle : fin ≤ fin') : CsumOk m b fin' :=
  ⟨fun ha => ⟨(h.add ha).1, (h.add ha).2.mono hle⟩, fun ho => (h.other ho).mono hle⟩

theorem CsumOk.le (h : CsumOk m b fin) : b ≤ fin := by
  by_cases hadd : HasChecksum m b
  · obtain ⟨p, hp, hlt⟩ := (h.add hadd).2
    have := hp.le
    omega
  · obtain ⟨p, hp, hlt⟩ := h.other hadd
    have := hp.le
    omega

theorem ChecksumopOk.mono {n n' : ℕ} (h : ChecksumopOk m b n) (hle : n ≤ n') : ChecksumopOk m b n' :=
  ⟨Nat.le_trans h.csum hle, fun ht => (h.multi ht).mono (by omega), fun ht => (h.single ht).mono (by omega)⟩

theorem amsgSfsChecksumopSize_measures (h : Region m b l) :
    Measures (amsgSfsChecksumopSize m) (fun r => ChecksumopOk m b r.toNat ∧ r ≤ l) ⟨b, l, 0⟩ := by
  have hlim : sizeLimit = 50000 := rfl
  have hcl : csumLen = 4 := rfl
  have hin := h.inside
  have hl := h.len
  refine popCnt_rule (by decide) size_zero (fun hle hs => ?_) fun _ => refused
  dsimp only at hle hs ⊢
  refine castTo_region fun h4 => get_rule (peek_rule (readU32_eq (by dsimp only at h4 ⊢; omega)) ?_)
  dsimp only at h4
  have hrest : Rest m ⟨b, l - csumLen, 0 + csumLen⟩ :=
    ⟨by dsimp only; omega, by dsimp only; omega, by dsimp only; omega, by dsimp only; omega⟩
  refine ite_rule (fun ht => ?_) fun ht => ?_
  · refine csmultiSize_rule hrest fun fin hfin hok hs' c' hc' => ?_
    have hge : b + 16 + u16 m (b + 12) ≤ fin := hok.keyid
    dsimp only at hfin hok hs' hc'
    refine returnSize_measures (by omega) ⟨⟨by omega, fun _ => hok.mono (by omega), fun hne => absurd ht hne⟩, by omega⟩
  · refine csumrequestSize_rule hrest fun fin hfin hok hs' c' hc' => ?_
    have hge : b ≤ fin := hok.le
    dsimp only at hfin hok hs' hc'
    refine returnSize_measures (by omega) ⟨⟨by omega, fun he => absurd he ht, fun _ => hok.mono (by omega)⟩, by omega⟩

theorem csumopSize_measures (h : Region m 8 l) : Measures (csumopSize m)
      (fun r => r ≤ l → ShortPart m 20 22 ∧ ChecksumopOk m 22 (short (host m 20 2)).toNat) ⟨8, l, 0⟩ := by
  have hin := h.inside
  have hl := h.len
  have hrange := short_range (host m 20 2)
  refine struct_rule h fun hsize hle hs => peek_rule (readHost_eq (by dsimp only; omega)) ?_
  have hrest : Rest m ⟨22, l - 14, 14⟩ := h.rest hle hs
  dsimp only [Nat.reduceAdd]
  refine addSize_rule (by omega) hrest.size (fun h0 hs' => get_rule ?_) fun _ => refused
  refine call_rule (amsgSfsChecksumopSize_measures ⟨hrest.inside, hrest.len⟩) fun r hr => ?_
  refine ite_rule (fun _ => refused) fun hfit => ?_
  obtain ⟨hr0, -, hok, -⟩ := hr.resolve_left fun hneg => hfit (.inl hneg.2)
  have hle' : r ≤ short (host m 20 2) := by omega
  dsimp only at hs'
  refine returnSize_measures ⟨by dsimp only; omega, hs'⟩ fun hfin => ?_
  dsimp only at hfin
  refine ⟨⟨h0, ?_⟩, hok.mono (by omega)⟩
  unfold Within
  omega

/-! ### Messages -/

/-- Every case of `anoubisd_msg_size`: the parts of a message that is as long as its size lie in it. -/
theorem caseSize_measures (h : Region m 8 l) (hlen : l = (m.length : ℤ) - 8) (t : MsgType) :
    Measures (caseSize K m t) (fun r => r ≤ l → PartsOk m K t) ⟨8, l, 0⟩ := by
  have hfix : ∀ size : ℕ, Measures (checkFunction size) (fun r => r ≤ l → Within m 8 size) ⟨8, l, 0⟩ := by
    intro size
    refine (checkFunction_measures h size).mono fun r _ ⟨_, hle⟩ _ => ?_
    unfold Within
    omega
  have hstring : ∀ size field : ℕ, Measures (stringCheckFunction m size field)
      (fun r => r ≤ l → StringIn m (8 + field) m.length) ⟨8, l, 0⟩ := by
    intro size field
    refine (stringCheckFunction_measures h size field).mono fun r _ ⟨_, _, p, hp, _⟩ _ => ⟨p, hp, hp.lt_length⟩
  have hweak : ∀ {w : Walk Cur ℤ ℤ} {p : Prop}, Measures w (fun _ => p) ⟨8, l, 0⟩ →
      Measures w (fun r => r ≤ l → p) ⟨8, l, 0⟩ := fun hw => hw.mono fun _ _ hp _ => hp
  cases t with
  | polrequest => exact hweak (polrequestSize_measures h)
  | polreply => exact hweak (csumreplySize_measures h)
  | checksumreply => exact hweak (csumreplySize_measures h)
  | csmultireply => exact hweak (csumreplySize_measures h)
  | checksumOp => exact csumopSize_measures h
  | csmultirequest => exact csumopSize_measures h
  | eventdev =>
    refine hweak ((eventdevHdrSize_measures h).mono fun r _ hev => ?_)
    have hnat : l.toNat = m.length - 8 := by omega
    rwa [hnat] at hev
  | logrequest => exact hweak (eventaskSize_measures h)
  | eventask => exact hweak (eventaskSize_measures h)
  | pgchange => exact hstring 24 20
  | sfscacheInvalidate => exact hweak (sfscacheInvalidateSize_measures h)
  | upgrade => exact hweak (upgradeSize_measures h)
  | sfsUpdateAll => exact hweak (sfsUpdateAllSize_measures h)
  | config => exact hweak (configSize_measures h)
  | logit => exact hweak (logitSize_measures h)
  | passphrase => exact hstring 0 0
  | authChallenge => exact hweak (partsSize_measures h (by decide) (by decide))
  | authVerify => exact hweak (partsSize_measures h (by decide) (by decide))
  | listreply => exact hweak (replySize_measures h (by decide))
  | pgcommit => exact hstring 40 37
  | pgcommitReply => exact hweak (replySize_measures h (by decide))
  | polrequestAbort => exact hfix _
  | policychange => exact hfix _
  | eventreply => exact hfix _
  | eventcancel => exact hfix _
  | authRequest => exact hfix _
  | authResult => exact hfix _
  | listrequest => exact hfix _
  | pgunlink => exact hfix _
  | pgunlinkReply => exact hfix _

theorem msgWalk_measures (hm : m.length < 2147483648) :
    Measures (msgWalk K m) (fun r => r ≤ m.length → MsgOk m K) ⟨0, m.length, 0⟩ := by
  have hregion : Region m 0 m.length := ⟨by omega, by omega⟩
  refine struct_rule hregion fun hsize hle hs => peek_rule (readHost_eq (by dsimp only; omega)) ?_
  have hrest : Rest m ⟨8, m.length - 8, 8⟩ := hregion.rest hle hs
  dsimp only [Nat.reduceAdd]
  split
  · exact refused
  rename_i t ht
  refine variant_rule (caseSize_measures ⟨hrest.inside, hrest.len⟩ rfl t) hrest.size fun r h0 hok hs' => ?_
  have hsz := hrest.size
  dsimp only at hok hs' hsz ⊢
  refine returnSize_measures ⟨by dsimp only; omega, hs'⟩ fun hfin => ?_
  dsimp only at hfin
  exact ⟨by unfold Within; omega, t, ht, hok (by omega)⟩

/-- What the policy engine gets from an event on two paths. -/
def PathsReceived (K : Kernel) (m : Bytes) : Prop :=
  ∃ ev, peParsePathEvent K m 8 = some ev ∧
    (ev ≠ none → Declared K m (8 + K.eventdevHdr) (8 + field m 8 K.msgSize))

/-- Headers of a kernel on a 64 bit machine. -/
def sampleKernel : Kernel where
  source n := ([(10, .alf), (20, .sandbox), (30, .sfs), (31, .sfsexec), (32, .sfspath), (40, .process), (50, .stat),
    (60, .ipc), (70, .playground), (71, .playgroundproc), (72, .playgroundfile)] : List (ℕ × Source)).lookup n
  opOpen := 1
  opRename := 2
  pathOpLink := 1
  pathOpRename := 2
  pathOpLock := 3
  pathOpUnlock := 4
  eventdevHdr := 24
  msgSize := ⟨0, 2⟩
  msgSource := ⟨2, 1⟩
  msgUid := ⟨12, 4⟩
  alfEvent := 40
  acProcessMessage := 32
  acIpcMessage := 32
  pgProcMessage := 32
  anoubisStatMessage := 8
  eventdevReply := 12
  eventdevToken := 4
  sfsOpenMessage := 80
  pathhint := 72
  pgOpenMessage := 40
  pathbuf := 32
  pgOp := ⟨24, 4⟩
  pgFileMessage := 24
  pgFilePath := 16
  sfsPathMessage := 24
  paths := 20
  pathOp := ⟨8, 4⟩
  taskCookie := ⟨0, 8⟩
  pathlen0 := ⟨12, 4⟩
  pathlen1 := ⟨16, 4⟩
  msgSize_in := by decide
  msgSource_in := by decide
  msgUid_in := by decide
  pathOp_in := by decide
  taskCookie_in := by decide
  pgOp_in := by decide
  pathlen0_in := by decide
  pathlen1_in := by decide
  paths_in := by decide
  msgSize_width := by decide

/-- A rename of "a" to "b" with both lengths given as `n`. -/
def sampleRename (n : UInt8) : Bytes :=
  [56, 0, 0, 0, 4, 0, 0, 0] ++
  [48, 0, 32, 0, 1, 0, 0, 0, 0, 0, 0, 0, 0, 0, 0, 0, 0, 0, 0, 0, 0, 0, 0, 0] ++
  [7, 0, 0, 0, 0, 0, 0, 0, 2, 0, 0, 0, n, 0, 0, 0, n, 0, 0, 0] ++ [97, 0, 98, 0]

end Anoubis.Daemon.Sizes

import Anoubis.Daemon.CsmultiReply
import Anoubis.Daemon.SfsConfined
import Anoubis.Daemon.SfsFile

/-! Processing a csmulti request (`sfs_process_csmulti`).

    The master works on the records in order and counts the length of the reply on the way. It stops behind
    the record with which the reply gets longer than 16000 bytes; the client asks again for what is left:

        record 0 │ record 1 │ … │ record k │ … │ record n
        └───── executed, answered ─────────┘   neither

    The system may answer the calls of the operations in any way, but what it reads out of a file is what
    `sfs_readsfsdata` makes of some bytes. -/

namespace Anoubis.Daemon.Sfs

open Anoubis.Lib List
open Anoubis.Lib.Prog Option
open Anoubis.Connection (Bytes csumLen)
open Anoubis.MsgVerify (opAddsum opAddsig opDel opDelsig uint u16_lt readU16 verifyCsmultireply messageMaxlen)
open Anoubis.Daemon.Csmulti (CsmultiRecord sfsParseCsmulti known)
open Anoubis.Apn (toInt32)

/-! ### What a file gives -/

/-- What a call of `sfs_readsfsdata` returns: a file that cannot be opened, or what is read from one. -/
inductive FileRead : Except ℤ SfsData → Prop
  | unopened (e : ℤ) (errno : -4096 < e ∧ e < 0) : FileRead (.error e)
  | failed (alloc : ℕ → ℕ → Bool) (file : Bytes) (e : ℤ) (read : sfsReadFile alloc file = .error e) : FileRead (.error e)
  | done (alloc : ℕ → ℕ → Bool) (file : Bytes) (d : SfsData) (read : sfsReadFile alloc file = .done d) :
      FileRead (.ok d)

/-- The negative of an error number. -/
def ErrorNumber (e : ℤ) : Prop := -2147483648 ≤ e ∧ e < 0

instance (e : ℤ) : Decidable (ErrorNumber e) := inferInstanceAs (Decidable (_ ∧ _))

/-- The fields of a file are short. -/
def ShortFields (d : SfsData) : Prop := ∀ type, (d.field type).length ≤ maxFieldLength

/-- Reading a file fails with an error number, or it gives short fields. -/
def GoodResult : ReadResult → Prop
  | .error e => ErrorNumber e
  | .assertion => True
  | .done d => ShortFields d

/-- The same for an operation. -/
def GoodData : Except ℤ SfsData → Prop
  | .error e => ErrorNumber e
  | .ok d => ShortFields d

variable {alloc : ℕ → ℕ → Bool} {file databuf : Bytes} {d : SfsData} {toc : List TocEntry} {e : ℤ} {n i : ℕ}

theorem readBytes_error (hn : n < wordMod) (h : readBytes n file = .error e) : ErrorNumber e := by
  rw [wordMod] at hn
  rw [readBytes] at h
  split at h
  · cases h
    decide
  · split at h
    · rename_i hneg
      cases h
      rw [toInt32] at hneg
      rw [ErrorNumber, toInt32]
      split at hneg
      · omega
      · rename_i hbig
        rw [if_neg hbig]
        omega
    · cases h

theorem readToc_error (h : readToc n file = .error e) : ErrorNumber e := by
  induction n generalizing file with
  | zero =>
    cases h
    decide
  | succ n ih =>
    rw [readToc] at h
    cases hread : readBytes 12 file with
    | error e' =>
      rw [hread] at h
      cases h
      exact readBytes_error (by decide) hread
    | ok x =>
      rw [hread] at h
      dsimp only at h
      split at h
      · cases h
      split at h
      · cases h
        decide
      split at h
      · cases h
        decide
      cases hrest : readToc n x.2 with
      | error e' =>
        rw [hrest] at h
        cases h
        exact ih hrest
      | ok y =>
        rw [hrest] at h
        cases h

theorem readTable_error (h : readTable file = .error e) : ErrorNumber e := by
  rw [readTable] at h
  cases hread : readBytes 4 file with
  | error e' =>
    rw [hread] at h
    cases h
    exact readBytes_error (by decide) hread
  | ok x =>
    rw [hread] at h
    dsimp only at h
    split at h
    · cases h
      decide
    cases htoc : readToc numSfsdataTypes x.2 with
    | error e' =>
      rw [htoc] at h
      cases h
      exact readToc_error htoc
    | ok y =>
      rw [htoc] at h
      dsimp only at h
      split at h
      · cases h
        decide
      · cases h

theorem field_setField_le {t : ℕ} {b : Bytes} (hd : ShortFields d) (hb : b.length ≤ maxFieldLength) :
    ShortFields (d.setField t b) := by
  intro type
  by_cases h : type = t
  · subst h
    by_cases hgood : 0 < type ∧ type < numSfsdataTypes
    · rw [field_setField hgood.1 hgood.2]
      exact hb
    · have hnone : (d.setField type b).field type = [] := by
        simp only [numSfsdataTypes] at hgood
        have hcs : type ≠ typeCs := by rw [typeCs]; omega
        have hsig : type ≠ typeSig := by rw [typeSig]; omega
        have hup : type ≠ typeUpgradeCs := by rw [typeUpgradeCs]; omega
        rw [SfsData.field, if_neg hcs, if_neg hsig, if_neg hup]
      rw [hnone]
      exact Nat.zero_le _
  · rw [field_setField_ne h]
    exact hd type

theorem good_copyEntries {offset : ℕ} (hd : ShortFields d) (htoc : ∀ x ∈ toc, x.length ≤ maxFieldLength) :
    GoodResult (copyEntries alloc databuf offset i toc d) := by
  induction toc generalizing d i with
  | nil => exact hd
  | cons x toc ih =>
    rw [forall_mem_cons] at htoc
    rw [copyEntries]
    split
    · exact (by decide : ErrorNumber einval)
    split
    · exact (by decide : ErrorNumber einval)
    split
    · exact (by decide : ErrorNumber (-12))
    cases hcopy : abufCopyPart databuf ((x.offset + (wordMod - offset)) % wordMod) x.length with
    | none => trivial
    | some b =>
      have hb : b.length ≤ maxFieldLength := by
        rw [abufCopyPart] at hcopy
        split at hcopy
        · cases hcopy
          exact (length_take_le _ _).trans htoc.1
        · cases hcopy
      exact ih (field_setField_le hd hb) htoc.2

theorem good_readFile : GoodResult (sfsReadFile alloc file) := by
  rw [sfsReadFile]
  cases htable : readTable file with
  | error e => exact readTable_error htable
  | ok x =>
    obtain ⟨toc, rest⟩ := x
    dsimp only
    split
    · exact (by decide : ErrorNumber (-12))
    cases hdata : readBytes (dataSize toc) rest with
    | error e => exact readBytes_error (Nat.mod_lt _ (by decide)) hdata
    | ok y =>
      obtain ⟨-, -, -, -, hgood⟩ := readTable_ok htable
      refine good_copyEntries (fun type => ?_) fun x hx => (hgood x hx).2.2.2.2
      simp [SfsData.field]

theorem FileRead.good {r : Except ℤ SfsData} (h : FileRead r) : GoodData r := by
  cases h with
  | unopened e errno => exact ⟨by omega, errno.2⟩
  | failed alloc file e read =>
    have hgood : GoodResult (sfsReadFile alloc file) := good_readFile
    rwa [read] at hgood
  | done alloc file d read =>
    have hgood : GoodResult (sfsReadFile alloc file) := good_readFile
    rwa [read] at hgood

/-! ### One record -/

/-- A call that other processes notice. -/
def isSent : Call → Bool
  | .invalidate _ _ | .reply _ => true
  | _ => false

/-- The longest data of a record: three entries and the last one. -/
def maxData : ℕ := 3 * (8 + maxFieldLength) + 8

/-- What a get operation returns: an error number or the data of short fields; other operations return no data. -/
def GoodOutcome (get : Bool) : Except ℤ Bytes → Prop
  | .error e => get = true → ErrorNumber e
  | .ok data => if get then ∃ d, ShortFields d ∧ data = sigRecords d else data = []

section Outcomes

variable {σ : Type} {handle : σ → (c : Call) → Answer c × σ} {m : Master} {csop : Checksumop} {s : σ} {get : Bool}
variable {root : Text} {certs : List Cert} {cert : Option Cert}

theorem convertUserPath_error {path : Text} {dir : Bool} (h : convertUserPath root path dir = .error e) :
    e = einval := by
  rw [convertUserPath] at h
  split_ifs at h <;> exact (Except.error.inj h).symm

theorem checksumFile_error {csumPath : Text} (h : checksumFile certs csop csumPath = .error e) : ErrorNumber e := by
  rw [checksumFile] at h
  split at h
  · split_ifs at h <;> (obtain rfl := Except.error.inj h; decide)
  · split at h
    · split at h
      · cases h
        decide
      · split at h
        · cases h
          decide
        · split_ifs at h <;> (obtain rfl := Except.error.inj h; decide)
    · cases h
      decide

theorem good_checkData (hd : ShortFields d) : GoodData (checkData cert d) := by
  have hnosig : ShortFields { d with sigdata := [] } := field_setField_le (t := typeSig) (b := []) hd (Nat.zero_le _)
  cases cert with
  | none =>
    rw [checkData]
    split
    · exact (by decide : ErrorNumber einval)
    · exact hnosig
  | some cert =>
    rw [checkData]
    split
    · exact (by decide : ErrorNumber einval)
    split
    · split
      · exact (by decide : ErrorNumber enoent)
      split
      · exact (by decide : ErrorNumber enoent)
      · exact hd
    · exact hnosig

/-- The quiet calls of an operation, and what it ends with. -/
abbrev Quiet {α : Type} (handle : σ → (c : Call) → Answer c × σ) (Q : α → Prop) (p : Work α) (s : σ) : Prop :=
  p.Safe (Does handle) (fun _ c => isSent c = false) (fun a _ => Q a) s

section

variable (hread : ∀ s f, FileRead (handle s (.read f)).1)
include hread

theorem quiet_checksumWork {dir file : Text} :
    Quiet handle (fun r => isGet csop.op = true → GoodData r) (checksumWork root csop dir file cert) s := by
  have hwrite : ∀ data : SfsData, data.upgradecsdata = [] →
      Quiet handle (fun _ => True) (sfsWritesfsdata root file dir data) s := fun data hup =>
    safe_writesfsdata hup (fun _ => rfl) (fun _ _ => rfl) (fun _ => rfl) (fun _ => rfl) (fun _ _ _ => rfl) fun _ => rfl
  rw [checksumWork]
  split
  · rename_i hop
    refine (hwrite _ rfl).bind fun r s _ => fun hget => ?_
    rw [hop] at hget
    exact absurd hget (by decide)
  split
  · rename_i hop
    refine (hwrite _ rfl).bind fun r s _ => fun hget => ?_
    rw [hop] at hget
    exact absurd hget (by decide)
  split
  · refine ⟨rfl, fun r s' hstep _ => ?_⟩
    have hr : (handle s (.read file)).1 = r := congrArg Prod.fst hstep
    have hgood : GoodData r := (hr ▸ hread s file : FileRead r).good
    cases r with
    | error e => exact hgood
    | ok d => exact good_checkData hgood
  · rename_i hget
    have hdelete : Quiet handle (fun _ => True) (sfsDeletechecksum root file) s :=
      safe_deletechecksum (fun _ => rfl) fun _ _ => ⟨rfl, rfl⟩
    exact hdelete.bind fun r s _ h => absurd h hget

theorem quiet_checksumopAt {data isChroot : Bool} :
    Quiet handle (fun r => isGet csop.op = true → GoodData r) (sfsChecksumopAt root certs csop data isChroot) s := by
  rw [sfsChecksumopAt]
  split
  · exact fun _ => (by decide : ErrorNumber einval)
  split
  · exact fun _ => (by decide : ErrorNumber eperm)
  split
  · exact fun _ => (by decide : ErrorNumber einval)
  cases hpath : convertUserPath root csop.path false with
  | error e =>
    obtain rfl := convertUserPath_error hpath
    exact fun _ => (by decide : ErrorNumber einval)
  | ok dir =>
    dsimp only
    cases hfile : checksumFile certs csop dir with
    | error e => exact fun _ => checksumFile_error hfile
    | ok x => exact quiet_checksumWork hread

/-- An operation notifies nobody. -/
theorem quiet_checksumop : Quiet handle (GoodOutcome (isGet csop.op)) (sfsChecksumop m csop) s := by
  rw [sfsChecksumop]
  by_cases hget : isGet csop.op = true
  · rw [if_pos hget, hget]
    refine (quiet_checksumopAt hread).bind fun r s hr => ?_
    cases r with
    | error e => exact fun _ => hr hget
    | ok d =>
      dsimp only
      split
      · exact fun _ => (by decide : ErrorNumber enoent)
      · exact ⟨d, hr hget, rfl⟩
  · rw [Bool.not_eq_true] at hget
    rw [hget]
    refine (quiet_checksumopAt hread).bind fun r s _ => ?_
    cases r with
    | error e => exact fun h => absurd h (by decide)
    | ok d => exact rfl

end

/-- The owner whose checksum an operation changes. -/
def ownerOf (csop : Checksumop) : Owner :=
  if csop.op = opAddsum ∨ csop.op = opDel then .uid csop.uid else .key csop.keyid

/-- What the policy process hears after an operation: its path and owner, if it has changed them. -/
def invalidations (csop : Checksumop) (r : Except ℤ Bytes) : List ((c : Call) × Answer c) :=
  if r.isOk ∧ isGet csop.op = false then [⟨.invalidate csop.path (ownerOf csop), ()⟩] else []

theorem trace_invalidateAfter {r : Except ℤ Bytes} (hop : known csop.op = true) :
    (invalidateAfter csop r).trace handle s = invalidations csop r := by
  rw [invalidateAfter, invalidations]
  by_cases hmod : r.isOk ∧ isGet csop.op = false
  · rw [if_pos hmod, if_pos hmod, sendSfscacheInvalidate, ownerOf]
    by_cases huid : csop.op = opAddsum ∨ csop.op = opDel
    · rw [if_pos huid, if_pos huid]
      rfl
    · have hkey : csop.op = opAddsig ∨ csop.op = opDelsig := by
        have hget := hmod.2
        simp only [known, isGet, decide_eq_true_iff, decide_eq_false_iff_not] at hop hget
        tauto
      rw [if_neg huid, if_neg huid, if_pos hkey]
      rfl
  · rw [if_neg hmod, if_neg hmod]
    rfl

end Outcomes

/-! ### The loop -/

theorem length_sigRecords (hd : ShortFields d) : (sigRecords d).length ≤ maxData := by
  have hpart : ∀ src : Bytes, src.length ≤ maxFieldLength → ∀ type,
      (sfsCopyOneSigType src type).length ≤ 8 + maxFieldLength := by
    intro src hsrc type
    rw [sfsCopyOneSigType]
    split
    · exact Nat.zero_le _
    · simp [be32]
      omega
  have hcs := hpart d.csdata (hd typeCs) 1
  have hsig := hpart d.sigdata (hd typeSig) 2
  have hup := hpart d.upgradecsdata (hd typeUpgradeCs) 3
  rw [sigRecords, maxData]
  simp only [length_append, be32, length_cons, length_nil]
  omega

/-- The record of the reply for an outcome is one that the client accepts. -/
theorem GoodOutcome.record {get : Bool} {r : Except ℤ Bytes} (h : GoodOutcome get r) (index : ℕ) :
    GoodRecord get (replyRecord index r) ∧ (replyRecord index r).2.2.length ≤ maxData := by
  cases r with
  | error e =>
    refine ⟨⟨(by decide : 8 < 65536), fun _ => rfl, fun hget h0 => ?_⟩, Nat.zero_le _⟩
    obtain ⟨hlow, hneg⟩ : ErrorNumber e := h hget
    have huint : uint (-e) = 0 := h0
    rw [uint] at huint
    omega
  | ok data =>
    cases get with
    | false =>
      have hnil : data = [] := h
      subst hnil
      exact ⟨⟨(by decide : 8 < 65536), fun _ => rfl, fun hget => absurd hget (by decide)⟩, Nat.zero_le _⟩
    | true =>
      obtain ⟨d, hd, rfl⟩ : ∃ d, ShortFields d ∧ data = sigRecords d := h
      have hlen := length_sigRecords hd
      have hmax : maxData = 12320 := rfl
      have hfield : maxFieldLength = 4096 := rfl
      refine ⟨⟨?_, fun hplain => ?_, fun _ _ => ⟨d, ?_, rfl⟩⟩, hlen⟩
      · change 8 + (sigRecords d).length < 65536
        omega
      · rcases hplain with hplain | hplain
        · cases hplain
        · exact absurd rfl hplain
      · have hcs := hd typeCs
        have hsig := hd typeSig
        have hup := hd typeUpgradeCs
        intro x hx
        simp only [sigParts, mem_cons, not_mem_nil, or_false] at hx
        rcases hx with rfl | rfl | rfl
        · exact lt_of_le_of_lt hcs (by decide)
        · exact lt_of_le_of_lt hsig (by decide)
        · exact lt_of_le_of_lt hup (by decide)

section Processing

variable {σ : Type} (handle : σ → (c : Call) → Answer c × σ) (m : Master) (req : Csmulti.Checksumop)

/-- The records are executed one after the other: each with its outcome, and with all calls that are made
    for it. Only the last of these calls may be sent to another process. -/
inductive Executed : σ → List (CsmultiRecord × Except ℤ Bytes) → List ((c : Call) × Answer c) → σ → Prop
  | none {s : σ} : Executed s [] [] s
  | record {s s₁ s₂ s' : σ} {rec' : CsmultiRecord} {r : Except ℤ Bytes}
      {done : List (CsmultiRecord × Except ℤ Bytes)} {log : List ((c : Call) × Answer c)}
      (op : (sfsChecksumop m (recordOp req rec')).run handle s = (r, s₁))
      (told : ((invalidateAfter (recordOp req rec') r).run handle s₁).2 = s₂) (rest : Executed s₂ done log s') :
      Executed s ((rec', r) :: done) ((sfsChecksumop m (recordOp req rec')).trace handle s ++
        invalidations (recordOp req rec') r ++ log) s'

/-- The records of the reply. -/
def answers (done : List (CsmultiRecord × Except ℤ Bytes)) : List (ℕ × ℤ × Bytes) :=
  done.map fun x => replyRecord x.1.index x.2

/-- What `sfs_process_csmulti` does in the state `s`: it executes a prefix of the records, tells the policy process
    of every change, and answers what it has executed. -/
structure Processed (s : σ) (done : List (CsmultiRecord × Except ℤ Bytes)) : Prop where
  some : done ≠ []
  first : done.map Prod.fst <+: req.csmulti
  executed : ∃ log s', Executed handle m req s done log s' ∧
    (sfsProcessCsmulti m req).trace handle s = log ++ [⟨.reply (.csmulti 0 req.op (answers done)), ()⟩]
  sent : ((sfsProcessCsmulti m req).trace handle s).filter (fun x => isSent x.1) =
    done.flatMap (fun x => invalidations (recordOp req x.1) x.2) ++
      [⟨.reply (.csmulti 0 req.op (answers done)), ()⟩]

variable {handle m req} {s s' : σ} {done : List (CsmultiRecord × Except ℤ Bytes)}
  {log : List ((c : Call) × Answer c)}

theorem filter_invalidations {csop : Checksumop} {r : Except ℤ Bytes} :
    (invalidations csop r).filter (fun x => isSent x.1) = invalidations csop r := by
  rw [invalidations]
  split <;> rfl

/-- Of the calls that are made for the records, only the invalidations are sent. -/
theorem Executed.sent (hread : ∀ s f, FileRead (handle s (.read f)).1) (h : Executed handle m req s done log s') :
    log.filter (fun x => isSent x.1) = done.flatMap fun x => invalidations (recordOp req x.1) x.2 := by
  induction h with
  | none => rfl
  | @record s s₁ s₂ s' rec' r done log op told rest ih =>
    have hquiet := (quiet_checksumop (m := m) (s := s) hread).trace (p := sfsChecksumop m (recordOp req rec'))
    have hnone : ((sfsChecksumop m (recordOp req rec')).trace handle s).filter (fun x => isSent x.1) = [] :=
      filter_eq_nil_iff.mpr fun x hx => by rw [hquiet x hx]; decide
    rw [filter_append, filter_append, hnone, filter_invalidations, ih, flatMap_cons, nil_append]

/-- The loop executes the first of its records and stops behind one of them. -/
theorem processRecords_run (hread : ∀ s f, FileRead (handle s (.read f)).1) (hop : known req.op = true)
    {recs : List CsmultiRecord} (hne : recs ≠ []) {total : ℕ} (htotal : total ≤ 16000) (s : σ) :
    ∃ done s', done ≠ [] ∧ done.map Prod.fst <+: recs ∧
      Executed handle m req s done ((processRecords m req recs total).trace handle s) s' ∧
      (processRecords m req recs total).run handle s = (answers done, s') ∧
      (∀ x ∈ done, GoodOutcome (isGet req.op) x.2) ∧
      total + ((answers done).flatMap recordBytes).length ≤ 16000 + 8 + maxData := by
  induction recs generalizing total s with
  | nil => exact absurd rfl hne
  | cons rec' recs ih =>
    generalize hrun : (sfsChecksumop m (recordOp req rec')).run handle s = x
    obtain ⟨r, s₁⟩ := x
    generalize hinv : ((invalidateAfter (recordOp req rec') r).run handle s₁).2 = s₂
    have hgood : GoodOutcome (isGet req.op) r := by
      have hquiet : Quiet handle (GoodOutcome (isGet (recordOp req rec').op)) (sfsChecksumop m (recordOp req rec')) s :=
        quiet_checksumop hread
      have h := hquiet.run
      rw [hrun] at h
      exact h
    obtain ⟨-, hdata⟩ := hgood.record rec'.index
    have htold : (invalidateAfter (recordOp req rec') r).trace handle s₁ = _ := trace_invalidateAfter hop
    rw [processRecords]
    simp only [Prog.run_bind, trace_bind, hrun, hinv, htold]
    by_cases hstop : total + 8 + (replyRecord rec'.index r).2.2.length > 16000
    · refine ⟨[(rec', r)], s₂, cons_ne_nil _ _, ⟨recs, rfl⟩, ?_, ?_, ?_, ?_⟩
      · rw [if_pos hstop, trace_ret, ← append_assoc]
        exact .record hrun hinv .none
      · rw [if_pos hstop]
        rfl
      · intro x hx
        obtain rfl := mem_singleton.mp hx
        exact hgood
      · rw [answers, map_singleton, flatMap_singleton, length_recordBytes]
        dsimp only
        omega
    · rw [if_neg hstop]
      by_cases hlast : recs = []
      · subst hlast
        refine ⟨[(rec', r)], s₂, cons_ne_nil _ _, ⟨[], rfl⟩, ?_, rfl, ?_, ?_⟩
        · rw [processRecords, ret_bind, trace_ret, ← append_assoc]
          exact .record hrun hinv .none
        · intro x hx
          obtain rfl := mem_singleton.mp hx
          exact hgood
        · rw [answers, map_singleton, flatMap_singleton, length_recordBytes]
          dsimp only
          omega
      · obtain ⟨done, s', -, hpre, hexec, hrest, hall, hsize⟩ := ih hlast (not_lt.mp hstop) s₂
        rw [Prog.run_bind, trace_bind, hrest, trace_ret, append_nil]
        refine ⟨(rec', r) :: done, s', cons_ne_nil _ _, ?_, ?_, rfl, ?_, ?_⟩
        · rw [map_cons]
          exact (prefix_cons_inj rec').mpr hpre
        · rw [← append_assoc]
          exact .record hrun hinv hexec
        · exact forall_mem_cons.mpr ⟨hgood, hall⟩
        · rw [answers, map_cons, flatMap_cons, length_append, length_recordBytes]
          rw [answers] at hsize
          dsimp only
          omega

end Processing

/-! ### The request -/

/-- The indices of a request have 16 bits. -/
theorem fillRecord_index {m : Bytes} {op : ℕ} {rbuf : Csmulti.Abuf} {r : CsmultiRecord} {len : ℕ}
    (h : Csmulti.fillRecord m op rbuf = some (.ok (r, len))) : r.index < 65536 := by
  simp only [Csmulti.fillRecord, bind_eq_bind, bind_eq_some_iff] at h
  obtain ⟨_, -, len', -, h⟩ := h
  split at h
  · cases h
  split at h
  · cases h
  simp only [bind_eq_some_iff] at h
  obtain ⟨index, hindex, cslen, -, h⟩ := h
  split at h
  · cases h
  simp only [bind_eq_some_iff] at h
  obtain ⟨pbuf, -, h⟩ := h
  split at h
  · cases h
  simp only [bind_eq_some_iff] at h
  obtain ⟨path, -, h⟩ := h
  cases path with
  | none => cases h
  | some path =>
    cases h
    rw [readU16] at hindex
    split at hindex
    · cases hindex
      exact u16_lt _
    · cases hindex

theorem fillRecords_index {m : Bytes} {op : ℕ} {mbuf : Csmulti.Abuf} {n off : ℕ} {recs : List CsmultiRecord}
    (h : Csmulti.fillRecords m op mbuf n off = some (.ok recs)) : ∀ r ∈ recs, r.index < 65536 := by
  induction n generalizing off recs with
  | zero =>
    cases h
    exact fun r hr => absurd hr not_mem_nil
  | succ n ih =>
    simp only [Csmulti.fillRecords, bind_eq_bind, bind_eq_some_iff] at h
    obtain ⟨rbuf, -, rec', hrec, h⟩ := h
    cases rec' with
    | error e => cases h
    | ok x =>
      obtain ⟨r, len⟩ := x
      simp only [bind_eq_some_iff] at h
      obtain ⟨rest, hrest, h⟩ := h
      cases rest with
      | error e => cases h
      | ok rest =>
        cases h
        exact forall_mem_cons.mpr ⟨fillRecord_index hrec, ih hrest⟩

/-- The reply to some records: the buffer is filled exactly, its length fits the field `len` of the message, no
    number is cut off, and the client accepts it. -/
structure Answered (op : ℕ) (records : List (ℕ × ℤ × Bytes)) : Prop where
  written : ∀ mem, csmultiReply mem op records = some (replyBytes op records)
  short : (replyBytes op records).length < 32768
  fields : ∀ r ∈ records, r.1 < 65536 ∧ 8 + r.2.2.length < 65536
  accepted : ∀ csum : Bytes, csum.length = csumLen → verifyCsmultireply (replyBytes op records ++ csum) = some true

/-- A csmulti request with records is executed up to one of them, and what is executed is what is answered. -/
theorem csmulti_processed {σ : Type} {handle : σ → (c : Call) → Answer c × σ} {owner : Bytes → Option ℕ} {b : Bytes}
    {mbuf : Csmulti.Abuf} {uid : ℕ} {req : Csmulti.Checksumop} (m : Master)
    (hreq : sfsParseCsmulti owner b mbuf uid = some (.ok req)) (hne : req.csmulti ≠ [])
    (hread : ∀ s f, FileRead (handle s (.read f)).1) (s : σ) :
    ∃ done, Processed handle m req s done ∧ Answered req.op (answers done) := by
  obtain ⟨-, hop, n, off, hrecs⟩ := sfsParseCsmulti_ok hreq
  have hindex := fillRecords_index hrecs
  have htake : req.csmulti.take 1000 ≠ [] := by simp [hne]
  obtain ⟨done, s', hsome, hpre, hexec, hrun, hgood, hsize⟩ :=
    processRecords_run (m := m) hread hop htake (show 12 ≤ 16000 by decide) s
  have hpre' : done.map Prod.fst <+: req.csmulti := hpre.trans (List.take_prefix _ _)
  have htrace : (sfsProcessCsmulti m req).trace handle s =
      (processRecords m req (req.csmulti.take 1000) 12).trace handle s ++
        [⟨.reply (.csmulti 0 req.op (answers done)), ()⟩] := by
    rw [sfsProcessCsmulti, trace_bind, hrun]
    rfl
  have hrecords : ∀ r ∈ answers done, GoodRecord (isGet req.op) r := by
    intro r hr
    obtain ⟨x, hx, rfl⟩ := List.mem_map.mp hr
    exact ((hgood x hx).record _).1
  rw [maxData, maxFieldLength] at hsize
  refine ⟨done, ⟨hsome, hpre', ⟨_, s', hexec, htrace⟩, ?_⟩, ⟨fun mem => csmultiReply_eq mem _ _, ?_, ?_, ?_⟩⟩
  · rw [htrace, List.filter_append, hexec.sent hread]
    rfl
  · rw [replyBytes, List.length_append, List.length_append, length_recordHead]
    change 12 + _ + 8 < 32768
    omega
  · intro r hr
    refine ⟨?_, (hrecords r hr).short⟩
    obtain ⟨x, hx, rfl⟩ := List.mem_map.mp hr
    have hi := hindex x.1 (hpre'.subset (List.mem_map_of_mem hx))
    cases x.2 <;> exact hi
  · intro csum hcsum
    refine verify_replyBytes hop ?_ hrecords hcsum
    rw [totallen_eq, csumLen, messageMaxlen]
    omega

/-- A system where everything can be written and nothing read. -/
def sampleSystem (_ : Unit) : (c : Call) → Answer c × Unit
  | .opendir _ => (.error enoent, ())
  | .lstat _ => (false, ())
  | .read _ => (.error enoent, ())
  | .invalidate _ _ => ((), ())
  | .reply _ => ((), ())
  | .space => (.ok (), ())
  | .mkdir _ => (.ok (), ())
  | .openTrunc _ => (.ok (), ())
  | .write _ _ => (.ok (), ())
  | .openExcl _ => (.ok (), ())
  | .rename _ _ => (.ok (), ())
  | .unlink _ => (.ok (), ())
  | .rmdir _ => (.ok (), ())

/-- The request of the superuser to delete the checksum of `/a`, with the index 7. -/
def sampleRequest : Bytes :=
  [0, 0, 0x31, 0x10] ++ [0, 0, 0, 2] ++ [0, 0, 0, 0] ++ [0, 0, 0, 0] ++
    [0, 0, 0, 11, 0, 7, 0, 0, 0x2f, 0x61, 0] ++ [0, 0, 0, 0, 0, 0, 0, 0]

/-- The request is executed and answered. -/
theorem csmulti_processed_delete :
    ∃ done, Processed sampleSystem ⟨"/r".toList, [], ' '⟩ ⟨2, 0, 0, [], [⟨7, [], [0x2f, 0x61]⟩]⟩ () done ∧
      Answered 2 (answers done) := by
  have hreq : sfsParseCsmulti (fun _ => none) sampleRequest ⟨0, sampleRequest.length⟩ 0 =
      some (.ok ⟨2, 0, 0, [], [⟨7, [], [0x2f, 0x61]⟩]⟩) := by decide +kernel
  exact csmulti_processed ⟨"/r".toList, [], ' '⟩ hreq (by decide) (fun _ _ => .unopened enoent (by decide)) ()

end Anoubis.Daemon.Sfs

import Anoubis.Client.Client
import Anoubis.Client.CsmultiRuns
import Anoubis.Daemon.CsmultiReply

/-! The message for the next records of a csmulti request (`__anoubis_csmulti_msg`).

    The first loop adds up lengths until a record does not fit, the second one writes records until the count of the
    first one is used up. Both go through the open records from the cursor on, around the end of the list.

        first loop     16 + key ID │ r₁ │ r₂ │ r₃ …         up to 8000 bytes and `limit` records
        second loop                │ r₁ │ r₂ │ sentinel │   count 2, 1, 0

    With a count of 0 the second loop does not stop behind it: the count wraps around, and it writes the record for
    which there was no room. The same happens if a length wraps around in the first loop. -/

namespace Anoubis.Client

open Option

open Anoubis.Lib List
open Anoubis.Connection (Bytes u16 u32 csumLen)
open Anoubis.MsgVerify (uint uint_natCast messageMaxlen verifyCsmultireq opDel opAddsum opAddsig opDelsig opGet2
  opGetsig2 Inside RequestWalk RequestAccepted Tight pathOff verifyCsmultireq_decides)
open Anoubis.Daemon.Sfs (u16_append u32_append)

/-! ### Requests -/

/-- What `anoubis_csmulti_create`, `anoubis_csmulti_add` and `anoubis_csmulti_add_error` build, and what is left of it
    when records are answered: indexes count records, a record that is open has a path and, if there is one to be
    sent, a checksum. The cursor is on any record. -/
structure Built (req : Request) : Prop where
  key : keyFits req = true
  idlen : req.idlen < 2147483648
  nreqs : req.nreqs = uint req.reqs.length
  idx : ∀ (i : ℕ) (r : Record), req.reqs[i]? = some r → r.idx = uint i
  last : LastOk req
  length : ∀ r ∈ req.reqs, r.isOpen = true → r.length = alignedLength (8 + r.csdata.length + (r.path.length + 1))
  path : ∀ r ∈ req.reqs, r.isOpen = true → 0 ∉ r.path
  csdata : ∀ r ∈ req.reqs, r.isOpen = true → isAdd req.op = false → r.csdata = []

/-- The open records, in the order of the loops. -/
def openRecords (req : Request) : List (ℕ × Record) := (inOrder req).filter fun x => x.2.isOpen

/-- The bytes that a record takes, as a number. -/
def Record.space (r : Record) : ℕ := (8 + r.csdata.length + (r.path.length + 1) + 3) / 4 * 4

/-- The length of a message with these records, without the sentinel. -/
def spaceFor (length : ℕ) (xs : List (ℕ × Record)) : ℕ := xs.foldl (fun n x => n + x.2.space) length

/-- The first `n` open records are within the limits. -/
def Fits (req : Request) (n : ℕ) : Prop :=
  n ≤ recordLimit req.op ∧ spaceFor (headerLength req) ((openRecords req).take n) ≤ 8000

/-! ### The bytes of a message -/

/-- A record as it is in a message. -/
def ReqRecord.bytes (r : ReqRecord) : Bytes :=
  be32 r.length ++ be16 r.index ++ be16 r.cslen ++ r.csdata ++ r.path ++
    List.replicate (r.length - 8 - r.csdata.length - r.path.length) 0

/-- ANOUBIS_P_CSMULTIREQUEST. -/
def pCsmultirequest : ℕ := 0x3110

/-- A message without its checksum. The key ID is padded to a multiple of four bytes. -/
def csmultiBytes (op uid : ℕ) (keyid : Bytes) (records : List ReqRecord) : Bytes :=
  be32 pCsmultirequest ++ be32 op ++ be32 uid ++ be16 keyid.length ++ be16 ((keyid.length + 3) / 4 * 4) ++ keyid ++
    List.replicate ((keyid.length + 3) / 4 * 4 - keyid.length) 0 ++ records.flatMap ReqRecord.bytes ++
    List.replicate 8 0

/-- A record with its own index, checksum and path. -/
def ownRecord (x : ℕ × Record) : ReqRecord := ⟨x.2.space, x.1, x.2.csdata.length, x.2.csdata, x.2.path⟩

/-- The records are the longest run from the cursor on that is within the limits. -/
structure LongestRun (req : Request) (records : List ReqRecord) : Prop where
  run : ∃ n ≤ (openRecords req).length, (n = 0 ∨ Fits req n) ∧ (∀ k ≤ (openRecords req).length, Fits req k → k ≤ n) ∧
    records = ((openRecords req).take n).map ownRecord
  some : (∃ x ∈ openRecords req, headerLength req + x.2.space ≤ 8000) → records ≠ []

/-- The message is built inside of its memory. With open records it has the longest run of them. It is accepted then,
    and also if it is empty and the length of the key ID has 16 bits with its padding. -/
def GoodMessage (req : Request) : Prop :=
  ∃ records req', csmultiMsg req false =
      some (some (.csmulti req.op req.uid req.idlen ((headerLength req - 16) % 65536) (req.keyid.getD []) records),
        req') ∧
    (openRecords req ≠ [] → LongestRun req records) ∧
    (openRecords req ≠ [] ∨ req.idlen ≤ 65532 → ∀ q : Bytes, q.length = csumLen →
      verifyCsmultireq (csmultiBytes req.op req.uid (req.keyid.getD []) records ++ q) = some true)

/-- The first open record fits, where the run ends the sum of 32 bits is too large as well, and the indexes of the run
    have 16 bits. -/
structure Sendable (req : Request) : Prop where
  first : openRecords req ≠ [] → Fits req 1
  noWrap : ∀ n < (openRecords req).length, n < recordLimit req.op → Fits req n →
    spaceFor (headerLength req) ((openRecords req).take (n + 1)) % 4294967296 ≤ 8000 → Fits req (n + 1)
  index : ∀ n, Fits req n → ∀ x ∈ (openRecords req).take n, x.1 < 65536

/-! ### Building requests -/

/-- Requests that are made by calls, with records that are answered and the cursor on any of them. -/
inductive Made : Request → Prop
  | create {op uid : ℕ} {keyid : Option Bytes} {req : Request} (hlen : (keyid.getD []).length < 2147483648)
      (h : csmultiCreate op uid keyid = some req) : Made req
  | add {req : Request} (h : Made req) {path : Bytes} (hpath : 0 ∉ path) (csdata : Option Bytes) :
      Made (csmultiAdd req path csdata).2
  | addError {req : Request} (h : Made req) (path : Bytes) (error : ℕ) : Made (csmultiAddError req path error).2
  | answer {req : Request} (h : Made req) {i error : ℕ} (hi : i < req.reqs.length) (herror : error ≠ eagain) :
      Made (req.answer i error)
  | cursor {req : Request} (h : Made req) {last : Option ℕ} (hlast : ∀ l, last = some l → l < req.reqs.length)
      (openreqs : ℕ) : Made { req with last := last, openreqs := openreqs }

section Building

variable {req : Request}

theorem built_create {op uid : ℕ} {keyid : Option Bytes} (hlen : (keyid.getD []).length < 2147483648)
    (h : csmultiCreate op uid keyid = some req) : Built req := by
  have hnew : ∀ new : Request, new = ⟨op, 0, 0, uid, keyid, [], false, none, []⟩ → keyFits new = true → Built new := by
    rintro new rfl hkey
    exact ⟨hkey, hlen, rfl, by simp, by simp [LastOk], by simp, by simp, by simp⟩
  rw [csmultiCreate] at h
  split at h
  · rename_i hop
    split at h
    · exact absurd h (by simp)
    · rename_i hbad
      rw [not_or, not_not] at hbad
      refine hnew req (some.inj h).symm ?_
      rw [← some.inj h, keyFits]
      rw [if_pos (by tauto)]
      exact decide_eq_true hbad.2
  · rename_i hop
    split at h
    · rename_i hop'
      split at h
      · exact absurd h (by simp)
      · rename_i hbad
        refine hnew req (some.inj h).symm ?_
        rw [← some.inj h, keyFits]
        rw [if_neg (by tauto), if_pos (by tauto)]
        cases keyid with
        | none => rfl
        | some k => exact absurd rfl hbad
    · exact absurd h (by simp)

/-- One more record. -/
theorem Built.concat (h : Built req) {r : Record} (hidx : r.idx = req.nreqs)
    (hlength : r.isOpen = true → r.length = alignedLength (8 + r.csdata.length + (r.path.length + 1)))
    (hpath : r.isOpen = true → 0 ∉ r.path) (hcsdata : r.isOpen = true → isAdd req.op = false → r.csdata = []) (n : ℕ) :
    Built { req with nreqs := uint (req.nreqs + 1), openreqs := n, reqs := req.reqs ++ [r] } where
  key := h.key
  idlen := h.idlen
  nreqs := by
    dsimp only
    rw [h.nreqs, length_append, length_singleton]
    unfold uint
    omega
  idx i x hx := by
    dsimp only at hx
    rcases Nat.lt_trichotomy i req.reqs.length with hlt | rfl | hgt
    · rw [getElem?_append_left hlt] at hx
      exact h.idx i x hx
    · rw [getElem?_append_right le_rfl, Nat.sub_self] at hx
      cases hx
      exact hidx.trans h.nreqs
    · rw [getElem?_eq_none (by rw [length_append, length_singleton]; omega)] at hx
      exact absurd hx (by simp)
  last l hl := by
    have hlt := h.last l hl
    dsimp only
    rw [length_append]
    omega
  length := forall_mem_append.mpr ⟨h.length, forall_mem_singleton.mpr hlength⟩
  path := forall_mem_append.mpr ⟨h.path, forall_mem_singleton.mpr hpath⟩
  csdata := forall_mem_append.mpr ⟨h.csdata, forall_mem_singleton.mpr hcsdata⟩

theorem built_answer (h : Built req) {i error : ℕ} (hi : i < req.reqs.length) (herror : error ≠ eagain) :
    Built (req.answer i error) := by
  have hmem : ∀ r ∈ (req.answer i error).reqs, r.isOpen = true → r ∈ req.reqs := by
    intro r hr hopen
    obtain ⟨j, hj⟩ := mem_iff_getElem?.mp hr
    rw [Request.answer, getElem?_modify] at hj
    obtain ⟨r', hr', heq⟩ := map_eq_some_iff.mp hj
    split at heq
    · rw [← heq] at hopen
      exact absurd hopen (by simpa [Record.isOpen] using herror)
    · rw [← heq]
      exact mem_of_getElem? hr'
  refine ⟨h.key, h.idlen, ?_, ?_, ?_, fun r hr ho => h.length r (hmem r hr ho) ho,
    fun r hr ho => h.path r (hmem r hr ho) ho, fun r hr ho => h.csdata r (hmem r hr ho) ho⟩
  · rw [Request.answer, length_modify]
    exact h.nreqs
  · intro j r hj
    rw [Request.answer, getElem?_modify] at hj
    obtain ⟨r', hr', hr⟩ := map_eq_some_iff.mp hj
    have hidx := h.idx j r' hr'
    split at hr <;> (rw [← hr]; exact hidx)
  · intro l hl
    cases hl
    rw [Request.answer, length_modify]
    exact hi

/-- Whatever the calls are. -/
theorem Made.built (h : Made req) : Built req := by
  induction h with
  | create hlen h => exact built_create hlen h
  | @add req h path hpath csdata ih =>
    rw [csmultiAdd]
    split
    · exact ih
    · rename_i hbad
      refine ih.concat rfl (fun _ => rfl) (fun _ => hpath) (fun _ hadd => ?_) _
      rw [badData, hadd] at hbad
      cases csdata with
      | none => rfl
      | some d => exact absurd rfl hbad
  | @addError req h path error ih =>
    rw [csmultiAddError]
    split
    · exact ih
    · rename_i herror
      have hclosed : ∀ r : Record, r.error = error → ¬r.isOpen = true := by
        intro r hr
        rw [Record.isOpen, hr]
        simpa using herror
      exact ih.concat rfl (fun ho => absurd ho (hclosed _ rfl)) (fun ho => absurd ho (hclosed _ rfl))
        (fun ho => absurd ho (hclosed _ rfl)) _
  | answer h hi herror ih => exact built_answer ih hi herror
  | cursor h hlast openreqs ih => exact ⟨ih.key, ih.idlen, ih.nreqs, ih.idx, hlast, ih.length, ih.path, ih.csdata⟩

end Building

/-! ### The loops -/

section Loops

variable {limit length n : ℕ} {xs : List (ℕ × Record)} {x : ℕ × Record}

theorem uint_eq (n : ℕ) : uint n = n % 4294967296 := by
  rw [uint]
  omega

/-- The length that is stored is the space of the record in 32 bits. -/
theorem alignedLength_space (r : Record) :
    alignedLength (8 + r.csdata.length + (r.path.length + 1)) = r.space % 4294967296 := by
  rw [alignedLength, Record.space]
  generalize 8 + r.csdata.length + (r.path.length + 1) = n
  unfold uint
  split <;> omega

theorem spaceFor_cons (length : ℕ) (x : ℕ × Record) (xs : List (ℕ × Record)) :
    spaceFor length (x :: xs) = spaceFor (length + x.2.space) xs := rfl

theorem le_spaceFor (length : ℕ) (xs : List (ℕ × Record)) : length ≤ spaceFor length xs := by
  induction xs generalizing length with
  | nil => exact le_rfl
  | cons x xs ih => exact le_trans (Nat.le_add_right _ _) (ih _)

theorem written_le (r : Record) (h : r.length ≤ r.space) : r.written ≤ r.space := by
  rw [Record.written, Record.space] at *
  omega

/-- Answered records are left out. -/
theorem countRecords_filter (limit : ℕ) (xs : List (ℕ × Record)) (length n : ℕ) :
    countRecords limit (xs.map Prod.snd) length n =
      countRecords limit ((xs.filter fun x => x.2.isOpen).map Prod.snd) length n := by
  induction xs generalizing length n with
  | nil => rfl
  | cons x xs ih =>
    rw [map_cons]
    cases hopen : x.2.isOpen with
    | false =>
      rw [filter_cons_of_neg (by simp [hopen]), countRecords_skip hopen]
      exact ih length n
    | true =>
      rw [filter_cons_of_pos (by simpa using hopen), map_cons, countRecords, countRecords]
      simp only [ih]

theorem fillRecords_filter (size : ℕ) (xs : List (ℕ × Record)) (recoff nrec : ℕ) :
    fillRecords size xs recoff nrec = fillRecords size (xs.filter fun x => x.2.isOpen) recoff nrec := by
  induction xs generalizing recoff nrec with
  | nil => rfl
  | cons x xs ih =>
    cases hopen : x.2.isOpen with
    | false => rw [filter_cons_of_neg (by simp [hopen]), fillRecords, if_pos hopen, ih]
    | true =>
      rw [filter_cons_of_pos (by simpa using hopen), fillRecords, fillRecords]
      simp only [ih]

/-- The records are open, and their lengths are those that were stored. -/
def Stored (xs : List (ℕ × Record)) : Prop :=
  ∀ x ∈ xs, x.2.isOpen = true ∧ x.2.length = x.2.space % 4294967296

/-- The first step on one more record. -/
theorem countRecords_cons (hx : Stored (x :: xs)) : countRecords limit ((x :: xs).map Prod.snd) length n =
    if (length + x.2.space) % 4294967296 > 8000 then (length, n)
    else if n + 1 ≥ limit then ((length + x.2.space) % 4294967296, n + 1)
    else countRecords limit (xs.map Prod.snd) ((length + x.2.space) % 4294967296) (n + 1) := by
  obtain ⟨hopen, hlength⟩ := hx x mem_cons_self
  have huint : uint ((length : ℤ) + (x.2.length : ℤ)) = (length + x.2.space) % 4294967296 := by
    rw [uint, hlength]
    omega
  rw [map_cons, countRecords, if_neg (by simp [hopen]), huint]

theorem Stored.tail (hx : Stored (x :: xs)) : Stored xs := fun y hy => hx y (mem_cons_of_mem _ hy)

/-- The length stays small, and the count grows up to the limit. -/
theorem countRecords_le (limit n : ℕ) (hx : Stored xs) (hlen : length ≤ 8000) :
    (countRecords limit (xs.map Prod.snd) length n).1 ≤ 8000 ∧
      n ≤ (countRecords limit (xs.map Prod.snd) length n).2 := by
  induction xs generalizing length n with
  | nil => exact ⟨hlen, le_rfl⟩
  | cons x xs ih =>
    rw [countRecords_cons hx]
    by_cases hbig : (length + x.2.space) % 4294967296 > 8000
    · rw [if_pos hbig]
      exact ⟨hlen, le_rfl⟩
    · rw [if_neg hbig]
      by_cases hone : n + 1 ≥ limit
      · rw [if_pos hone]
        exact ⟨by dsimp only; omega, Nat.le_succ n⟩
      · rw [if_neg hone]
        obtain ⟨h₁, h₂⟩ := ih (n + 1) hx.tail (show (length + x.2.space) % 4294967296 ≤ 8000 by omega)
        exact ⟨h₁, by omega⟩

theorem countRecords_le_limit (hx : Stored xs) (hn : n < limit) :
    (countRecords limit (xs.map Prod.snd) length n).2 ≤ limit := by
  induction xs generalizing length n with
  | nil => exact le_of_lt hn
  | cons x xs ih =>
    rw [countRecords_cons hx]
    split
    · exact le_of_lt hn
    · split
      · exact hn
      · exact ih hx.tail (by omega)

/-- Where no sum wraps around, the first step counts the longest run. -/
theorem countRecords_run (hx : Stored xs) (hlen : length ≤ 8000) (hn : n < limit)
    (hwrap : ∀ k < xs.length, n + k < limit → spaceFor length (xs.take k) ≤ 8000 →
      spaceFor length (xs.take (k + 1)) % 4294967296 ≤ 8000 → spaceFor length (xs.take (k + 1)) ≤ 8000) :
    ∃ k ≤ xs.length, n + k ≤ limit ∧ spaceFor length (xs.take k) ≤ 8000 ∧
      (∀ j ≤ xs.length, n + j ≤ limit → spaceFor length (xs.take j) ≤ 8000 → j ≤ k) ∧
      countRecords limit (xs.map Prod.snd) length n = (spaceFor length (xs.take k), n + k) := by
  induction xs generalizing length n with
  | nil => exact ⟨0, le_rfl, by omega, hlen, fun j hj _ _ => hj, rfl⟩
  | cons x xs ih =>
    rw [countRecords_cons hx]
    by_cases hbig : (length + x.2.space) % 4294967296 > 8000
    · refine ⟨0, Nat.zero_le _, by omega, hlen, fun j _ _ hfits => ?_, if_pos hbig⟩
      cases j with
      | zero => exact le_rfl
      | succ j =>
        rw [take_succ_cons, spaceFor_cons] at hfits
        have hle := le_spaceFor (length + x.2.space) (xs.take j)
        omega
    · have hfirst : length + x.2.space ≤ 8000 := hwrap 0 (by simp) hn hlen (not_lt.mp hbig)
      rw [if_neg hbig, Nat.mod_eq_of_lt (by omega)]
      by_cases hone : n + 1 ≥ limit
      · rw [if_pos hone]
        exact ⟨1, by simp, by omega, hfirst, fun j _ hj _ => by omega, rfl⟩
      · rw [if_neg hone]
        obtain ⟨k, hk, hlimit, hfits, hmax, hcount⟩ := ih (n := n + 1) hx.tail hfirst (by omega) fun k hk hlim => by
          have hshift := hwrap (k + 1) (by rw [length_cons]; omega) (by omega)
          rwa [take_succ_cons, take_succ_cons, spaceFor_cons, spaceFor_cons] at hshift
        refine ⟨k + 1, by rw [length_cons]; omega, by omega, ?_, fun j hj hlim hfit => ?_, ?_⟩
        · rw [take_succ_cons, spaceFor_cons]
          exact hfits
        · cases j with
          | zero => exact Nat.zero_le _
          | succ j =>
            rw [take_succ_cons, spaceFor_cons] at hfit
            have hj' := hmax j (by rw [length_cons] at hj; omega) (by omega) hfit
            omega
        · rw [hcount, take_succ_cons, spaceFor_cons, add_assoc, add_comm 1 k]

variable {k size recoff nrec : ℕ}

/-- A sum that wraps around is counted, too. -/
theorem countRecords_wrap (hx : Stored xs) (hk : k < xs.length) (hlimit : n + k < limit)
    (hfits : k = 0 ∨ spaceFor length (xs.take k) ≤ 8000)
    (hwrap : spaceFor length (xs.take (k + 1)) % 4294967296 ≤ 8000) :
    (countRecords limit (xs.map Prod.snd) length n).1 ≤ 8000 ∧
      n + k < (countRecords limit (xs.map Prod.snd) length n).2 := by
  induction xs generalizing length n k with
  | nil => exact absurd hk (by simp)
  | cons x xs ih =>
    rw [countRecords_cons hx]
    cases k with
    | zero =>
      have hsmall : (length + x.2.space) % 4294967296 ≤ 8000 := hwrap
      rw [if_neg (by omega)]
      by_cases hone : n + 1 ≥ limit
      · rw [if_pos hone]
        exact ⟨hsmall, Nat.lt_succ_self n⟩
      · rw [if_neg hone]
        obtain ⟨h₁, h₂⟩ := countRecords_le limit (n + 1) hx.tail hsmall
        exact ⟨h₁, by omega⟩
    | succ k =>
      have hfits := hfits.resolve_left (Nat.succ_ne_zero k)
      rw [take_succ_cons, spaceFor_cons] at hfits hwrap
      have hle := le_spaceFor (length + x.2.space) (xs.take k)
      rw [Nat.mod_eq_of_lt (show length + x.2.space < 4294967296 by omega), if_neg (by omega), if_neg (by omega)]
      rw [length_cons] at hk
      obtain ⟨h₁, h₂⟩ := ih hx.tail (n := n + 1) (by omega) (by omega) (.inr hfits) hwrap
      exact ⟨h₁, by omega⟩

/-- The second step on one more record. -/
theorem fillRecords_cons (hopen : x.2.isOpen = true) (h0 : 0 < nrec) (hn : nrec < 4294967296) :
    fillRecords size (x :: xs) recoff nrec =
    if 16 + recoff + x.2.written > size then none
    else if nrec = 1 then if 16 + (recoff + x.2.length) + 8 ≤ size then some ([x.2.toReq], some x.1) else none
    else (fillRecords size xs (recoff + x.2.length) (nrec - 1)).map fun y => (x.2.toReq :: y.1, y.2) := by
  have huint : uint ((nrec : ℤ) - 1) = nrec - 1 := by
    rw [uint]
    omega
  rw [fillRecords, if_neg (by simp [hopen]), huint]
  by_cases h1 : nrec = 1
  · rw [if_pos h1, if_pos (show nrec - 1 = 0 by omega)]
  · rw [if_neg h1, if_neg (show ¬nrec - 1 = 0 by omega)]

/-- The records that were counted are written. -/
theorem fillRecords_run (hopen : ∀ x ∈ xs, x.2.isOpen = true) (h0 : 0 < k) (hk : k ≤ xs.length)
    (hn : k < 4294967296) (hspace : ∀ x ∈ xs.take k, x.2.length = x.2.space)
    (hsize : spaceFor (16 + recoff) (xs.take k) + 8 ≤ size) :
    ∃ l, fillRecords size xs recoff k = some ((xs.take k).map fun x => x.2.toReq, some l) := by
  induction xs generalizing recoff k with
  | nil => exact absurd hk (by simp; omega)
  | cons x xs ih =>
    obtain ⟨k, rfl⟩ : ∃ k', k = k' + 1 := ⟨k - 1, by omega⟩
    rw [take_succ_cons] at hspace hsize ⊢
    rw [spaceFor_cons] at hsize
    have hx := hspace x mem_cons_self
    have hle := le_spaceFor (16 + recoff + x.2.space) (xs.take k)
    have hwritten := written_le x.2 (le_of_eq hx)
    rw [fillRecords_cons (hopen x mem_cons_self) h0 hn, if_neg (by omega)]
    by_cases h1 : k + 1 = 1
    · obtain rfl : k = 0 := by omega
      rw [if_pos h1, if_pos (by omega)]
      exact ⟨x.1, rfl⟩
    · rw [if_neg h1, Nat.add_sub_cancel]
      rw [length_cons] at hk
      have hsize' : spaceFor (16 + (recoff + x.2.length)) (xs.take k) + 8 ≤ size := by
        rw [← add_assoc, hx]
        exact hsize
      obtain ⟨l, hl⟩ := ih (fun y hy => hopen y (mem_cons_of_mem _ hy)) (by omega) (by omega) (by omega)
        (fun y hy => hspace y (mem_cons_of_mem _ hy)) hsize'
      rw [hl]
      exact ⟨l, rfl⟩

/-- A record that is too long for the message is written outside of it. -/
theorem fillRecords_overflow (hopen : ∀ x ∈ xs, x.2.isOpen = true) (hx : xs[k]? = some x) (hk : k < nrec)
    (hn : nrec < 4294967296) (hsize : size < x.2.written) : fillRecords size xs recoff nrec = none := by
  induction xs generalizing recoff nrec k with
  | nil => exact absurd hx (by simp)
  | cons y xs ih =>
    rw [fillRecords_cons (hopen y mem_cons_self) (by omega) hn]
    split
    · rfl
    · cases k with
      | zero =>
        cases hx
        omega
      | succ k =>
        rw [if_neg (by omega), ih (fun z hz => hopen z (mem_cons_of_mem _ hz)) hx (by omega) (by omega)]
        rfl

/-- Without a count the first record is written. -/
theorem fillRecords_uncounted (hopen : x.2.isOpen = true) (hsize : size < 16 + recoff + x.2.written) (nrec : ℕ) :
    fillRecords size (x :: xs) recoff nrec = none := by
  rw [fillRecords, if_neg (by simp [hopen]), if_pos hsize]

end Loops

/-! ### The verification -/

section Verification

variable {m pre q : Bytes} {records : List ReqRecord} {add : Bool} {off : ℕ}

/-- A record that is laid out as the verification wants it. -/
structure ReqRecord.Good (add : Bool) (r : ReqRecord) : Prop where
  long : 8 + r.csdata.length + r.path.length < r.length
  padding : r.length ≤ 8 + r.csdata.length + r.path.length + 4
  small : r.length < 65536
  cslen : r.cslen = r.csdata.length
  path : 0 ∉ r.path
  csdata : add = true ∨ r.csdata = []

variable {r : ReqRecord} {p b : Bytes}

theorem ReqRecord.Good.length_bytes (h : r.Good add) : r.bytes.length = r.length := by
  have hlong := h.long
  rw [ReqRecord.bytes]
  simp only [length_append, length_replicate, be32, be16, length_cons, length_nil]
  omega

theorem u32_at {n : ℕ} (hm : m = p ++ (be32 n ++ b)) (h : n < 4294967296) : u32 m p.length = n := by
  rw [hm, ← add_zero p.length, u32_append]
  simp only [u32, be32, be16, cons_append, nil_append, getD_cons_zero, getD_cons_succ, UInt8.toNat_ofNat']
  omega

theorem u16_at {n : ℕ} (hm : m = p ++ (be16 n ++ b)) (h : n < 65536) : u16 m p.length = n := by
  rw [hm, ← add_zero p.length, u16_append]
  simp only [u16, be16, cons_append, nil_append, getD_cons_zero, getD_cons_succ, UInt8.toNat_ofNat']
  omega

/-- The path ends where it ends. -/
theorem tight_record (h : r.Good add) (hm : m = pre ++ (r.bytes ++ q)) (hpre : pre.length = 16 + off)
    (hlength : u32 m (16 + off) = r.length) (hcslen : u16 m (16 + off + 6) = r.cslen) : Tight m off := by
  intro p hp _
  have hle := hp.le
  have hpad := h.padding
  rw [pathOff, hcslen, h.cslen] at hle
  rw [hlength]
  by_contra hshort
  have hin : p - (16 + off + 8 + r.csdata.length) < r.path.length := by omega
  have hsplit : m = (pre ++ (be32 r.length ++ be16 r.index ++ be16 r.cslen ++ r.csdata)) ++
      (r.path ++ (List.replicate (r.length - 8 - r.csdata.length - r.path.length) 0 ++ q)) := by
    rw [hm, ReqRecord.bytes]
    simp only [append_assoc]
  have hfront : (pre ++ (be32 r.length ++ be16 r.index ++ be16 r.cslen ++ r.csdata)).length =
      16 + off + 8 + r.csdata.length := by
    simp only [length_append, be32, be16, length_cons, length_nil, hpre]
    omega
  have hget : m[p]? = some (r.path[p - (16 + off + 8 + r.csdata.length)]) := by
    rw [hsplit, getElem?_append_right (by omega), hfront, getElem?_append_left hin]
    exact getElem?_eq_getElem hin
  have hzero := some.inj (hget.symm.trans hp.nul)
  exact h.path (hzero ▸ getElem_mem hin)

/-- The records of a message are walked through. -/
theorem walk_records (hm : m = pre ++ (records.flatMap ReqRecord.bytes ++ (List.replicate 8 0 ++ q)))
    (hpre : pre.length = 16 + off) (hq : q.length = csumLen) (hgood : ∀ r ∈ records, r.Good add) :
    RequestWalk m add off := by
  induction records generalizing pre off with
  | nil =>
    rw [flatMap_nil, nil_append] at hm
    have hlen : m.length = 16 + off + 8 + 4 := by
      rw [hm, length_append, length_append, hpre, hq, length_replicate]
      rfl
    refine RequestWalk.stop ?_ ?_ ?_ (by omega)
    · rw [Inside, hlen]
      exact le_rfl
    · rw [hm, ← hpre, ← add_zero pre.length, u32_append]
      rfl
    · rw [hm, ← hpre, u16_append]
      rfl
  | cons r records ih =>
    have hr := hgood r mem_cons_self
    have hlong := hr.long
    rw [flatMap_cons, append_assoc] at hm
    have hlength : u32 m (16 + off) = r.length := by
      rw [← hpre]
      refine u32_at (b := be16 r.index ++ (be16 r.cslen ++ (r.csdata ++ (r.path ++
        (List.replicate (r.length - 8 - r.csdata.length - r.path.length) 0 ++
          (records.flatMap ReqRecord.bytes ++ (List.replicate 8 0 ++ q))))))) ?_ (Nat.lt_trans hr.small (by decide))
      rw [hm, ReqRecord.bytes]
      simp only [append_assoc]
    have hcslen : u16 m (16 + off + 6) = r.cslen := by
      have hfront : (pre ++ (be32 r.length ++ be16 r.index)).length = 16 + off + 6 := by
        rw [length_append, hpre]
        rfl
      have hsmall := hr.small
      rw [← hfront]
      refine u16_at (b := r.csdata ++ (r.path ++
        (List.replicate (r.length - 8 - r.csdata.length - r.path.length) 0 ++
          (records.flatMap ReqRecord.bytes ++ (List.replicate 8 0 ++ q))))) ?_ (by rw [hr.cslen]; omega)
      rw [hm, ReqRecord.bytes]
      simp only [append_assoc]
    have hin : Inside m (16 + off) (u32 m (16 + off)) := by
      rw [Inside, hlength, hm]
      simp only [length_append, hr.length_bytes, hpre, hq, length_replicate]
      omega
    refine RequestWalk.record hin (by rw [hlength]; omega) ?_ ?_ (tight_record hr hm hpre hlength hcslen) ?_
    · refine hr.csdata.imp_right fun h => ?_
      rw [hcslen, hr.cslen, h]
      rfl
    · rw [hcslen, hr.cslen, hlength]
      omega
    · rw [hlength]
      have hm' : m = (pre ++ r.bytes) ++ (records.flatMap ReqRecord.bytes ++ (List.replicate 8 0 ++ q)) := by
        rw [hm, append_assoc]
      refine ih hm' ?_ fun r' hr' => hgood r' (mem_cons_of_mem _ hr')
      rw [length_append, hr.length_bytes, hpre, add_assoc]

/-- A message with good records is accepted. -/
theorem verify_csmultiBytes {op uid : ℕ} {keyid : Bytes} (hop : op = opAddsum ∨ op = opAddsig ∨ op = opGet2 ∨
    op = opGetsig2 ∨ op = opDel ∨ op = opDelsig) (hkey : keyid.length ≤ 65532)
    (hgood : ∀ r ∈ records, r.Good (decide (op = opAddsum ∨ op = opAddsig))) (hq : q.length = csumLen)
    (hmax : (csmultiBytes op uid keyid records ++ q).length ≤ messageMaxlen) :
    verifyCsmultireq (csmultiBytes op uid keyid records ++ q) = some true := by
  have hop' : op < 4294967296 := by
    rcases hop with h | h | h | h | h | h <;> (subst h; decide)
  have hpre : (be32 pCsmultirequest ++ be32 op ++ be32 uid ++ be16 keyid.length ++
      be16 ((keyid.length + 3) / 4 * 4) ++ keyid ++
      List.replicate ((keyid.length + 3) / 4 * 4 - keyid.length) 0 : Bytes).length =
        16 + (keyid.length + 3) / 4 * 4 := by
    simp only [length_append, length_replicate, be32, be16, length_cons, length_nil]
    omega
  have hoperation : u32 (csmultiBytes op uid keyid records ++ q) 4 = op := by
    refine u32_at (p := be32 pCsmultirequest) (b := be32 uid ++ (be16 keyid.length ++
      (be16 ((keyid.length + 3) / 4 * 4) ++ (keyid ++ (List.replicate ((keyid.length + 3) / 4 * 4 - keyid.length) 0 ++
        (records.flatMap ReqRecord.bytes ++ (List.replicate 8 0 ++ q))))))) ?_ hop'
    rw [csmultiBytes]
    simp only [append_assoc]
  have hidlen : u16 (csmultiBytes op uid keyid records ++ q) 12 = keyid.length := by
    refine u16_at (p := be32 pCsmultirequest ++ be32 op ++ be32 uid) (b := be16 ((keyid.length + 3) / 4 * 4) ++
      (keyid ++ (List.replicate ((keyid.length + 3) / 4 * 4 - keyid.length) 0 ++
        (records.flatMap ReqRecord.bytes ++ (List.replicate 8 0 ++ q))))) ?_ (by omega)
    rw [csmultiBytes]
    simp only [append_assoc]
  have hrecoff : u16 (csmultiBytes op uid keyid records ++ q) 14 = (keyid.length + 3) / 4 * 4 := by
    refine u16_at (p := be32 pCsmultirequest ++ be32 op ++ be32 uid ++ be16 keyid.length)
      (b := keyid ++ (List.replicate ((keyid.length + 3) / 4 * 4 - keyid.length) 0 ++
        (records.flatMap ReqRecord.bytes ++ (List.replicate 8 0 ++ q)))) ?_ (by omega)
    rw [csmultiBytes]
    simp only [append_assoc]
  have haccepted : RequestAccepted (csmultiBytes op uid keyid records ++ q) := by
    refine ⟨?_, by rw [hoperation]; exact hop, by rw [hidlen, hrecoff]; omega, by rw [hidlen, hrecoff]; omega, ?_⟩
    · rw [Inside, csmultiBytes]
      simp only [length_append, length_replicate, be32, be16, length_cons, length_nil, hq]
      omega
    · rw [hoperation, hrecoff]
      refine walk_records (q := q) ?_ hpre hq hgood
      rw [csmultiBytes]
      simp only [append_assoc]
  obtain ⟨b, hb, hiff⟩ := verifyCsmultireq_decides hmax
  rw [hb, hiff.mpr haccepted]

end Verification

/-! ### The message -/

section Message

variable {req : Request} {x : ℕ × Record}

theorem mem_openRecords (h : Built req) (hx : x ∈ openRecords req) : req.reqs[x.1]? = some x.2 ∧ x.2.isOpen = true := by
  rw [openRecords, mem_filter] at hx
  exact ⟨(mem_inOrder h.last).mp hx.1, hx.2⟩

theorem stored_openRecords (h : Built req) : Stored (openRecords req) := by
  intro x hx
  obtain ⟨hget, hopen⟩ := mem_openRecords h hx
  exact ⟨hopen, (h.length x.2 (mem_of_getElem? hget) hopen).trans (alignedLength_space x.2)⟩

theorem counted_eq (req : Request) : counted req =
    countRecords (recordLimit req.op) ((openRecords req).map Prod.snd) (headerLength req) 0 :=
  countRecords_filter _ _ _ _

/-- The message is what the second step writes. -/
theorem csmultiMsg_eq (h : Built req) : csmultiMsg req false =
    (fillRecords ((counted req).1 + 8) (openRecords req) (headerLength req - 16) (counted req).2).map fun y =>
      (some (.csmulti req.op req.uid req.idlen ((headerLength req - 16) % 65536) (req.keyid.getD []) y.1),
        { req with openreqs := if (counted req).2 = 0 then 0 else req.openreqs, last := y.2 }) := by
  rw [csmultiMsg, if_neg (by simp [h.key]), if_neg (by simp), openRecords, ← fillRecords_filter]
  rfl

theorem space_le_spaceFor {length : ℕ} {xs : List (ℕ × Record)} (hx : x ∈ xs) : x.2.space ≤ spaceFor length xs := by
  induction xs generalizing length with
  | nil => exact absurd hx not_mem_nil
  | cons y xs ih =>
    rw [spaceFor_cons]
    rcases mem_cons.mp hx with rfl | hx
    · exact le_trans (Nat.le_add_left _ _) (le_spaceFor _ _)
    · exact ih hx

/-- The run that is written. -/
theorem run_spec (h : Built req) (hne : openRecords req ≠ []) (hfirst : Fits req 1)
    (hwrap : ∀ n < (openRecords req).length, n < recordLimit req.op → Fits req n →
      spaceFor (headerLength req) ((openRecords req).take (n + 1)) % 4294967296 ≤ 8000 → Fits req (n + 1)) :
    ∃ k ≤ (openRecords req).length, 0 < k ∧ Fits req k ∧ (∀ j ≤ (openRecords req).length, Fits req j → j ≤ k) ∧
      (counted req).1 = spaceFor (headerLength req) ((openRecords req).take k) ∧
      ∃ l, fillRecords ((counted req).1 + 8) (openRecords req) (headerLength req - 16) (counted req).2 =
        some (((openRecords req).take k).map fun x => x.2.toReq, some l) := by
  have hstored := stored_openRecords h
  have hheader : headerLength req ≤ 8000 := le_trans (le_spaceFor _ _) hfirst.2
  have hge := headerLength_ge req
  obtain ⟨hpos, hlimit⟩ := recordLimit_bounds req.op
  obtain ⟨k, hk, hkl, hkf, hmax, hcount⟩ := countRecords_run hstored hheader hpos fun k hk hkl hfits hsmall =>
    (hwrap k hk (by omega) ⟨by omega, hfits⟩ hsmall).2
  rw [zero_add] at hkl hcount
  have hmax' : ∀ j ≤ (openRecords req).length, Fits req j → j ≤ k := fun j hj hfits =>
    hmax j hj (by rw [zero_add]; exact hfits.1) hfits.2
  have h0 : 0 < k := hmax' 1 (length_pos_iff.mpr hne) hfirst
  rw [← counted_eq] at hcount
  have hspace : ∀ x ∈ (openRecords req).take k, x.2.length = x.2.space := by
    intro x hx
    have hle := le_trans (space_le_spaceFor hx) hkf
    rw [(hstored x (mem_of_mem_take hx)).2]
    exact Nat.mod_eq_of_lt (by omega)
  have hsize : spaceFor (16 + (headerLength req - 16)) ((openRecords req).take k) + 8 ≤ (counted req).1 + 8 := by
    rw [hcount, show 16 + (headerLength req - 16) = headerLength req by omega]
  obtain ⟨l, hl⟩ := fillRecords_run (fun x hx => (hstored x hx).1) h0 hk (by omega) hspace hsize
  refine ⟨k, hk, h0, ⟨hkl, hkf⟩, hmax', by rw [hcount], l, ?_⟩
  rw [hcount] at hl ⊢
  exact hl

/-- What is written for a record of the run. -/
theorem toReq_eq (h : Built req) (hx : x ∈ openRecords req) (hspace : x.2.space ≤ 8000) :
    x.2.toReq = { ownRecord x with index := x.1 % 65536 } := by
  obtain ⟨hget, hopen⟩ := mem_openRecords h hx
  have hlength := (stored_openRecords h x hx).2
  have hidx := h.idx x.1 x.2 hget
  have hcs : x.2.csdata.length < 65536 := by
    rw [Record.space] at hspace
    omega
  rw [Record.toReq, ownRecord, hlength, Nat.mod_eq_of_lt (by omega), hidx, uint_eq, Nat.mod_eq_of_lt hcs,
    Nat.mod_mod_of_dvd _ (by decide)]

theorem good_ownRecord (h : Built req) (hx : x ∈ openRecords req) (hspace : x.2.space ≤ 8000) :
    (ownRecord x).Good (decide (req.op = opAddsum ∨ req.op = opAddsig)) := by
  obtain ⟨hget, hopen⟩ := mem_openRecords h hx
  have hmem := mem_of_getElem? hget
  have hbounds : 8 + x.2.csdata.length + x.2.path.length < x.2.space ∧
      x.2.space ≤ 8 + x.2.csdata.length + x.2.path.length + 4 := by
    rw [Record.space]
    omega
  refine ⟨hbounds.1, hbounds.2, ?_, rfl, h.path x.2 hmem hopen, ?_⟩
  · change x.2.space < 65536
    omega
  · cases hadd : isAdd req.op with
    | false => exact .inr (h.csdata x.2 hmem hopen hadd)
    | true =>
      rw [isAdd, decide_eq_true_iff] at hadd
      exact .inl (decide_eq_true hadd.symm)

theorem length_ownRecords {length : ℕ} {xs : List (ℕ × Record)} {add : Bool}
    (hgood : ∀ x ∈ xs, (ownRecord x).Good add) :
    length + ((xs.map ownRecord).flatMap ReqRecord.bytes).length = spaceFor length xs := by
  induction xs generalizing length with
  | nil => rfl
  | cons x xs ih =>
    have hx := forall_mem_cons.mp hgood
    rw [map_cons, flatMap_cons, length_append, hx.1.length_bytes, spaceFor_cons, ← ih hx.2]
    exact (add_assoc _ _ _).symm

theorem known_op (h : Built req) : req.op = opAddsum ∨ req.op = opAddsig ∨ req.op = opGet2 ∨ req.op = opGetsig2 ∨
    req.op = opDel ∨ req.op = opDelsig := by
  have hkey := h.key
  rw [keyFits] at hkey
  split at hkey
  · rename_i hop
    rcases hop with h | h | h <;> simp [h]
  · split at hkey
    · rename_i hop
      rcases hop with h | h | h <;> simp [h]
    · exact absurd hkey (by simp)

/-- With no open record the message is empty. -/
theorem csmultiMsg_empty (h : Built req) (hnil : openRecords req = []) : ∃ req', csmultiMsg req false =
    some (some (.csmulti req.op req.uid req.idlen ((headerLength req - 16) % 65536) (req.keyid.getD []) []), req') := by
  have hge := headerLength_ge req
  have hcount : (counted req).1 = headerLength req := by
    rw [counted_eq, hnil]
    rfl
  have hfill : fillRecords ((counted req).1 + 8) (openRecords req) (headerLength req - 16) (counted req).2 =
      some ([], none) := by
    rw [hnil, hcount]
    exact if_pos (by omega)
  rw [csmultiMsg_eq h, hfill]
  exact ⟨_, rfl⟩

/-- An empty message is accepted. -/
theorem verify_empty (h : Built req) (hkey : req.idlen ≤ 65532) {q : Bytes} (hq : q.length = csumLen) :
    verifyCsmultireq (csmultiBytes req.op req.uid (req.keyid.getD []) [] ++ q) = some true := by
  have hlen : (req.keyid.getD []).length ≤ 65532 := hkey
  refine verify_csmultiBytes (known_op h) hkey (by simp) hq ?_
  rw [csmultiBytes]
  simp only [length_append, length_replicate, be32, be16, length_cons, length_nil, hq, flatMap_nil, messageMaxlen]
  rw [csumLen]
  omega

/-- A message with the records of a run is accepted. -/
theorem verify_run (h : Built req) {k : ℕ} (hfits : Fits req k) {q : Bytes} (hq : q.length = csumLen) :
    verifyCsmultireq (csmultiBytes req.op req.uid (req.keyid.getD [])
      (((openRecords req).take k).map ownRecord) ++ q) = some true := by
  have hgood : ∀ x ∈ (openRecords req).take k,
      (ownRecord x).Good (decide (req.op = opAddsum ∨ req.op = opAddsig)) := fun x hx =>
    good_ownRecord h (mem_of_mem_take hx) (le_trans (space_le_spaceFor hx) hfits.2)
  have hheader : (16 + (req.keyid.getD []).length + 3) / 4 * 4 ≤ 8000 :=
    le_trans (le_spaceFor (headerLength req) _) hfits.2
  have hlen : (16 + (req.keyid.getD []).length + 3) / 4 * 4 +
      ((((openRecords req).take k).map ownRecord).flatMap ReqRecord.bytes).length ≤ 8000 := by
    rw [length_ownRecords hgood]
    exact hfits.2
  refine verify_csmultiBytes (known_op h) (by omega) ?_ hq ?_
  · intro r hr
    obtain ⟨x, hx, rfl⟩ := mem_map.mp hr
    exact hgood x hx
  · rw [csmultiBytes]
    simp only [length_append, length_replicate, be32, be16, length_cons, length_nil, hq, messageMaxlen]
    rw [csumLen]
    omega

/-- A record for which the sum wraps around is longer than the message. -/
theorem overflow_of_wrap (h : Built req) {n : ℕ} (hn : n < (openRecords req).length) (hlimit : n < recordLimit req.op)
    (hfits : n = 0 ∨ spaceFor (headerLength req) ((openRecords req).take n) ≤ 8000)
    (hwrap : spaceFor (headerLength req) ((openRecords req).take (n + 1)) % 4294967296 ≤ 8000)
    (hbig : ¬spaceFor (headerLength req) ((openRecords req).take (n + 1)) ≤ 8000) : csmultiMsg req false = none := by
  have hstored := stored_openRecords h
  have hidlen := h.idlen
  obtain ⟨hpos, hlimit'⟩ := recordLimit_bounds req.op
  have hheader : headerLength req < 2147483700 := by
    rw [headerLength]
    omega
  have hget : (openRecords req)[n]? = some (openRecords req)[n] := getElem?_eq_getElem hn
  have hsum : spaceFor (headerLength req) ((openRecords req).take (n + 1)) =
      spaceFor (headerLength req) ((openRecords req).take n) + (openRecords req)[n].2.space := by
    rw [take_succ_eq_append_getElem hn, spaceFor, foldl_append]
    rfl
  have hfront : spaceFor (headerLength req) ((openRecords req).take n) < 2147483700 := by
    rcases hfits with rfl | hfits
    · exact hheader
    · omega
  have hwritten : (openRecords req)[n].2.space ≤ (openRecords req)[n].2.written + 3 := by
    rw [Record.space, Record.written]
    omega
  obtain ⟨h₁, h₂⟩ := countRecords_wrap hstored hn (show 0 + n < recordLimit req.op by omega) hfits hwrap
  rw [← counted_eq] at h₁ h₂
  have h₃ : (counted req).2 ≤ recordLimit req.op := by
    rw [counted_eq]
    exact countRecords_le_limit hstored hpos
  have hover : fillRecords ((counted req).1 + 8) (openRecords req) (headerLength req - 16) (counted req).2 = none :=
    fillRecords_overflow (fun x hx => (hstored x hx).1) hget (by omega) (by omega) (by omega)
  rw [csmultiMsg_eq h, hover]
  rfl

/-- A first record that does not fit is written all the same. -/
theorem overflow_of_first (h : Built req) (hne : openRecords req ≠ []) (hfirst : ¬Fits req 1) :
    csmultiMsg req false = none := by
  have hstored := stored_openRecords h
  have hge := headerLength_ge req
  obtain ⟨hpos, -⟩ := recordLimit_bounds req.op
  have hbig : ¬spaceFor (headerLength req) ((openRecords req).take (0 + 1)) ≤ 8000 := fun hle => hfirst ⟨hpos, hle⟩
  by_cases hwrap : spaceFor (headerLength req) ((openRecords req).take (0 + 1)) % 4294967296 ≤ 8000
  · exact overflow_of_wrap h (length_pos_iff.mpr hne) hpos (.inl rfl) hwrap hbig
  · rw [csmultiMsg_eq h]
    have hcount := counted_eq req
    obtain ⟨x, xs, hxs⟩ := exists_cons_of_ne_nil hne
    rw [hxs] at hstored hcount hwrap ⊢
    have hlarge : (headerLength req + x.2.space) % 4294967296 > 8000 := not_le.mp hwrap
    rw [countRecords_cons hstored, if_pos hlarge] at hcount
    have hwritten : 8 < x.2.written := by
      rw [Record.written]
      omega
    rw [hcount, fillRecords_uncounted (hstored x mem_cons_self).1 (by omega)]
    rfl

/-- The message is what it should be exactly if the first open record fits, no sum wraps around where the run ends, and
    the indexes of the run have 16 bits. -/
theorem csmulti_msg_iff (req : Request) (h : Built req) : GoodMessage req ↔ Sendable req := by
  constructor
  · rintro ⟨records, req', hmsg, hrun, -⟩
    have hsome : csmultiMsg req false ≠ none := by rw [hmsg]; simp
    have hfirst : openRecords req ≠ [] → Fits req 1 := fun hne =>
      Classical.byContradiction fun hnot => hsome (overflow_of_first h hne hnot)
    have hwrap : ∀ n < (openRecords req).length, n < recordLimit req.op → Fits req n →
        spaceFor (headerLength req) ((openRecords req).take (n + 1)) % 4294967296 ≤ 8000 → Fits req (n + 1) :=
      fun n hn hlimit hfits hsmall => ⟨hlimit, Classical.byContradiction fun hbig =>
        hsome (overflow_of_wrap h hn hlimit (.inr hfits.2) hsmall hbig)⟩
    refine ⟨hfirst, hwrap, fun n hfits x hx => ?_⟩
    have hne : openRecords req ≠ [] := by
      intro hnil
      rw [hnil, List.take_nil] at hx
      exact List.not_mem_nil hx
    obtain ⟨k, hk, -, hkf, hmax, -, l, hfill⟩ := run_spec h hne (hfirst hne) hwrap
    obtain ⟨k', hk', -, -, hrecords⟩ := (hrun hne).run
    have hwritten : records = ((openRecords req).take k).map fun x => x.2.toReq := by
      rw [csmultiMsg_eq h, hfill] at hmsg
      simp only [Option.map_some, Option.some.injEq, Prod.mk.injEq, ReqMsg.csmulti.injEq, true_and] at hmsg
      exact hmsg.1.symm
    have hkk : k' = k := by
      have hlen := congrArg List.length (hrecords.symm.trans hwritten)
      simp only [List.length_map, List.length_take] at hlen
      omega
    have hmem : x ∈ (openRecords req).take k := by
      have hle : min n (openRecords req).length ≤ k := by
        refine hmax _ (Nat.min_le_right _ _) ⟨Nat.le_trans (Nat.min_le_left _ _) hfits.1, ?_⟩
        rw [← List.take_eq_take_min]
        exact hfits.2
      rw [List.take_eq_take_min] at hx
      exact (List.take_subset_take_left _ hle) hx
    have heq := (List.map_inj_left.mp (hkk ▸ hrecords.symm.trans hwritten)) x hmem
    rw [toReq_eq h (List.mem_of_mem_take hmem) (Nat.le_trans (space_le_spaceFor hmem) hkf.2)] at heq
    have hindex : x.1 = x.1 % 65536 := congrArg ReqRecord.index heq
    omega
  · intro hs
    by_cases hnil : openRecords req = []
    · obtain ⟨req', hmsg⟩ := csmultiMsg_empty h hnil
      refine ⟨[], req', hmsg, fun hne => absurd hnil hne, fun hkey q hq => ?_⟩
      exact verify_empty h (hkey.resolve_left fun hne => hne hnil) hq
    · obtain ⟨k, hk, h0, hkf, hmax, -, l, hfill⟩ := run_spec h hnil (hs.first hnil) hs.noWrap
      have hown : ((openRecords req).take k).map (fun x => x.2.toReq) = ((openRecords req).take k).map ownRecord := by
        refine List.map_inj_left.mpr fun x hx => ?_
        rw [toReq_eq h (List.mem_of_mem_take hx) (Nat.le_trans (space_le_spaceFor hx) hkf.2),
          Nat.mod_eq_of_lt (hs.index k hkf x hx)]
        rfl
      refine ⟨((openRecords req).take k).map ownRecord, _, by rw [csmultiMsg_eq h, hfill, hown]; rfl, fun _ => ?_,
        fun _ q hq => verify_run h hkf hq⟩
      refine ⟨⟨k, hk, .inr hkf, hmax, rfl⟩, fun _ hempty => ?_⟩
      rw [List.map_eq_nil_iff, List.take_eq_nil_iff] at hempty
      exact hempty.elim (fun hzero => absurd hzero (Nat.pos_iff_ne_zero.mp h0)) hnil

end Message

/-- A request without records. -/
def emptyRequest : Request := ⟨opGet2, 0, 0, 0, none, [], false, none, []⟩

theorem made_emptyRequest : Made emptyRequest := by
  have h : csmultiCreate opGet2 0 none = some emptyRequest := rfl
  exact .create (by decide) h

/-- Three records, of which the first one was answered. -/
def answeredRequest : Request :=
  ((csmultiAdd (csmultiAddError (csmultiAdd emptyRequest [47, 97] none).2 [47, 98] 2).2 [47, 99] none).2).answer 0 0

theorem made_answeredRequest : Made answeredRequest := by
  have h₁ : Made (csmultiAdd emptyRequest [47, 97] none).2 := made_emptyRequest.add (by decide) none
  have h₃ := (h₁.addError [47, 98] 2).add (show 0 ∉ [47, 99] by decide) none
  exact h₃.answer (by decide) (by decide)

theorem csmulti_msg_iff_answered : GoodMessage answeredRequest ↔ Sendable answeredRequest :=
  csmulti_msg_iff answeredRequest made_answeredRequest.built

/-- A path of 8000 bytes. -/
def longRequest : Request := (csmultiAdd emptyRequest (List.replicate 8000 97) none).2

/-- Its record is written outside of the message. -/
theorem csmulti_msg_long : Made longRequest ∧ csmultiMsg longRequest false = none ∧ ¬GoodMessage longRequest := by
  have hmade : Made longRequest :=
    made_emptyRequest.add (fun h => absurd (List.eq_of_mem_replicate h) (by decide)) none
  have hopen : openRecords longRequest ≠ [] := by
    intro h
    have hlen := congrArg List.length h
    exact absurd hlen (by decide +kernel)
  have hfirst : ¬Fits longRequest 1 := by
    rintro ⟨-, h⟩
    revert h
    decide +kernel
  have hnone := overflow_of_first hmade.built hopen hfirst
  refine ⟨hmade, hnone, ?_⟩
  rintro ⟨records, req', hmsg, -⟩
  rw [hnone] at hmsg
  exact absurd hmsg (by simp)

end Anoubis.Client

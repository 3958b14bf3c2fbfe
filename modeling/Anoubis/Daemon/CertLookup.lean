import Anoubis.Daemon.Cert
import Anoubis.Lib.Unique

/-! Which certificate the lookups find.

    The pairwise marks of `cert_load_db` add up: a certificate is ignored if another one has its key ID. For a user ID
    there is no such mark, although several file names are the same number:

        1000      key a   ┐
        01000     key b   ┘  uid 1000, twice

    A search for the user ID then finds the file that is read first, so the lookups are unambiguous only if each
    certificate that is not ignored is the only one of its user. -/

namespace Anoubis.Certs

open Anoubis.Lib List
open Anoubis.Daemon.Sfs (hexString)

variable {X K : Type}

/-! ### The property -/

/-- The certificates in the files of the directory. -/
def loaded (ssl : Ssl X K) (dir : List Dirent) : List (Cert X K) := dir.filterMap (certRead ssl)

def hasKeyid (keyid : List UInt8) (c : Cert X K) : Bool := decide (c.keyid = keyid)

def hasUid (uid : ℕ) (c : Cert X K) : Bool := decide (c.uid = uid)

/-- No other certificate has its key ID. -/
def UniqueKeyid (certs : List (Cert X K)) (c : Cert X K) : Prop := certs.countP (hasKeyid c.keyid) = 1

/-- Just one certificate is that of the user, and its key ID is unique. -/
def UniqueUid (certs : List (Cert X K)) (uid : ℕ) : Prop :=
  ∃ c, certs.filter (hasUid uid) = [c] ∧ UniqueKeyid certs c

/-- The lookups behind `cert_load_db` for a directory that is read in this order. -/
structure Unambiguous (ssl : Ssl X K) (dir : List Dirent) : Prop where
  keyid : ∀ k, (certGetByKeyid (certLoadDb ssl (some dir)) k).isSome ↔ (loaded ssl dir).countP (hasKeyid k) = 1
  uid : ∀ u, (certGetByUid (certLoadDb ssl (some dir)) u).isSome ↔ UniqueUid (loaded ssl dir) u
  same : ∀ u c, certGetByUid (certLoadDb ssl (some dir)) u = some c →
    certGetByKeyid (certLoadDb ssl (some dir)) c.keyid = some c
  keyidFor : ∀ u, certKeyidForUid (certLoadDb ssl (some dir)) u =
    (certGetByUid (certLoadDb ssl (some dir)) u).map fun c => hexString c.keyid
  order : ∀ dir' : List Dirent, dir'.Perm dir →
    (∀ k, certGetByKeyid (certLoadDb ssl (some dir')) k = certGetByKeyid (certLoadDb ssl (some dir)) k) ∧
    (∀ u, certGetByUid (certLoadDb ssl (some dir')) u = certGetByUid (certLoadDb ssl (some dir)) u) ∧
    ∀ u, certKeyidForUid (certLoadDb ssl (some dir')) u = certKeyidForUid (certLoadDb ssl (some dir)) u

/-- A certificate whose key ID is unique is the only one of its user. -/
def UsersApart (certs : List (Cert X K)) : Prop :=
  ∀ c ∈ certs, UniqueKeyid certs c → certs.countP (hasUid c.uid) = 1

/-! ### The database -/

/-- The certificate as it stands in the database. -/
def mark (certs : List (Cert X K)) (c : Cert X K) : Cert X K :=
  { c with ignore := certs.countP (hasKeyid c.keyid) != 1 }

section Marks

variable {certs : List (Cert X K)} {c sc : Cert X K} {k : List UInt8} {ssl : Ssl X K} {dir : List Dirent}

theorem hasKeyid_mark (certs : List (Cert X K)) (k : List UInt8) (c : Cert X K) :
    hasKeyid k (mark certs c) = hasKeyid k c := rfl

theorem ignore_mark : (mark certs c).ignore = false ↔ UniqueKeyid certs c := by
  simp [mark, UniqueKeyid]

theorem certFindKeyid_false (hk : k ≠ []) (certs : List (Cert X K)) :
    certFindKeyid k false certs = certs.find? (hasKeyid k) := by
  have hhas : (fun p : Cert X K => decide (p.keyid = k)) = hasKeyid k := rfl
  rw [certFindKeyid, if_neg hk, hhas]
  cases certs.find? (hasKeyid k) <;> rfl

/-- What `certInsert` does to a certificate that it finds. -/
def ignoreKeyid (k : List UInt8) (check : Cert X K) : Option (Cert X K) :=
  if check.keyid = k then some { check with ignore := true } else none

/-- All certificates with a key ID are ignored. -/
def AllIgnored (k : List UInt8) (certs : List (Cert X K)) : Prop := ∀ c ∈ certs, hasKeyid k c = true → c.ignore = true

theorem lookmap_ignored : ∀ {certs : List (Cert X K)}, AllIgnored k certs → certs.lookmap (ignoreKeyid k) = certs
  | [], _ => rfl
  | c :: certs, h => by
    by_cases hk : c.keyid = k
    · have hc : c.ignore = true := h c mem_cons_self (decide_eq_true hk)
      exact lookmap_cons_some _ _ (by rw [ignoreKeyid, if_pos hk, ← hc])
    · rw [lookmap_cons_none _ _ (by rw [ignoreKeyid, if_neg hk]),
        lookmap_ignored fun d hd => h d (mem_cons_of_mem _ hd)]

theorem map_ignored (h : AllIgnored k certs) :
    certs.map (fun c => if c.keyid = k then { c with ignore := true } else c) = certs := by
  refine (map_congr_left fun c hc => ?_).trans (map_id certs)
  split
  · rename_i hk
    rw [← h c hc (decide_eq_true hk)]
    rfl
  · rfl

/-- The first certificate with a key ID stands for all of them, if the others are ignored already. -/
theorem lookmap_ignoreKeyid : ∀ {certs : List (Cert X K)}, certs.countP (hasKeyid k) = 1 ∨ AllIgnored k certs →
    certs.lookmap (ignoreKeyid k) = certs.map fun c => if c.keyid = k then { c with ignore := true } else c
  | certs, .inr h => (lookmap_ignored h).trans (map_ignored h).symm
  | [], .inl _ => rfl
  | c :: certs, .inl h => by
    by_cases hk : c.keyid = k
    · rw [countP_cons_of_pos (p := hasKeyid k) (decide_eq_true hk), Nat.add_eq_right, countP_eq_zero] at h
      have hrest : AllIgnored k certs := fun d hd hdk => absurd hdk (h d hd)
      rw [lookmap_cons_some (b := { c with ignore := true }) _ _ (by rw [ignoreKeyid, if_pos hk]), map_cons,
        if_pos hk, map_ignored hrest]
    · rw [countP_cons_of_neg (p := hasKeyid k) (by simpa [hasKeyid] using hk)] at h
      rw [lookmap_cons_none _ _ (by rw [ignoreKeyid, if_neg hk]), lookmap_ignoreKeyid (.inl h), map_cons,
        if_neg hk]

theorem countP_append_self (certs : List (Cert X K)) (sc : Cert X K) :
    (certs ++ [sc]).countP (hasKeyid sc.keyid) = certs.countP (hasKeyid sc.keyid) + 1 := by
  rw [countP_append, countP_singleton, if_pos (by simp [hasKeyid])]

theorem countP_append_ne (certs : List (Cert X K)) (h : sc.keyid ≠ k) :
    (certs ++ [sc]).countP (hasKeyid k) = certs.countP (hasKeyid k) := by
  rw [countP_append, countP_singleton, if_neg (by simpa [hasKeyid] using h), add_zero]

theorem mark_append_ne (certs : List (Cert X K)) (h : sc.keyid ≠ c.keyid) :
    mark (certs ++ [sc]) c = mark certs c := by
  rw [mark, mark, countP_append_ne certs h]

theorem mark_append_self (hpos : 0 < certs.countP (hasKeyid sc.keyid)) (h : c.keyid = sc.keyid) :
    mark (certs ++ [sc]) c = { c with ignore := true } := by
  have hmany : (certs.countP (hasKeyid sc.keyid) + 1 != 1) = true := by simpa using hpos
  rw [mark, h, countP_append_self, hmany]

/-- One more certificate. -/
theorem certInsert_marked (hk : sc.keyid ≠ []) :
    certInsert (certs.map (mark certs)) sc = (certs ++ [sc]).map (mark (certs ++ [sc])) := by
  have hcomp : hasKeyid sc.keyid ∘ mark certs = hasKeyid sc.keyid := rfl
  rw [certInsert, certFindKeyid_false hk, find?_map, hcomp, map_append, map_singleton]
  cases hfind : certs.find? (hasKeyid sc.keyid) with
  | none =>
    have hno := find?_eq_none.mp hfind
    have hsc : mark (certs ++ [sc]) sc = { sc with ignore := false } := by
      rw [mark, countP_append_self, countP_eq_zero.mpr hno]
      rfl
    have hcerts : certs.map (mark certs) = certs.map (mark (certs ++ [sc])) := by
      refine map_congr_left fun c hc => (mark_append_ne certs fun heq => ?_).symm
      exact hno c hc (decide_eq_true heq.symm)
    rw [hsc, hcerts]
    rfl
  | some d =>
    have hpos : 0 < certs.countP (hasKeyid sc.keyid) :=
      countP_pos_iff.mpr ⟨d, mem_of_find?_eq_some hfind, find?_some hfind⟩
    have hmarks : (certs.map (mark certs)).countP (hasKeyid sc.keyid) = 1 ∨
        AllIgnored sc.keyid (certs.map (mark certs)) := by
      rw [countP_map, hcomp]
      refine (em _).imp id fun hmany c hc hck => ?_
      obtain ⟨c, -, rfl⟩ := mem_map.mp hc
      rw [hasKeyid_mark, hasKeyid, decide_eq_true_iff] at hck
      rw [← Bool.not_eq_false, ignore_mark, UniqueKeyid, hck]
      exact hmany
    have hcerts : (certs.map (mark certs)).lookmap (ignoreKeyid sc.keyid) = certs.map (mark (certs ++ [sc])) := by
      rw [lookmap_ignoreKeyid hmarks, map_map]
      refine map_congr_left fun c _ => ?_
      by_cases hc : c.keyid = sc.keyid
      · have hmark := mark_append_self (c := c) hpos hc
        rw [hmark]
        exact if_pos hc
      · have hmark := mark_append_ne (c := c) certs (Ne.symm hc)
        rw [hmark]
        exact if_neg hc
    rw [mark_append_self hpos rfl, ← hcerts]
    rfl

/-- A certificate that is read has a key ID and its public key. -/
theorem certRead_spec {dp : Dirent} (h : certRead ssl dp = some c) : ∃ uid pubkey req,
    certKeyid ssl req ≠ [] ∧ c = ⟨uid, some pubkey, none, certKeyid ssl req, false, req⟩ := by
  rw [certRead] at h
  split at h
  · cases h
  obtain ⟨uid, -, h⟩ := Option.bind_eq_some_iff.mp h
  split at h
  · cases h
  obtain ⟨file, -, h⟩ := Option.bind_eq_some_iff.mp h
  obtain ⟨req, -, h⟩ := Option.bind_eq_some_iff.mp h
  obtain ⟨pubkey, -, h⟩ := Option.bind_eq_some_iff.mp h
  split at h
  · cases h
  · rename_i hk
    exact ⟨uid.toNat, pubkey, req, hk, (Option.some.inj h).symm⟩

theorem certRead_keyid {dp : Dirent} (h : certRead ssl dp = some c) : c.keyid ≠ [] := by
  obtain ⟨uid, pubkey, req, hk, rfl⟩ := certRead_spec h
  exact hk

/-- `cert_load_db` ignores the certificates whose key IDs are not unique. -/
theorem certLoadDb_eq (ssl : Ssl X K) (dir : List Dirent) :
    certLoadDb ssl (some dir) = (loaded ssl dir).map (mark (loaded ssl dir)) := by
  rw [certLoadDb]
  induction dir using List.reverseRecOn with
  | nil => rfl
  | append_singleton dir dp ih =>
    rw [foldl_append, ih, foldl_cons, foldl_nil, certLoad, loaded, loaded, filterMap_append]
    cases hread : certRead ssl dp with
    | none => simp [hread]
    | some sc => simpa [hread, loaded] using certInsert_marked (certRead_keyid hread)

end Marks

/-! ### Lookups -/

section Lookups

variable {certs certs' : List (Cert X K)} {c : Cert X K} {ssl : Ssl X K} {dir dir' : List Dirent}

/-- The certificate is not ignored in the database. -/
def kept (certs : List (Cert X K)) (c : Cert X K) : Bool := !(mark certs c).ignore

theorem kept_iff : kept certs c = true ↔ UniqueKeyid certs c := by
  rw [kept, Bool.not_eq_true', ignore_mark]

theorem mark_perm (h : certs.Perm certs') : mark certs = mark certs' := by
  funext c
  rw [mark, mark, h.countP_eq]

theorem kept_perm (h : certs.Perm certs') : kept certs = kept certs' := by
  funext c
  rw [kept, kept, mark_perm h]

/-- The lookup looks at the flag of the first hit. -/
theorem certGetByUid_eq (certs : List (Cert X K)) (u : ℕ) :
    certGetByUid certs u = (certs.find? (hasUid u)).filter fun p => !p.ignore := by
  have hhas : (fun p : Cert X K => decide (p.uid = u)) = hasUid u := rfl
  rw [certGetByUid, certFindUid, hhas]
  rcases certs.find? (hasUid u) with _ | p
  · rfl
  · cases hp : p.ignore <;> simp [Option.filter, hp]

theorem certGetByKeyid_eq (certs : List (Cert X K)) {k : List UInt8} (hk : k ≠ []) :
    certGetByKeyid certs k = (certs.find? (hasKeyid k)).filter fun p => !p.ignore := by
  have hhas : (fun p : Cert X K => decide (p.keyid = k)) = hasKeyid k := rfl
  rw [certGetByKeyid, certFindKeyid, if_neg hk, hhas]
  rcases certs.find? (hasKeyid k) with _ | p
  · rfl
  · cases hp : p.ignore <;> simp [Option.filter, hp]

theorem filter_map_mark (o : Option (Cert X K)) :
    (o.map (mark certs)).filter (fun p => !p.ignore) = (o.filter (kept certs)).map (mark certs) := by
  rw [Option.filter_map]
  rfl

theorem certGetByUid_marked (certs : List (Cert X K)) (u : ℕ) :
    certGetByUid (certs.map (mark certs)) u = ((certs.find? (hasUid u)).filter (kept certs)).map (mark certs) := by
  rw [certGetByUid_eq, find?_map, filter_map_mark]
  rfl

theorem certGetByKeyid_marked (hk : ∀ c ∈ certs, c.keyid ≠ []) (k : List UInt8) :
    certGetByKeyid (certs.map (mark certs)) k = (theOnly (hasKeyid k) certs).map (mark certs) := by
  have hkept : ∀ c ∈ certs, hasKeyid k c = true → (kept certs c = true ↔ certs.countP (hasKeyid k) = 1) := by
    intro c _ hc
    rw [kept_iff, UniqueKeyid, of_decide_eq_true hc]
  have honly : (theOnly (hasKeyid k) certs).filter (kept certs) = theOnly (hasKeyid k) certs :=
    filter_theOnly fun c hc hck h => (hkept c hc hck).mpr h
  by_cases hnil : k = []
  · have hnone : certs.countP (hasKeyid k) = 0 :=
      countP_eq_zero.mpr fun c hc hck => hk c hc (hnil ▸ of_decide_eq_true hck)
    rw [certGetByKeyid, certFindKeyid, if_pos hnil, theOnly, if_neg (by rw [hnone]; decide), Option.map_none]
  · rw [certGetByKeyid_eq _ hnil, find?_map, filter_map_mark]
    show ((certs.find? (hasKeyid k)).filter (kept certs)).map (mark certs) = _
    rw [find?_filter_eq fun c hc hck h => (hkept c hc hck).mp h, honly]

theorem certKeyidForUid_marked (hk : ∀ c ∈ certs, c.keyid ≠ []) (u : ℕ) : certKeyidForUid (certs.map (mark certs)) u =
      (certs.find? fun c => hasUid u c && kept certs c).map fun c => hexString c.keyid := by
  have hkept : (fun p : Cert X K => decide (p.uid = u) && !p.ignore) ∘ mark certs =
      fun c => hasUid u c && kept certs c := rfl
  rw [certKeyidForUid, find?_map, hkept]
  cases hfind : certs.find? fun c => hasUid u c && kept certs c with
  | none => rfl
  | some c => exact if_neg (hk c (mem_of_find?_eq_some hfind))

/-- If the users are apart, no lookup depends on the order of the certificates. -/
theorem find?_hasUid (h : UsersApart certs) (u : ℕ) :
    (certs.find? (hasUid u)).filter (kept certs) = (theOnly (hasUid u) certs).filter (kept certs) ∧
      certs.find? (fun c => hasUid u c && kept certs c) = (theOnly (hasUid u) certs).filter (kept certs) := by
  have hone : ∀ c ∈ certs, hasUid u c = true → kept certs c = true → certs.countP (hasUid u) = 1 := by
    intro c hc hu hkept
    rw [← h c hc (kept_iff.mp hkept), of_decide_eq_true hu]
  exact ⟨find?_filter_eq hone, find?_and_eq hone⟩

theorem loaded_keyid : ∀ c ∈ loaded ssl dir, c.keyid ≠ [] := by
  intro c hc
  obtain ⟨dp, -, hread⟩ := mem_filterMap.mp hc
  exact certRead_keyid hread

theorem loaded_perm (h : dir'.Perm dir) : (loaded ssl dir').Perm (loaded ssl dir) := h.filterMap _

theorem usersApart_perm (h : certs.Perm certs') (ha : UsersApart certs) : UsersApart certs' := by
  intro c hc hk
  rw [← h.countP_eq]
  refine ha c (h.mem_iff.mpr hc) ?_
  rwa [UniqueKeyid, h.countP_eq]

theorem certGetByUid_load (ssl : Ssl X K) (dir : List Dirent) (u : ℕ) : certGetByUid (certLoadDb ssl (some dir)) u =
      (((loaded ssl dir).find? (hasUid u)).filter (kept (loaded ssl dir))).map (mark (loaded ssl dir)) := by
  rw [certLoadDb_eq, certGetByUid_marked]

theorem certGetByKeyid_load (ssl : Ssl X K) (dir : List Dirent) (k : List UInt8) :
    certGetByKeyid (certLoadDb ssl (some dir)) k =
      (theOnly (hasKeyid k) (loaded ssl dir)).map (mark (loaded ssl dir)) := by
  rw [certLoadDb_eq, certGetByKeyid_marked loaded_keyid]

theorem certGetByUid_apart (h : UsersApart (loaded ssl dir)) (u : ℕ) : certGetByUid (certLoadDb ssl (some dir)) u =
      ((theOnly (hasUid u) (loaded ssl dir)).filter (kept (loaded ssl dir))).map (mark (loaded ssl dir)) := by
  rw [certGetByUid_load, (find?_hasUid h u).1]

theorem certKeyidForUid_apart (h : UsersApart (loaded ssl dir)) (u : ℕ) :
    certKeyidForUid (certLoadDb ssl (some dir)) u =
      ((theOnly (hasUid u) (loaded ssl dir)).filter (kept (loaded ssl dir))).map fun c => hexString c.keyid := by
  rw [certLoadDb_eq, certKeyidForUid_marked loaded_keyid, (find?_hasUid h u).2]

theorem uniqueUid_iff {u : ℕ} : UniqueUid certs u ↔ ∃ c, (theOnly (hasUid u) certs).filter (kept certs) = some c := by
  refine exists_congr fun c => ?_
  rw [Option.filter_eq_some_iff, theOnly_eq_some_iff, kept_iff]

/-- A certificate that is not ignored is found by its key ID. -/
theorem theOnly_hasKeyid (hc : c ∈ certs) (hk : UniqueKeyid certs c) : theOnly (hasKeyid c.keyid) certs = some c := by
  obtain ⟨d, hd⟩ := countP_eq_one_iff.mp hk
  rw [theOnly_eq_some_iff, hd, eq_of_filter hd hc (decide_eq_true rfl)]

end Lookups

/-! ### Results -/

section Results

variable {ssl : Ssl X K} {dir : List Dirent}

theorem unambiguous_of_usersApart (h : UsersApart (loaded ssl dir)) : Unambiguous ssl dir where
  keyid k := by
    rw [certGetByKeyid_load, Option.isSome_map, isSome_theOnly]
  uid u := by
    rw [certGetByUid_apart h, Option.isSome_map, Option.isSome_iff_exists, uniqueUid_iff]
  same u c hc := by
    rw [certGetByUid_apart h] at hc
    obtain ⟨d, hd, rfl⟩ := Option.map_eq_some_iff.mp hc
    obtain ⟨honly, hkept⟩ := Option.filter_eq_some_iff.mp hd
    have hmem := mem_filter.mp (theOnly_eq_some_iff.mp honly ▸ mem_singleton_self d)
    have hkey : (mark (loaded ssl dir) d).keyid = d.keyid := rfl
    rw [certGetByKeyid_load, hkey, theOnly_hasKeyid hmem.1 (kept_iff.mp hkept), Option.map_some]
  keyidFor u := by
    rw [certGetByUid_apart h, certKeyidForUid_apart h, Option.map_map]
    rfl
  order dir' hperm := by
    have hloaded : (loaded ssl dir').Perm (loaded ssl dir) := loaded_perm hperm
    have h' := usersApart_perm hloaded.symm h
    refine ⟨fun k => ?_, fun u => ?_, fun u => ?_⟩
    · rw [certGetByKeyid_load, certGetByKeyid_load, theOnly_perm hloaded, mark_perm hloaded]
    · rw [certGetByUid_apart h, certGetByUid_apart h', theOnly_perm hloaded, mark_perm hloaded, kept_perm hloaded]
    · rw [certKeyidForUid_apart h, certKeyidForUid_apart h', theOnly_perm hloaded, kept_perm hloaded]

/-- A certificate with a unique key ID is found for its user, if its file is read first. -/
theorem certGetByUid_first {dp : Dirent} {c : Cert X K} (hread : certRead ssl dp = some c)
    (hk : UniqueKeyid (loaded ssl (dp :: dir)) c) :
    (certGetByUid (certLoadDb ssl (some (dp :: dir))) c.uid).isSome := by
  have hfirst : (loaded ssl (dp :: dir)).find? (hasUid c.uid) = some c := by
    rw [loaded, filterMap_cons_some hread, find?_cons_of_pos (by simp [hasUid])]
  rw [certGetByUid_load, hfirst, Option.isSome_map, Option.filter_some_pos (kept_iff.mpr hk), Option.isSome_some]

/-- The lookups are unambiguous if and only if no two files are those of one user, unless they are ignored. -/
theorem unambiguous_iff (ssl : Ssl X K) (dir : List Dirent) :
    Unambiguous ssl dir ↔ UsersApart (loaded ssl dir) := by
  refine ⟨fun h c hc hk => ?_, unambiguous_of_usersApart⟩
  obtain ⟨dp, hdp, hread⟩ := List.mem_filterMap.mp hc
  obtain ⟨before, behind, rfl⟩ := List.append_of_mem hdp
  have hperm : (dp :: (before ++ behind)).Perm (before ++ dp :: behind) := List.perm_middle.symm
  have hk' : UniqueKeyid (loaded ssl (dp :: (before ++ behind))) c := by
    rwa [UniqueKeyid, (loaded_perm hperm).countP_eq]
  have hsome := certGetByUid_first hread hk'
  rw [(h.order _ hperm).2.1, h.uid] at hsome
  obtain ⟨d, hd, -⟩ := hsome
  exact countP_eq_one_iff.mpr ⟨d, hd⟩

/-- A certificate is its key, and the extension holds the key. -/
def sampleSsl : Ssl (List UInt8) (List UInt8) where
  pemReadX509 file := some file
  x509GetPubkey req := some req
  keyIdentifiers req := [4 :: 20 :: req]
  pemReadPrivateKey file _ := some file

/-- The files 1000 and 01000. -/
def zeroDir : List Dirent :=
  [⟨cLit "1000", .reg, some true, some [1]⟩, ⟨cLit "01000", .reg, some true, some [2]⟩]

/-- The key of the user is the one in the file that is read first. -/
theorem not_unambiguous_zeroDir : ¬ Unambiguous sampleSsl zeroDir := by
  intro h
  have horder := (h.order zeroDir.reverse (List.reverse_perm zeroDir)).2.1 1000
  exact absurd horder (by decide +kernel)

end Results

end Anoubis.Certs

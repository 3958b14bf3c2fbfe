import Anoubis.Daemon.SfsCalls

/-! Whose files a request touches.

    A request of the user `a` reaches the files of its own paths, and there only those named after `a` or after
    a key of `a`. What a signature file holds was verified, with the certificate of the key, when it was put
    there:

        write  ROOT/dir/ *file/k01.tmp   data, verified
        rename ROOT/dir/ *file/k01.tmp   to   ROOT/dir/ *file/k01                                    -/

namespace Anoubis.Daemon.Sfs

open Anoubis.Lib List
open Anoubis.Lib.Prog Option
open Anoubis.Apn (joinSlash GoodComp showNat showInt toInt32)
open Anoubis.Connection (Bytes u16 u32)
open Anoubis.Pe (csLen)
open Anoubis.MsgVerify (opAddsum opAddsig opGet2 opGetsig2 opDel opDelsig)
open Anoubis.Daemon.Csmulti (sfsParseCsmulti)

/-! ### What the calls do to files -/

/-- What files hold as far as the calls tell; `none` where they do not. -/
abbrev Contents := Text → Option SfsData

/-- The contents after a call and its answer. -/
def effect (s : Contents) : (c : Call) → Answer c → Contents
  | .openTrunc file, .ok () => Function.update s file none
  | .openExcl file, .ok () => Function.update s file none
  | .write file data, .ok () => Function.update s file (some data)
  | .write file _, .error _ => Function.update s file none
  | .rename old new, .ok () => Function.update (Function.update s new (s old)) old none
  | .unlink file, .ok () => Function.update s file none
  | _, _ => s

/-- A system that may answer anything. -/
def Follows (s : Contents) (c : Call) (r : Answer c) (s' : Contents) : Prop := s' = effect s c r

/-! ### What is permitted -/

/-- The name of a file for the user `a`: the uid, or a key with a certificate of `a`. Root may use all. -/
inductive Belongs (certs : List Cert) (a : UInt32) : Text → Prop where
  | uid (u : UInt32) (own : a ≠ 0 → uidName u = showNat a.toNat) : Belongs certs a (uidName u)
  | key (keyid : Bytes) (cert : Cert) (known : certGetByKeyid certs keyid = some cert)
      (own : a ≠ 0 → cert.uid = a) : Belongs certs a (keyName keyid)

/-- A file in the directory of the path of an operation, with a name that belongs to the user. -/
structure Place (d : Master) (csop : Checksumop) (name file : Text) : Prop where
  dir : ∃ cs, cs ≠ [] ∧ (∀ c ∈ cs, GoodComp c) ∧ csop.path = joinSlash cs ∧
    file = d.root ++ joinSlash (leafDir cs ++ [name])
  belongs : Belongs d.certs csop.authUid name

/-- Data for the file of a key carries a signature that verifies. -/
def Vouched (certs : List Cert) (name : Text) (data : SfsData) : Prop :=
  ∀ keyid, name = keyName keyid → ∃ cert, certGetByKeyid certs keyid = some cert ∧
    data.sigdata.length = csLen + cert.sigSize ∧
    cert.verifies (data.sigdata.take csLen) (data.sigdata.drop csLen) = true

/-- An index file in the directory that is listed. -/
def IndexFile (d : Master) (csop : Checksumop) (file : Text) : Prop :=
  ∃ dir name, convertUserPath d.root csop.path true = .ok dir ∧ file = fileIn dir (indexPrefix ++ name)

/-- A file of the user below the directory that is listed: it is looked into for an upgrade checksum. -/
def Inspected (d : Master) (csop : Checksumop) (file : Text) : Prop :=
  ∃ dir entry name, convertUserPath d.root csop.path true = .ok dir ∧ file = fileIn (fileIn dir entry) name ∧
    Belongs d.certs csop.authUid name

/-- The calls that an operation may make on files. -/
def Permitted (d : Master) (csop : Checksumop) (s : Contents) : Call → Prop
  | .mkdir path => ∃ dir, convertUserPath d.root csop.path false = .ok dir ∧ path <+: dir
  | .openTrunc file => ∃ name f, Place d csop name f ∧ file = tmpName f
  | .write file _ => ∃ name f, Place d csop name f ∧ file = tmpName f
  | .rename old new => ∃ name data, Place d csop name new ∧ old = tmpName new ∧ s old = some data ∧
      Vouched d.certs name data
  | .unlink file => (∃ name, Place d csop name file) ∨ (∃ name f, Place d csop name f ∧ file = tmpName f) ∨
      csop.op = opGenericList ∧ IndexFile d csop file
  | .read file => if csop.op = opGenericList then Inspected d csop file else ∃ name, Place d csop name file
  | _ => False

/-- Calls that touch no contents: directories are read, and removed when they are empty. -/
def harmless : Call → Bool
  | .space | .rmdir _ | .opendir _ | .lstat _ | .invalidate _ _ | .reply _ => true
  | _ => false

/-- The operations of a request. -/
def operations (d : Master) (authUid : UInt32) : Request → List Checksumop
  | .single m => (sfsParseChecksumop d.certs m authUid).toOption.toList
  | .csmulti m => match sfsParseCsmulti (certUid d.certs) m ⟨0, m.length⟩ authUid.toNat with
    | some (.ok req) => req.csmulti.map (recordOp req)
    | _ => []

/-- Every call that requests of the user make is permitted, whatever they are and whatever the system does. -/
def Confined (d : Master) (authUid : UInt32) : Prop :=
  ∀ (reqs : List Request) (s : Contents) (calls : List (Contents × Call)),
    Exec Follows (serve d authUid reqs) s calls →
    ∀ sc ∈ calls, harmless sc.2 = true ∨ ∃ r ∈ reqs, ∃ csop ∈ operations d authUid r, Permitted d csop sc.1 sc.2

/-! ### One operation -/

variable {d : Master} {csop : Checksumop} {s : Contents} {P : Contents → Call → Prop}
variable {u : UInt32} {dir file : Text} {cert : Option Cert} {req : Csmulti.Checksumop}

/-- Below 2^31 the name of a user's file is the uid. -/
theorem uidName_of_lt (h : u.toNat < 2147483648) : uidName u = showNat u.toNat := by
  rw [uidName, toInt32, if_pos (by omega), showInt, if_neg (by omega), Int.toNat_natCast]

theorem place_of_dir {name : Text} (hdir : convertUserPath d.root csop.path false = .ok dir)
    (hname : Belongs d.certs csop.authUid name) : Place d csop name (fileIn dir name) := by
  obtain ⟨cs, hne, hcs, hpath, rfl⟩ := convertUserPath_file hdir
  refine ⟨⟨cs, hne, hcs, hpath, ?_⟩, hname⟩
  simp [fileIn]

theorem keyName_ne_uidName (keyid : Bytes) (u : UInt32) : uidName u ≠ keyName keyid := fun h =>
  Owner.noConfusion (ownerName_injective (show ownerName (.uid u) = ownerName (.key keyid) from h))

/-- The file of an operation belongs to its user, and what is to be written there has been verified. -/
theorem checksumFile_spec (ha : csop.authUid.toNat < 2147483648)
    (h : checksumFile d.certs csop dir = .ok (file, cert)) :
    ∃ name, file = fileIn dir name ∧ Belongs d.certs csop.authUid name ∧
      (csop.op = opAddsum → Vouched d.certs name ⟨csop.sigbuf, [], []⟩) ∧
      (csop.op = opAddsig → Vouched d.certs name ⟨[], csop.sigbuf, []⟩) := by
  rw [checksumFile] at h
  split at h
  · rename_i hop
    split at h
    · cases h
    rename_i hown
    split at h
    · cases h
    cases h
    refine ⟨uidName csop.uid, rfl, .uid csop.uid fun ha0 => ?_, ?_, ?_⟩
    · have heq : csop.uid = csop.authUid := by
        by_contra hne
        exact hown ⟨hne, ha0⟩
      rw [heq, uidName_of_lt ha]
    · exact fun _ keyid hkey => absurd hkey (keyName_ne_uidName keyid csop.uid)
    · exact fun _ keyid hkey => absurd hkey (keyName_ne_uidName keyid csop.uid)
  · rename_i hop
    split at h
    · split at h
      · cases h
      split at h
      · cases h
      rename_i cert' hcert
      split at h
      · cases h
      rename_i hown
      split at h
      · cases h
      rename_i hlen
      split at h
      · cases h
      rename_i hver
      cases h
      refine ⟨keyName csop.keyid, rfl, .key csop.keyid cert' hcert fun ha0 => ?_, fun hadd => ?_, fun hadd => ?_⟩
      · by_contra hne
        exact hown ⟨hne, ha0⟩
      · exact absurd (.inl hadd) hop
      · intro keyid hkey
        have hid : csop.keyid = keyid := hexString_injective (List.cons.inj hkey).2
        subst hid
        refine ⟨cert', hcert, ?_, ?_⟩
        · have := not_and.mp hlen hadd
          dsimp only
          omega
        · have := not_and.mp hver hadd
          simpa using this
    · cases h

/-- What `P` has to permit for one operation. -/
structure Permits (d : Master) (csop : Checksumop) (P : Contents → Call → Prop) : Prop where
  harmless : ∀ s c, harmless c = true → P s c
  permitted : ∀ s c, Permitted d csop s c → P s c

theorem safe_checksumWork (hP : Permits d csop P) (hop : csop.op ≠ opGenericList)
    (ha : csop.authUid.toNat < 2147483648) (hdir : convertUserPath d.root csop.path false = .ok dir)
    (hfile : checksumFile d.certs csop dir = .ok (file, cert)) :
    (checksumWork d.root csop dir file cert).Safe Follows P (fun _ _ => True) s := by
  obtain ⟨name, rfl, hname, hsum, hsig⟩ := checksumFile_spec ha hfile
  have hplace := place_of_dir hdir hname
  have hwrites : ∀ data : SfsData, data.upgradecsdata = [] → Vouched d.certs name data → ∀ s,
      (sfsWritesfsdata d.root (fileIn dir name) dir data).Safe Follows P (fun _ _ => True) s := by
    intro data hup hvouch s
    refine safe_writesfsdata hup (fun s => hP.harmless s _ rfl)
      (fun s i => hP.permitted s _ ⟨dir, hdir, take_prefix i dir⟩)
      (fun s => hP.permitted s _ ⟨name, _, hplace, rfl⟩) (fun s => hP.permitted s _ ⟨name, _, hplace, rfl⟩)
      (fun s s' hstep => hP.permitted s _ ⟨name, data, hplace, rfl, ?_, hvouch⟩)
      fun s => hP.permitted s _ (.inr (.inl ⟨name, _, hplace, rfl⟩))
    rw [hstep]
    exact Function.update_self _ _ _
  rw [checksumWork]
  split
  · rename_i hadd
    exact (hwrites _ rfl (hsum hadd) s).bind fun _ _ _ => trivial
  split
  · rename_i hadd
    exact (hwrites _ rfl (hsig hadd) s).bind fun _ _ _ => trivial
  split
  · refine ⟨hP.permitted s _ ?_, fun _ _ _ => trivial⟩
    exact (if_neg hop).mpr ⟨name, hplace⟩
  · have hdel : (sfsDeletechecksum d.root (fileIn dir name)).Safe Follows P (fun _ _ => True) s :=
      safe_deletechecksum (fun s => hP.permitted s _ (.inl ⟨name, hplace⟩))
        fun s i => ⟨hP.harmless s _ rfl, hP.harmless s _ rfl⟩
    exact hdel.bind fun _ _ _ => trivial

theorem safe_checksumopAt (hP : Permits d csop P) {data isChroot : Bool} (hop : csop.op ≠ opGenericList)
    (ha : csop.authUid.toNat < 2147483648) :
    (sfsChecksumopAt d.root d.certs csop data isChroot).Safe Follows P (fun _ _ => True) s := by
  rw [sfsChecksumopAt]
  split
  · trivial
  split
  · trivial
  split
  · trivial
  split
  · trivial
  rename_i dir hdir
  split
  · trivial
  rename_i file cert hfile
  exact safe_checksumWork hP hop ha hdir hfile

theorem safe_checksumop (hP : Permits d csop P) (hop : csop.op ≠ opGenericList)
    (ha : csop.authUid.toNat < 2147483648) : (sfsChecksumop d csop).Safe Follows P (fun _ _ => True) s := by
  rw [sfsChecksumop]
  split
  · refine (safe_checksumopAt hP hop ha).bind fun r _ _ => ?_
    cases r <;> trivial
  · exact (safe_checksumopAt hP hop ha).bind fun _ _ _ => trivial

theorem safe_invalidate (hP : Permits d csop P) :
    (sendSfscacheInvalidate csop).Safe Follows P (fun _ _ => True) s := by
  rw [sendSfscacheInvalidate]
  split
  · exact ⟨hP.harmless s _ rfl, fun _ _ _ => trivial⟩
  split
  · exact ⟨hP.harmless s _ rfl, fun _ _ _ => trivial⟩
  · trivial


/-! ### Validation -/

variable {certs : List Cert} {m : Bytes} {authUid : UInt32}

theorem requestFields_authUid {base siglen : ℕ} (h : requestFields m authUid base siglen = .ok csop) :
    csop.authUid = authUid := by
  rw [requestFields] at h
  split at h
  · cases h
  · rw [← Except.ok.inj h]

theorem sfsParseChecksumop_ok (h : sfsParseChecksumop certs m authUid = .ok csop) :
    csop.authUid = authUid ∧ sfsValidateChecksumop certs csop = .ok () := by
  rw [sfsParseChecksumop] at h
  split at h
  · cases h
  dsimp only at h
  split at h
  · cases h
  rename_i csop' hfields
  split at h
  · cases h
  rename_i hvalid
  cases h
  refine ⟨?_, hvalid⟩
  split at hfields
  · split at hfields
    · cases hfields
    split at hfields
    · cases hfields
    split at hfields
    · cases hfields
    exact requestFields_authUid hfields
  split at hfields
  · cases hfields
  split at hfields
  · cases hfields
  exact requestFields_authUid hfields

theorem validateCert_ok (h : validateCert certs csop = .ok cert) : (csop.authUid ≠ 0 → csop.uid = csop.authUid) ∧
    (csop.keyid ≠ [] → ∃ cert, certGetByKeyid certs csop.keyid = some cert ∧
      (csop.authUid ≠ 0 → cert.uid = csop.authUid)) := by
  rw [validateCert] at h
  split at h
  · cases h
  rename_i hown
  refine ⟨fun ha => by_contra fun hne => hown ⟨hne, ha⟩, fun hkey => ?_⟩
  rw [if_neg hkey] at h
  split at h
  · cases h
  rename_i cert' hcert
  split at h
  · cases h
  rename_i hcuid
  exact ⟨cert', hcert, fun ha => by_contra fun hne => hcuid ⟨hne, ha⟩⟩

/-- A list of the files of a key names one. -/
theorem validateList_key (h : validateList csop = .ok ()) (hids : has csop.listflags csumWantids = false)
    (hall : has csop.listflags csumAll = false) (hkey : has csop.listflags csumKey = true) : csop.keyid ≠ [] := by
  rw [validateList] at h
  split at h
  · cases h
  split at h
  · cases h
  split at h
  · split at h
    · cases h
    split at h
    · cases h
    assumption
  rw [hids, hall, hkey] at h
  simp only [Bool.false_eq_true, if_false] at h
  split at h
  · cases h
  · assumption

theorem validate_list (h : sfsValidateChecksumop certs csop = .ok ()) (hop : csop.op = opGenericList) :
    validateList csop = .ok () := by
  rw [sfsValidateChecksumop] at h
  split at h
  · cases h
  rw [hop, if_neg (by decide), if_neg (by decide), if_pos rfl] at h
  exact h

/-- The files that a list looks into belong to its user. -/
theorem wanted_belongs (ha : csop.authUid.toNat < 2147483648) (h : sfsValidateChecksumop certs csop = .ok ())
    (hop : csop.op = opGenericList) (hids : has csop.listflags csumWantids = false)
    (hall : has csop.listflags csumAll = false) : Belongs certs csop.authUid (uidName csop.uid) ∧
      (has csop.listflags csumKey = true → Belongs certs csop.authUid (keyName csop.keyid)) := by
  have hlist := validate_list h hop
  rw [sfsValidateChecksumop] at h
  split at h
  · cases h
  rename_i cert hcert
  obtain ⟨hown, hkeys⟩ := validateCert_ok hcert
  refine ⟨.uid csop.uid fun ha0 => ?_, fun hkey => ?_⟩
  · rw [hown ha0, uidName_of_lt ha]
  · obtain ⟨cert, hknown, hcuid⟩ := hkeys (validateList_key hlist hids hall hkey)
    exact .key csop.keyid cert hknown hcuid

/-! ### Requests -/

/-- A csmulti request is no list, it is its sender's, and it has the records of the message. -/
theorem sfsParseCsmulti_ok {owner : Bytes → Option ℕ} {mbuf : Csmulti.Abuf} {uid : ℕ}
    (h : sfsParseCsmulti owner m mbuf uid = some (.ok req)) : req.authUid = uid ∧ Csmulti.known req.op = true ∧
      ∃ n off, Csmulti.fillRecords m req.op mbuf n off = some (.ok req.csmulti) := by
  simp only [sfsParseCsmulti, bind_eq_bind, bind_eq_some_iff] at h
  obtain ⟨_, -, type, -, h⟩ := h
  split at h
  · cases h
  simp only [bind_eq_some_iff] at h
  obtain ⟨op, -, h⟩ := h
  split at h
  · cases h
  rename_i hknown
  simp only [bind_eq_some_iff] at h
  obtain ⟨ruid, -, idlen, -, h⟩ := h
  split at h
  · cases h
  simp only [bind_eq_some_iff] at h
  obtain ⟨keyid, -, h⟩ := h
  split at h
  · cases h
  split at h
  · cases h
  simp only [bind_eq_some_iff] at h
  obtain ⟨nrec, -, h⟩ := h
  split at h
  · cases h
  simp only [bind_eq_some_iff] at h
  obtain ⟨recs, hrecs, h⟩ := h
  cases recs with
  | error e => cases h
  | ok recs =>
    cases h
    exact ⟨rfl, by simpa using hknown, _, _, hrecs⟩

theorem safe_checksumopList (hP : Permits d csop P) (ha : csop.authUid.toNat < 2147483648)
    (hvalid : sfsValidateChecksumop d.certs csop = .ok ()) (hop : csop.op = opGenericList) :
    (sfsChecksumopList d csop).Safe Follows P (fun _ _ => True) s := by
  have hsingle : ∀ s r, (Prog.call (A := Answer) (.reply r) fun _ => (Prog.ret () : Work Unit)).Safe Follows P
      (fun _ _ => True) s := fun s r => ⟨hP.harmless s _ rfl, fun _ _ _ => trivial⟩
  rw [sfsChecksumopList]
  dsimp only
  split
  · exact hsingle s _
  split
  · exact hsingle s _
  rename_i sfsPath hdir
  refine ⟨hP.harmless s _ rfl, fun r s _ => ?_⟩
  cases r with
  | error e => exact hsingle s _
  | ok entries =>
    have hread : ∀ s f, Inspected d csop f → P s (.read f) := fun s f hf => hP.permitted s _ ((if_pos hop).mpr hf)
    have hwant : ∀ s entry, (sfsWantentry csop sfsPath entry).Safe Follows P (fun _ _ => True) s := by
      intro s entry
      refine safe_wantentry (fun s f => hP.harmless s _ rfl) fun hids hall => ?_
      rw [hids] at hdir
      obtain ⟨huid, hkey⟩ := wanted_belongs ha hvalid hop hids hall
      exact ⟨fun _ s => hread s _ ⟨sfsPath, entry, _, hdir, rfl, huid⟩,
        fun hflag s => hread s _ ⟨sfsPath, entry, _, hdir, rfl, hkey hflag⟩⟩
    refine (safe_listEntries (fun s r => hP.harmless s _ rfl) hwant entries true [] false).bind fun r s _ => ?_
    cases r with
    | error u => exact hsingle s _
    | ok r =>
      obtain ⟨start, names, found⟩ := r
      refine ⟨hP.harmless s _ rfl, fun _ s _ => ?_⟩
      dsimp only
      split
      · trivial
      · refine safe_removeIndex (fun s p => ⟨hP.harmless s _ rfl, hP.harmless s _ rfl⟩) fun hids s name => ?_
        rw [hids] at hdir
        exact hP.permitted s _ (.inr (.inr ⟨hop, sfsPath, name, hdir, rfl⟩))

theorem safe_dispatchChecksumop (ha : authUid.toNat < 2147483648) (hharm : ∀ s c, harmless c = true → P s c)
    (hperm : ∀ csop ∈ operations d authUid (.single m), ∀ s c, Permitted d csop s c → P s c) :
    (dispatchChecksumop d m authUid).Safe Follows P (fun _ _ => True) s := by
  have hreply : ∀ s r, (Prog.call (A := Answer) (.reply r) fun _ => (Prog.ret () : Work Unit)).Safe Follows P
      (fun _ _ => True) s := fun s r => ⟨hharm s _ rfl, fun _ _ _ => trivial⟩
  rw [dispatchChecksumop]
  rw [operations] at hperm
  cases hparse : sfsParseChecksumop d.certs m authUid with
  | error e => exact hreply s _
  | ok csop =>
    rw [hparse] at hperm
    obtain ⟨rfl, hvalid⟩ := sfsParseChecksumop_ok hparse
    have hP : Permits d csop P := ⟨hharm, hperm csop (by simp [Except.toOption])⟩
    dsimp only
    split
    · rename_i hop
      exact safe_checksumopList hP ha hvalid hop
    · rename_i hop
      refine (safe_checksumop hP hop ha).bind fun r s _ => ?_
      cases r with
      | error e => exact hreply s _
      | ok data => exact (safe_invalidate hP).bind fun _ s _ => hreply s _

theorem safe_processRecords (ha : (UInt32.ofNat req.authUid).toNat < 2147483648) (hop : req.op ≠ opGenericList)
    (hharm : ∀ s c, harmless c = true → P s c) (recs : List Csmulti.CsmultiRecord)
    (hperm : ∀ r ∈ recs, ∀ s c, Permitted d (recordOp req r) s c → P s c) (totallen : ℕ) :
    (processRecords d req recs totallen).Safe Follows P (fun _ _ => True) s := by
  induction recs generalizing s totallen with
  | nil =>
    rw [processRecords]
    trivial
  | cons r recs ih =>
    have hP : Permits d (recordOp req r) P := ⟨hharm, hperm r mem_cons_self⟩
    rw [processRecords]
    refine (safe_checksumop hP hop ha).bind fun res s _ => ?_
    have hinv : (invalidateAfter (recordOp req r) res).Safe Follows P (fun _ _ => True) s := by
      rw [invalidateAfter]
      split
      · exact safe_invalidate hP
      · trivial
    refine hinv.bind fun _ s _ => ?_
    dsimp only
    split
    · trivial
    · exact (ih (fun r hr => hperm r (mem_cons_of_mem _ hr)) _).bind fun _ _ _ => trivial

section

variable (ha : authUid.toNat < 2147483648)
include ha

theorem safe_dispatchCsmultiRequest (hharm : ∀ s c, harmless c = true → P s c)
    (hperm : ∀ csop ∈ operations d authUid (.csmulti m), ∀ s c, Permitted d csop s c → P s c) :
    (dispatchCsmultiRequest d m authUid).Safe Follows P (fun _ _ => True) s := by
  rw [dispatchCsmultiRequest]
  rw [operations] at hperm
  cases hparse : sfsParseCsmulti (certUid d.certs) m ⟨0, m.length⟩ authUid.toNat with
  | none => trivial
  | some r =>
    cases r with
    | error e => exact ⟨hharm s _ rfl, fun _ _ _ => trivial⟩
    | ok req =>
      rw [hparse] at hperm
      dsimp only at hperm ⊢
      obtain ⟨hauth, hknown, -⟩ := sfsParseCsmulti_ok hparse
      have hop : req.op ≠ opGenericList := by
        intro hop
        rw [hop] at hknown
        exact absurd hknown (by decide)
      rw [sfsProcessCsmulti]
      refine (safe_processRecords ?_ hop hharm _ (fun r hr => hperm _ (mem_map_of_mem (mem_of_mem_take hr)))
        12).bind fun _ s _ => ⟨hharm s _ rfl, fun _ _ _ => trivial⟩
      rw [hauth, UInt32.ofNat_toNat]
      exact ha

theorem safe_dispatch (r : Request) (hharm : ∀ s c, harmless c = true → P s c)
    (hperm : ∀ csop ∈ operations d authUid r, ∀ s c, Permitted d csop s c → P s c) :
    (dispatch d authUid r).Safe Follows P (fun _ _ => True) s := by
  cases r with
  | single m => exact safe_dispatchChecksumop ha hharm hperm
  | csmulti m => exact safe_dispatchCsmultiRequest ha hharm hperm

theorem safe_serve (hharm : ∀ s c, harmless c = true → P s c) (reqs : List Request)
    (hperm : ∀ r ∈ reqs, ∀ csop ∈ operations d authUid r, ∀ s c, Permitted d csop s c → P s c) :
    (serve d authUid reqs).Safe Follows P (fun _ _ => True) s := by
  induction reqs generalizing s with
  | nil => trivial
  | cons r reqs ih =>
    rw [serve]
    exact (safe_dispatch ha r hharm (hperm r mem_cons_self)).bind fun _ s _ =>
      ih fun r hr => hperm r (mem_cons_of_mem _ hr)

theorem confined_of_lt : Confined d authUid := by
  intro reqs s calls hexec
  refine Safe.exec (P := fun s c => harmless c = true ∨
    ∃ r ∈ reqs, ∃ csop ∈ operations d authUid r, Permitted d csop s c) (Q := fun _ _ => True) ?_ hexec
  exact safe_serve ha (fun s c hc => .inl hc) reqs fun r hr csop hcsop s c hc => .inr ⟨r, hr, csop, hcsop, hc⟩

end

/-! ### Large uids -/

/-- A request for the unsigned checksum of `/x`, without any flags. -/
def getRequest : Bytes :=
  be32 0x3100 ++ be32 opGet2 ++ be32 0 ++ be32 0 ++ [0, 0] ++ [47, 120, 0] ++ [0, 0, 0, 0]

theorem getRequest_parsed (certs : List Cert) (a : UInt32) :
    sfsParseChecksumop certs getRequest a = .ok ⟨opGet2, 0, a, a, [], [], "/x".toList⟩ := by
  have hfields : requestFields getRequest a 18 0 = .ok ⟨opGet2, 0, a, a, [], [], "/x".toList⟩ := by
    rfl
  have hvalid : sfsValidateChecksumop certs ⟨opGet2, 0, a, a, [], [], "/x".toList⟩ = .ok () := by
    rw [sfsValidateChecksumop, validateCert, if_neg (by simp), if_pos rfl]
    rfl
  rw [sfsParseChecksumop, if_neg (by decide)]
  dsimp only
  rw [if_neg (by decide), if_neg (by decide), if_neg (by decide), hfields]
  dsimp only
  rw [hvalid]

/-- From 2^31 on, `%d` prints a minus sign. -/
theorem uidName_of_ge (h : 2147483648 ≤ u.toNat) : ∃ t, uidName u = '-' :: t := by
  have hlt := u.toNat_lt
  rw [uidName, toInt32, if_neg (by omega), showInt, if_pos (by omega)]
  exact ⟨_, rfl⟩

/-- Such a user's request reads a file that is not named after the uid. -/
theorem not_confined_of_ge {a : UInt32} (h : 2147483648 ≤ a.toNat) : ¬ Confined d a := by
  intro hconf
  have ha0 : a ≠ 0 := by
    rintro rfl
    exact absurd h (by decide)
  have hdir : convertUserPath d.root "/x".toList false = .ok (d.root ++ joinSlash ["*x".toList]) := by
    rfl
  let file := fileIn (d.root ++ joinSlash ["*x".toList]) (uidName a)
  let csop : Checksumop := ⟨opGet2, 0, a, a, [], [], "/x".toList⟩
  have hfile : checksumFile d.certs csop (d.root ++ joinSlash ["*x".toList]) = .ok (file, none) := by
    rw [checksumFile, if_pos (by simp [csop]), if_neg (by simp [csop]), if_neg (by simp [csop, opGet2, opAddsum])]
  have hget : isGet opGet2 = true := rfl
  have hlist : csop.op ≠ opGenericList := show opGet2 ≠ opGenericList by decide
  have hadd : opGet2 ≠ opAddsum ∧ opGet2 ≠ opAddsig := by decide
  obtain ⟨k, hcalls⟩ : ∃ k, serve d a [.single getRequest] = .call (.read file) k := by
    rw [serve, dispatch, dispatchChecksumop, getRequest_parsed]
    dsimp only
    rw [if_neg hlist, sfsChecksumop, if_pos hget, sfsChecksumopAt, if_neg (by simp), if_neg (by simp [hget]),
      if_neg (by simp [hget])]
    dsimp only
    rw [hdir]
    dsimp only
    rw [hfile]
    dsimp only
    rw [checksumWork, if_neg hadd.1, if_neg hadd.2, if_pos hget]
    exact ⟨_, rfl⟩
  have hexec : Exec Follows (serve d a [.single getRequest]) (fun _ => none) [(fun _ => none, .read file)] := by
    rw [hcalls]
    exact Exec.made _ _ _
  rcases hconf _ _ _ hexec _ mem_cons_self with hharm | ⟨r, hr, op, hop, hperm⟩
  · cases hharm
  rw [mem_singleton.mp hr, operations, getRequest_parsed] at hop
  obtain rfl : op = csop := mem_singleton.mp hop
  have hread : if csop.op = opGenericList then Inspected d csop file else ∃ name, Place d csop name file := hperm
  rw [if_neg hlist] at hread
  obtain ⟨name, ⟨cs, hne, hcs, -, hpath⟩, hname⟩ := hread
  obtain ⟨t, ht⟩ := uidName_of_ge h
  -- the last components agree
  have hjoin : joinSlash ["*x".toList, uidName a] = joinSlash (leafDir cs ++ [name]) := by
    have hroot : d.root ++ joinSlash ["*x".toList, uidName a] = d.root ++ joinSlash (leafDir cs ++ [name]) := by
      rw [← hpath]
      simp [file, fileIn]
    exact append_cancel_left hroot
  have hslash : ∀ name, Belongs d.certs a name → '/' ∉ name := by
    intro name hname
    cases hname with
    | uid u own => exact ownerName_noSlash (.uid u)
    | key keyid cert known own => exact ownerName_noSlash (.key keyid)
  have hleft : ∀ c ∈ ["*x".toList, uidName a], '/' ∉ c := by
    intro c hc
    rcases mem_cons.mp hc with rfl | hc
    · decide
    · rw [mem_singleton.mp hc]
      exact ownerName_noSlash (.uid a)
  have hright : ∀ c ∈ leafDir cs ++ [name], '/' ∉ c := by
    intro c hc
    rcases mem_append.mp hc with hc | hc
    · exact leafDir_noSlash hcs hne c hc
    · rw [mem_singleton.mp hc]
      exact hslash name hname
  have hlast : uidName a = name := by
    have := congrArg List.getLast? (joinSlash_injective hleft hright hjoin)
    simpa using this
  rw [← hlast] at hname
  generalize huid : uidName a = n at hname
  cases hname with
  | uid u own =>
    have hdigit := isDigit_of_mem_showNat (n := a.toNat) (c := '-') (by
      rw [← own ha0, ← huid, ht]
      exact mem_cons_self)
    exact absurd hdigit (by decide)
  | key keyid cert known own => exact keyName_ne_uidName keyid a huid

/-- The requests of a user are confined exactly when the uid is below 2^31. -/
theorem confined_iff (d : Master) (authUid : UInt32) : Confined d authUid ↔ authUid.toNat < 2147483648 := by
  refine ⟨fun h => ?_, confined_of_lt⟩
  by_contra hge
  exact not_confined_of_ge (Nat.not_lt.mp hge) h

/-- The user 2^32 - 2. -/
theorem not_confined_large : ¬ Confined ⟨"/etc/anoubis/sfs".toList, [], '?'⟩ 4294967294 :=
  not_confined_of_ge (by decide)

end Anoubis.Daemon.Sfs

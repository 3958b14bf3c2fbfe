import Anoubis.Pe.SfsCache

/-! The cache and the disk.

    Files of the tree change at any time. A change is followed by an invalidation before the next lookup, so a
    lookup finds in the cache what it would read: every entry whose file has not changed since agrees with it.

        change file --> pending: file --> invalidate path who --> lookup -/

namespace Anoubis.Pe.SfsCache

open List

open Anoubis.Lib Option
open Anoubis.Connection (Bytes)
open Anoubis.Pe (csLen)
open Anoubis.Daemon.Sfs (Cert SfsData Checksumop Owner ownerName fileIn uidName keyName hexDigit hexString
  convertUserPath checkData certGetByKeyid file_injective)

/-! ### Keys as digits and as bytes -/

theorem toLower_of_ge {c : Char} (h : 128 ≤ c.toNat) : c.toLower = c := by
  have hupper : ¬ (c.val ≥ 'A'.val ∧ c.val ≤ 'Z'.val) := ?_
  · exact dif_neg hupper
  intro hc
  have := hc.2
  rw [UInt32.le_iff_toNat_le] at this
  change c.val.toNat ≥ 128 at h
  have h90 : 'Z'.val.toNat = 90 := rfl
  omega

/-- A fact about all characters that holds for those which `tolower` does not know. -/
theorem forall_char {p : Char → Prop} (hlow : ∀ n < 128, p (Char.ofNat n)) (hhigh : ∀ c : Char, 128 ≤ c.toNat → p c)
    (c : Char) : p c := by
  rcases lt_or_ge c.toNat 128 with h | h
  · have := hlow c.toNat h
    rwa [Char.ofNat_toNat] at this
  · exact hhigh c h

theorem toLower_toLower (c : Char) : c.toLower.toLower = c.toLower := by
  refine forall_char (p := fun c => c.toLower.toLower = c.toLower) (by decide +kernel) ?_ c
  intro c h
  rw [toLower_of_ge h, toLower_of_ge h]

theorem chartohex_toLower (c : Char) : chartohex c.toLower = chartohex c := by
  refine forall_char (p := fun c => chartohex c.toLower = chartohex c) (by decide +kernel) ?_ c
  intro c h
  rw [toLower_of_ge h]

theorem chartohex_of_ge {c : Char} (h : 128 ≤ c.toNat) : chartohex c = none := by
  have hle : ∀ d : Char, d.toNat < 128 → ¬ c ≤ d := by
    intro d hd hcd
    have : c.toNat ≤ d.toNat := hcd
    omega
  rw [chartohex, if_neg (fun h => hle _ (by decide) h.2), if_neg (fun h => hle _ (by decide) h.2),
    if_neg (fun h => hle _ (by decide) h.2)]

/-- A digit in lower case is the one that `abuf_convert_tohexstr` writes. -/
theorem chartohex_spec (c : Char) : ∀ n ∈ chartohex c, n < 16 ∧ hexDigit n = c.toLower := by
  refine forall_char (p := fun c => ∀ n ∈ chartohex c, n < 16 ∧ hexDigit n = c.toLower) (by decide +kernel) ?_ c
  intro c h n hn
  rw [chartohex_of_ge h] at hn
  cases hn

theorem keyBytes_lower (key : Text) : keyBytes (key.map Char.toLower) = keyBytes key := by
  induction key using keyBytes.induct with
  | case1 => rfl
  | case2 => rfl
  | case3 c1 c2 key ih => simp only [map_cons, keyBytes, chartohex_toLower, ih]

/-- The bytes of a key stand for its digits, without case. -/
theorem hexString_keyBytes {key : Text} {keyid : Bytes} (h : keyBytes key = some keyid) :
    hexString keyid = key.map Char.toLower := by
  induction key using keyBytes.induct generalizing keyid with
  | case1 =>
    cases h
    rfl
  | case2 => cases h
  | case3 c1 c2 key ih =>
    simp only [keyBytes, bind_eq_bind, bind_eq_some_iff, Option.some.injEq] at h
    obtain ⟨n1, h1, n2, h2, rest, hrest, rfl⟩ := h
    obtain ⟨hn1, hd1⟩ := chartohex_spec c1 n1 h1
    obtain ⟨hn2, hd2⟩ := chartohex_spec c2 n2 h2
    have hbyte : (UInt8.ofNat (16 * n1 + n2)).toNat = 16 * n1 + n2 := by
      rw [UInt8.toNat_ofNat']
      omega
    rw [Daemon.Sfs.hexString_cons, hbyte, ih hrest, show (16 * n1 + n2) / 16 = n1 by omega,
      show (16 * n1 + n2) % 16 = n2 by omega, hd1, hd2]
    rfl

/-! ### The same user or key -/

/-- A key in lower case. -/
def Who.lower : Who → Who
  | .uid u => .uid u
  | .key k => .key (k.map Char.toLower)

theorem sameWho_iff {v w : Who} : sameWho v w = true ↔ v.lower = w.lower := by
  cases v <;> cases w <;> simp [sameWho, sameText, Who.lower]

theorem hashStep_lower (ret : UInt64) (c : Char) : hashStep ret c.toLower = hashStep ret c := by
  rw [hashStep, hashStep, toLower_toLower]

theorem slotOf_lower (path : Text) (w : Who) : slotOf path w.lower = slotOf path w := by
  cases w with
  | uid u => rfl
  | key k =>
    rw [Who.lower, slotOf, slotOf, sfshashFn, sfshashFn, foldl_map]
    simp only [hashStep_lower]

/-- Entries for the same user or key stand in the same slot. -/
theorem slotOf_congr {v w : Who} (path : Text) (h : v.lower = w.lower) : slotOf path v = slotOf path w := by
  rw [← slotOf_lower path v, h, slotOf_lower]

/-! ### Reading -/

theorem length_keyBytes {key : Text} {keyid : Bytes} (h : keyBytes key = some keyid) :
    key.length = 2 * keyid.length := by
  have hhex := congrArg List.length (hexString_keyBytes h)
  rw [length_map, hexString, length_flatMap] at hhex
  simpa [mul_comm] using hhex.symm

section Reading

variable (root : Text) (certs : List Cert)

/-- The checksum in the file of an owner. -/
def inFile (disk : Disk) (path : Text) (o : Owner) (cert : Option Cert) (pick : SfsData → Bytes) : Except ℤ Bytes :=
  match convertUserPath root path false with
  | .error e => .error e
  | .ok d => match disk (fileIn d (ownerName o)) with
    | .error e => .error e
    | .ok data => match checkData cert data with
      | .error e => .error e
      | .ok data => frontSum (pick data)

theorem readsum_uid (disk : Disk) (path : Text) (u : UInt32) :
    readsum root certs disk path (.uid u) = inFile root disk path (.uid u) none SfsData.csdata := by
  rw [readsum, sfshashReadsum, inFile, Daemon.Sfs.sfsChecksumopChroot, Daemon.Sfs.sfsChecksumopAt]
  rw [if_neg (by simp), if_neg (by simp [Daemon.Sfs.isGet]), if_neg (by simp [Daemon.Sfs.isGet])]
  dsimp only
  cases convertUserPath root path false with
  | error e => rfl
  | ok d =>
    have hfile : Daemon.Sfs.checksumFile certs ⟨MsgVerify.opGet2, 0, u, 0, [], [], path⟩ d =
        .ok (fileIn d (uidName u), none) := by
      rw [Daemon.Sfs.checksumFile, if_pos (by simp), if_neg (by simp), if_neg (by simp [MsgVerify.opGet2,
        MsgVerify.opAddsum])]
    dsimp only
    rw [hfile]
    dsimp only
    rw [Daemon.Sfs.checksumWork, if_neg (by simp [MsgVerify.opGet2, MsgVerify.opAddsum]),
      if_neg (by simp [MsgVerify.opGet2, MsgVerify.opAddsig]), if_pos (by simp [Daemon.Sfs.isGet])]
    simp only [Prog.call_bind, Prog.ret_bind, Prog.run_call, Prog.run_ret, diskHandle, ownerName]
    cases disk (fileIn d (uidName u)) with
    | error e => rfl
    | ok data => rfl

theorem readsum_key (disk : Disk) (path : Text) {key : Text} {keyid : Bytes} (hkey : keyBytes key = some keyid)
    (hne : key ≠ []) : readsum root certs disk path (.key key) =
      match certGetByKeyid certs keyid with
      | none => match convertUserPath root path false with
        | .error e => .error e
        | .ok _ => .error Daemon.Csmulti.epermNoCertificate
      | some cert => inFile root disk path (.key keyid) (some cert) SfsData.sigdata := by
  have hlen := length_keyBytes hkey
  have hid : keyid ≠ [] := by
    rintro rfl
    exact hne (eq_nil_of_length_eq_zero (by simpa using hlen))
  rw [readsum, sfshashReadsum, if_neg (by omega), if_neg hne, hkey]
  dsimp only
  rw [Daemon.Sfs.sfsChecksumopChroot, Daemon.Sfs.sfsChecksumopAt]
  rw [if_neg (by simp), if_neg (by simp [Daemon.Sfs.isGet]), if_neg (by simp [Daemon.Sfs.isGet])]
  dsimp only
  simp only [inFile]
  cases convertUserPath root path false with
  | error e =>
    cases certGetByKeyid certs keyid <;> rfl
  | ok d =>
    dsimp only
    rw [Daemon.Sfs.checksumFile, if_neg (by simp [MsgVerify.opGetsig2, MsgVerify.opAddsum, MsgVerify.opGet2,
      MsgVerify.opDel]), if_pos (by simp), if_neg hid]
    cases certGetByKeyid certs keyid with
    | none => rfl
    | some cert =>
      dsimp only
      rw [if_neg (by simp), if_neg (by simp [MsgVerify.opGetsig2, MsgVerify.opAddsig]),
        if_neg (by simp [MsgVerify.opGetsig2, MsgVerify.opAddsig])]
      dsimp only
      rw [Daemon.Sfs.checksumWork, if_neg (by simp [MsgVerify.opGetsig2, MsgVerify.opAddsum]),
        if_neg (by simp [MsgVerify.opGetsig2, MsgVerify.opAddsig]), if_pos (by simp [Daemon.Sfs.isGet])]
      simp only [Prog.call_bind, Prog.ret_bind, Prog.run_call, Prog.run_ret, diskHandle, ownerName]
      cases disk (fileIn d (keyName keyid)) with
      | error e => rfl
      | ok data => rfl

end Reading

/-! ### Files -/

section Files

variable (root : Text)

/-- The owner of the file that a lookup reads. -/
def Who.owner : Who → Option Owner
  | .uid u => some (.uid u)
  | .key k => (keyBytes k).map .key

/-- The file that a lookup reads, if it gets that far. -/
def fileOf (path : Text) (w : Who) : Option Text :=
  match convertUserPath root path false, w.owner with
  | .ok d, some o => some (fileIn d (ownerName o))
  | _, _ => none

variable {root} {certs : List Cert} {path path' f : Text} {v w : Who} {disk disk' : Disk}

theorem lower_of_owner {o : Owner} (hv : v.owner = some o) (hw : w.owner = some o) : v.lower = w.lower := by
  cases v with
  | uid u =>
    cases w with
    | uid u' =>
      rw [Who.owner, Option.some.injEq] at hv hw
      rw [← hw] at hv
      rw [(Owner.uid.injEq _ _).mp hv]
    | key k =>
      simp only [Who.owner, map_eq_some_iff, Option.some.injEq] at hv hw
      obtain ⟨b, -, rfl⟩ := hw
      cases hv
  | key k =>
    simp only [Who.owner, map_eq_some_iff] at hv
    obtain ⟨b, hb, rfl⟩ := hv
    cases w with
    | uid u' =>
      rw [Who.owner, Option.some.injEq] at hw
      cases hw
    | key k' =>
      simp only [Who.owner, map_eq_some_iff, Owner.key.injEq, exists_eq_right] at hw
      rw [Who.lower, Who.lower, ← hexString_keyBytes hb, ← hexString_keyBytes hw]

/-- A file belongs to one path and one user or key. -/
theorem fileOf_injective (h : fileOf root path v = some f) (h' : fileOf root path' w = some f) :
    path = path' ∧ v.lower = w.lower := by
  unfold fileOf at h h'
  split at h <;> [skip; cases h]
  split at h' <;> [skip; cases h']
  rename_i hd ho _ _ _ _ hd' ho'
  obtain ⟨rfl, rfl⟩ := file_injective hd hd' ((some.inj h).trans (some.inj h').symm)
  exact ⟨rfl, lower_of_owner ho ho'⟩

/-- The case of a key makes no difference. -/
theorem readsum_lower (disk : Disk) (path : Text) (w : Who) :
    readsum root certs disk path w.lower = readsum root certs disk path w := by
  cases w with
  | uid u => rfl
  | key k =>
    rw [Who.lower, readsum, readsum, sfshashReadsum, sfshashReadsum]
    simp only [length_map, map_eq_nil_iff, keyBytes_lower]

theorem readsum_of_lower (h : v.lower = w.lower) (disk : Disk) (path : Text) :
    readsum root certs disk path v = readsum root certs disk path w := by
  rw [← readsum_lower disk path v, h, readsum_lower]

theorem inFile_congr {o : Owner} {cert : Option Cert} {pick : SfsData → Bytes} (hw : w.owner = some o)
    (h : ∀ f, fileOf root path w = some f → disk f = disk' f) :
    inFile root disk path o cert pick = inFile root disk' path o cert pick := by
  unfold fileOf at h
  rw [hw] at h
  unfold inFile
  cases hd : convertUserPath root path false with
  | error e => rfl
  | ok d =>
    rw [hd] at h
    dsimp only
    rw [h _ rfl]

/-- A lookup depends on no other file. -/
theorem readsum_congr (h : ∀ f, fileOf root path w = some f → disk f = disk' f) :
    readsum root certs disk path w = readsum root certs disk' path w := by
  cases w with
  | uid u =>
    rw [readsum_uid, readsum_uid]
    exact inFile_congr rfl h
  | key k =>
    by_cases hk : k = []
    · subst hk
      rfl
    cases hb : keyBytes k with
    | none =>
      rw [readsum, readsum, sfshashReadsum, if_neg hk, hb]
      split <;> rfl
    | some keyid =>
      rw [readsum_key root certs disk path hb hk, readsum_key root certs disk' path hb hk]
      cases certGetByKeyid certs keyid with
      | none => rfl
      | some cert => exact inFile_congr (by rw [Who.owner, hb]; rfl) h

theorem frontSum_ne_nil {sigbuf csum : Bytes} (h : frontSum sigbuf = .ok csum) : csum ≠ [] := by
  rw [frontSum] at h
  split at h
  · cases h
  · rename_i hlen
    rw [← Except.ok.inj h]
    intro hnil
    have := congrArg List.length hnil
    rw [length_take, length_nil] at this
    unfold csLen at hlen this
    omega

theorem inFile_ne_nil {o : Owner} {cert : Option Cert} {pick : SfsData → Bytes} {csum : Bytes}
    (h : inFile root disk path o cert pick = .ok csum) : csum ≠ [] := by
  unfold inFile at h
  split at h <;> [cases h; skip]
  split at h <;> [cases h; skip]
  split at h <;> [cases h; skip]
  exact frontSum_ne_nil h

/-- A checksum that has been read is not empty. -/
theorem readsum_ne_nil {csum : Bytes} (h : readsum root certs disk path w = .ok csum) : csum ≠ [] := by
  cases w with
  | uid u =>
    rw [readsum_uid] at h
    exact inFile_ne_nil h
  | key k =>
    by_cases hk : k = []
    · subst hk
      cases h
    cases hb : keyBytes k with
    | none =>
      rw [readsum, sfshashReadsum, if_neg hk, hb] at h
      split at h <;> cases h
    | some keyid =>
      rw [readsum_key root certs disk path hb hk] at h
      split at h
      · split at h <;> cases h
      · exact inFile_ne_nil h

end Files

/-! ### What the cache holds -/

section Runs

variable (root : Text) (certs : List Cert)

/-- The disk, the cache, and the files that have changed without an invalidation. -/
structure World where
  disk : Disk
  cache : Cache
  pending : List Text

/-- The result that an entry stands for. -/
def Entry.result (e : Entry) : Except ℤ Bytes := if e.negative then .error enoent else .ok e.csum

/-- The entries of a cache: each in its slot, one for each path and user or key, and as on disk unless the file
    has changed. -/
structure Faithful (disk : Disk) (pending : List Text) (entries : List Entry) : Prop where
  slots : ∀ e ∈ entries, e.slot = slotOf e.path e.who
  single : ∀ a ∈ entries, ∀ b ∈ entries, a.path = b.path → a.who.lower = b.who.lower → a = b
  sums : ∀ e ∈ entries, e.negative = false → e.csum ≠ []
  agrees : ∀ e ∈ entries, (∀ f, fileOf root e.path e.who = some f → f ∉ pending) →
    readsum root certs disk e.path e.who = e.result

/-- The invariant of the cache. -/
structure Inv (w : World) : Prop where
  sound : LruTable.Sound Entry.slot w.cache
  limit : w.cache.count ≤ sfshashMax
  faithful : Faithful root certs w.disk w.pending w.cache.order

variable {root certs} {disk : Disk} {pending : List Text} {c : Cache} {path : Text} {who : Who} {w : World}

theorem Faithful.sub {l l' : List Entry} (h : Faithful root certs disk pending l) (hsub : ∀ e ∈ l', e ∈ l) :
    Faithful root certs disk pending l' where
  slots e he := h.slots e (hsub e he)
  single a ha b hb := h.single a (hsub a ha) b (hsub b hb)
  sums e he := h.sums e (hsub e he)
  agrees e he := h.agrees e (hsub e he)

/-- A search that finds something finds the entry for this path and user or key, and changes only the order. -/
theorem find_some (h : Inv root certs ⟨disk, c, pending⟩) {e : Entry} {c' : Cache}
    (hfind : sfshashFind c path who = (some e, c')) :
    e ∈ c.order ∧ e.path = path ∧ e.who.lower = who.lower ∧ e ∈ c'.order ∧ Inv root certs ⟨disk, c', pending⟩ := by
  unfold sfshashFind at hfind
  split at hfind
  · cases hfind
  · rename_i e' hchain
    obtain ⟨rfl, rfl⟩ := Prod.mk.inj hfind |>.imp some.inj id
    obtain ⟨hmem, hslot, hp⟩ := h.sound.found hchain
    simp only [Bool.and_eq_true, decide_eq_true_iff] at hp
    have hperm : (sfshashTouch c e').order.Perm c.order := LruTable.order_touch hmem
    refine ⟨hmem, hp.2.symm, sameWho_iff.mp hp.1, hperm.mem_iff.mpr hmem, h.sound.touch hmem, h.limit, ?_⟩
    exact h.faithful.sub fun e he => hperm.mem_iff.mp he

/-- A search that finds nothing leaves the cache as it is, and there is no such entry. -/
theorem find_none (h : Inv root certs ⟨disk, c, pending⟩) {c' : Cache} (hfind : sfshashFind c path who = (none, c')) :
    c' = c ∧ ∀ e ∈ c.order, e.path = path → e.who.lower ≠ who.lower := by
  unfold sfshashFind at hfind
  split at hfind
  · rename_i hchain
    refine ⟨(Prod.mk.inj hfind).2.symm, fun e he hpath hwho => ?_⟩
    have hslot : e.slot = slotOf path who := by
      rw [h.faithful.slots e he, hpath, slotOf_congr path hwho]
    have hno := h.sound.not_found hchain he hslot
    simp [sameWho_iff.mpr hwho, hpath] at hno
  · cases hfind

/-- A new entry with what is on disk. -/
theorem insert_inv (h : Inv root certs ⟨disk, c, pending⟩) {csum : Bytes} {negative : Bool}
    (hnew : ∀ e ∈ c.order, e.path = path → e.who.lower ≠ who.lower) (hsum : negative = false → csum ≠ [])
    (hread : readsum root certs disk path who = if negative then .error enoent else .ok csum) :
    Inv root certs ⟨disk, sfshashInsertCommon c path csum negative who, pending⟩ := by
  rw [sfshashInsertCommon, sfshashInsertEntry]
  let e : Entry := ⟨slotOf path who, who, negative, path, csum⟩
  have hfresh : e ∉ c.order := fun he => hnew e he rfl rfl
  have hins := h.sound.insert hfresh
  obtain ⟨hsound, hle, hsub⟩ := hins.trim (c.insert Entry.slot e).count (Nat.le_add_left _ sfshashMax)
  have hfaith : Faithful root certs disk pending (c.order ++ [e]) := by
    have hcases : ∀ b ∈ c.order ++ [e], b ∈ c.order ∨ b = e := by simp
    refine ⟨fun b hb => ?_, fun a ha b hb hpath hwho => ?_, fun b hb => ?_, fun b hb => ?_⟩
    · rcases hcases b hb with hb | rfl
      · exact h.faithful.slots b hb
      · rfl
    · rcases hcases a ha with ha | rfl <;> rcases hcases b hb with hb | rfl
      · exact h.faithful.single a ha b hb hpath hwho
      · exact absurd hwho (hnew a ha hpath)
      · exact absurd hwho.symm (hnew b hb hpath.symm)
      · rfl
    · rcases hcases b hb with hb | rfl
      · exact h.faithful.sums b hb
      · exact hsum
    · rcases hcases b hb with hb | rfl
      · exact h.faithful.agrees b hb
      · exact fun _ => hread
  exact ⟨hsound, hle, hfaith.sub hsub⟩

/-- A lookup returns what is on disk, where nothing is pending. -/
theorem get_spec (h : Inv root certs ⟨disk, c, []⟩) :
    (sfshashGet root certs disk c path who).1 = readsum root certs disk path who ∧
      Inv root certs ⟨disk, (sfshashGet root certs disk c path who).2, []⟩ := by
  rw [sfshashGet]
  cases hfind : sfshashFind c path who with
  | mk found c' =>
    cases found with
    | some e =>
      obtain ⟨hmem, rfl, hwho, -, hinv⟩ := find_some h hfind
      have hagree := h.faithful.agrees e hmem (by simp)
      rw [readsum_of_lower hwho disk e.path] at hagree
      dsimp only
      rw [hagree, Entry.result]
      split
      · exact ⟨rfl, hinv⟩
      · rename_i hneg
        exact ⟨if_neg (h.faithful.sums e hmem (by simpa using hneg)), hinv⟩
    | none =>
      obtain ⟨rfl, hnew⟩ := find_none h hfind
      dsimp only
      cases hread : readsum root certs disk path who with
      | error e =>
        dsimp only
        refine ⟨rfl, ?_⟩
        split
        · rename_i he
          subst he
          exact insert_inv h hnew (by simp) hread
        · exact h
      | ok csum =>
        have hne := readsum_ne_nil hread
        exact ⟨if_neg hne, insert_inv h hnew (fun _ => hne) hread⟩

/-- A file that an invalidation was for is pending no more. -/
def settled (root : Text) (path : Text) (who : Who) (pending : List Text) : List Text :=
  pending.filter fun f => decide (fileOf root path who ≠ some f)

/-- Entries of other files do not notice. -/
theorem Faithful.settle {l : List Entry} (h : Faithful root certs disk pending l)
    (hno : ∀ e ∈ l, e.path = path → e.who.lower ≠ who.lower) :
    Faithful root certs disk (settled root path who pending) l where
  slots := h.slots
  single := h.single
  sums := h.sums
  agrees e he hset := h.agrees e he fun f hf hpend => by
    refine hset f hf (mem_filter.mpr ⟨hpend, decide_eq_true ?_⟩)
    intro hsame
    obtain ⟨hpath, hwho⟩ := fileOf_injective hf hsame
    exact hno e he hpath hwho

theorem invalidate_inv (h : Inv root certs ⟨disk, c, pending⟩) :
    Inv root certs ⟨disk, sfshashInvalidate c path who, settled root path who pending⟩ := by
  rw [sfshashInvalidate]
  cases hfind : sfshashFind c path who with
  | mk found c' =>
    cases found with
    | some e =>
      obtain ⟨-, rfl, hwho, hmem, hinv⟩ := find_some h hfind
      dsimp only
      rw [sfshashRemoveEntry]
      have hsub : ∀ b ∈ (c'.remove Entry.slot e).order, b ∈ c'.order := fun b hb => mem_of_mem_erase hb
      refine ⟨hinv.sound.remove hmem, le_trans (Nat.sub_le _ _) hinv.limit,
        (hinv.faithful.sub hsub).settle fun b hb hpath hsame => ?_⟩
      have hne := (List.Nodup.mem_erase_iff hinv.sound.nodup).mp hb
      exact hne.1 (hinv.faithful.single b hne.2 e hmem hpath (hsame.trans hwho.symm))
    | none =>
      obtain ⟨rfl, hno⟩ := find_none h hfind
      exact ⟨h.sound, h.limit, h.faithful.settle hno⟩

theorem change_inv (h : Inv root certs ⟨disk, c, pending⟩) (file : Text) (data : Except ℤ SfsData) :
    Inv root certs ⟨Function.update disk file data, c, file :: pending⟩ where
  sound := h.sound
  limit := h.limit
  faithful := {
    slots := h.faithful.slots
    single := h.faithful.single
    sums := h.faithful.sums
    agrees := fun e he hset => by
      rw [← h.faithful.agrees e he fun f hf hpend => hset f hf (mem_cons_of_mem _ hpend)]
      refine readsum_congr fun f hf => Function.update_of_ne ?_ _ _
      rintro rfl
      exact hset f hf mem_cons_self }

theorem flush_inv (h : Inv root certs ⟨disk, c, pending⟩) : Inv root certs ⟨disk, sfshashFlush c, pending⟩ := by
  obtain ⟨hsound, hnil⟩ := h.sound.flush c.order.length le_rfl
  rw [sfshashFlush]
  refine ⟨hsound, ?_, h.faithful.sub fun e he => ?_⟩
  · have hcount := hsound.count
    rw [hnil] at hcount
    rw [hcount]
    exact Nat.zero_le _
  · dsimp only at he
    rw [hnil] at he
    cases he

/-! ### Runs -/

/-- The states of a run. Lookups only take place when every change has been followed by its invalidation. -/
inductive Reaches (root : Text) (certs : List Cert) : World → Prop where
  | init (disk : Disk) : Reaches root certs ⟨disk, LruTable.empty, []⟩
  | getUid {disk : Disk} {c : Cache} (path : Text) (uid : UInt32) (before : Reaches root certs ⟨disk, c, []⟩) :
      Reaches root certs ⟨disk, (sfshashGetUid root certs disk c path uid).2, []⟩
  | getKey {disk : Disk} {c : Cache} (path key : Text) (before : Reaches root certs ⟨disk, c, []⟩) :
      Reaches root certs ⟨disk, (sfshashGetKey root certs disk c path key).2, []⟩
  | change {w : World} (file : Text) (data : Except ℤ SfsData) (before : Reaches root certs w) :
      Reaches root certs ⟨Function.update w.disk file data, w.cache, file :: w.pending⟩
  | invalidateUid {w : World} (path : Text) (uid : UInt32) (before : Reaches root certs w) :
      Reaches root certs ⟨w.disk, sfshashInvalidateUid w.cache path uid, settled root path (.uid uid) w.pending⟩
  | invalidateKey {w : World} (path key : Text) (before : Reaches root certs w) :
      Reaches root certs ⟨w.disk, sfshashInvalidateKey w.cache path key, settled root path (.key key) w.pending⟩
  | flush {w : World} (before : Reaches root certs w) : Reaches root certs ⟨w.disk, sfshashFlush w.cache, w.pending⟩

theorem Reaches.inv (h : Reaches root certs w) : Inv root certs w := by
  induction h with
  | init disk => exact ⟨LruTable.sound_empty, Nat.zero_le _, by constructor <;> simp [LruTable.empty]⟩
  | getUid path uid before ih => exact (get_spec ih).2
  | getKey path key before ih => exact (get_spec ih).2
  | change file data before ih => exact change_inv ih file data
  | invalidateUid path uid before ih => exact invalidate_inv ih
  | invalidateKey path key before ih => exact invalidate_inv ih
  | flush before ih => exact flush_inv ih

/-- The cache cannot be told from the disk, and it holds at most SFSHASH_MAX entries, at most one for each path
    and user and for each path and key. -/
theorem cache_transparent (h : Reaches root certs w) :
    (w.pending = [] → ∀ path,
      (∀ uid, (sfshashGetUid root certs w.disk w.cache path uid).1 = readsum root certs w.disk path (.uid uid)) ∧
      (∀ key, (sfshashGetKey root certs w.disk w.cache path key).1 = readsum root certs w.disk path (.key key))) ∧
    (∀ slot e, e ∈ w.cache.tab slot ↔ e ∈ w.cache.order ∧ e.slot = slot) ∧
    w.cache.order.length ≤ sfshashMax ∧
    w.cache.order.Pairwise fun a b => ¬ (a.path = b.path ∧ sameWho a.who b.who = true) := by
  obtain ⟨disk, c, pending⟩ := w
  have hinv := h.inv
  refine ⟨fun hnil path => ?_, fun slot e => hinv.sound.mem_tab, ?_, ?_⟩
  · dsimp only at hnil
    subst hnil
    exact ⟨fun uid => (get_spec hinv).1, fun key => (get_spec hinv).1⟩
  · rw [← hinv.sound.count]
    exact hinv.limit
  · refine hinv.sound.nodup.pairwise_of_forall_ne fun a ha b hb hne hsame => hne ?_
    exact hinv.faithful.single a ha b hb hsame.1 (sameWho_iff.mp hsame.2)

/-- The checksum of `/a` is missing, is looked up, added, invalidated and looked up again. -/
theorem cache_transparent_sample :
    ∃ w, Reaches "/sfs".toList [] w ∧ w.cache.order ≠ [] ∧
      (sfshashGetUid "/sfs".toList [] w.disk w.cache "/a".toList 7).1 =
        readsum "/sfs".toList [] w.disk "/a".toList (.uid 7) := by
  let data : SfsData := ⟨List.replicate 32 1, [], []⟩
  have hpend : settled "/sfs".toList "/a".toList (.uid 7) ["/sfs/*a/7".toList] = [] := by decide +kernel
  have hinit : Reaches "/sfs".toList [] ⟨fun _ => .error enoent, LruTable.empty, []⟩ := Reaches.init _
  have hrun := Reaches.getUid "/a".toList 7 hinit
  have hrun := Reaches.invalidateUid "/a".toList 7 (Reaches.change "/sfs/*a/7".toList (.ok data) hrun)
  dsimp only at hrun
  rw [hpend] at hrun
  have hrun := Reaches.getUid "/a".toList 7 hrun
  refine ⟨_, hrun, by decide +kernel, (cache_transparent hrun).1 rfl "/a".toList |>.1 7⟩

end Runs

end Anoubis.Pe.SfsCache

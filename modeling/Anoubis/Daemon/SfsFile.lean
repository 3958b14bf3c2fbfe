import Anoubis.Daemon.Sfs

/-! Checksum files byte for byte (`sfs_writesfsdata`, `sfs_readsfsdata`, `abuf_copy_part`).

    A file has a version, a table of contents that ends with an entry of type 0, and the data. Offsets in
    the table count from the start of the file, the reader works with what stands behind the table:

        version │ type offset length │ … │ 0 0 0 │ data …
                └──────── header, up to `offset` ┘ └ databuf: total_length - offset bytes

    All numbers are 32 bits wide and in the byte order of the machine, a little endian one here. The
    reader checks types and lengths, but neither that an entry points behind the table nor that its end
    does not wrap around; `abuf_copy_part` asserts that a copy stays within its buffers. -/

namespace Anoubis.Daemon.Sfs

open List

open Anoubis.Connection (Bytes)
open Anoubis.Apn (toInt32)

/-! ### Numbers and bytes -/

/-- The range of `u_int32_t`. -/
def wordMod : ℕ := 4294967296

/-- A number as it is in memory. -/
def word (n : ℕ) : Bytes :=
  [UInt8.ofNat n, UInt8.ofNat (n / 256), UInt8.ofNat (n / 65536), UInt8.ofNat (n / 16777216)]

/-- The number at the start of some memory. -/
def readWord (b : Bytes) : ℕ :=
  (b.getD 0 0).toNat + 256 * (b.getD 1 0).toNat + 65536 * (b.getD 2 0).toNat + 16777216 * (b.getD 3 0).toNat

/-- `read_bytes` on what is left of the file: the number of bytes is returned as an int. -/
def readBytes (n : ℕ) (file : Bytes) : Except ℤ (Bytes × Bytes) :=
  if file.length < n then .error (-5)
  else if toInt32 n < 0 then .error (toInt32 n)
  else .ok (file.take n, file.drop n)

/-! ### The table of contents -/

/-- SFSDATA_TYPE_EOT, SFSDATA_TYPE_CS, SFSDATA_TYPE_SIG, SFSDATA_TYPE_UPGRADE_CS and NUM_SFSDATA_TYPES. -/
def typeEot : ℕ := 0
def typeCs : ℕ := 1
def typeSig : ℕ := 2
def typeUpgradeCs : ℕ := 3
def numSfsdataTypes : ℕ := 4

/-- SFSDATA_FORMAT_VERSION. -/
def formatVersion : ℕ := 1

/-- An entry: type, offset and length. -/
structure TocEntry where
  type : ℕ
  offset : ℕ
  length : ℕ
  deriving DecidableEq

def TocEntry.bytes (e : TocEntry) : Bytes := word e.type ++ word e.offset ++ word e.length

def readEntry (b : Bytes) : TocEntry := ⟨readWord b, readWord (b.drop 4), readWord (b.drop 8)⟩

/-- The field of the sfs_data that an entry is for. -/
def SfsData.field (d : SfsData) (type : ℕ) : Bytes :=
  if type = typeCs then d.csdata
  else if type = typeSig then d.sigdata
  else if type = typeUpgradeCs then d.upgradecsdata
  else []

def SfsData.setField (d : SfsData) (type : ℕ) (b : Bytes) : SfsData :=
  if type = typeCs then { d with csdata := b }
  else if type = typeSig then { d with sigdata := b }
  else if type = typeUpgradeCs then { d with upgradecsdata := b }
  else d

/-! ### Writing -/

/-- The entries of a file: a type and the data. -/
def partsOf (d : SfsData) : List (ℕ × Bytes) :=
  (if d.csdata ≠ [] then [(typeCs, d.csdata)] else []) ++
    (if d.sigdata ≠ [] then [(typeSig, d.sigdata)] else []) ++
    (if sfsNeedUpgradeData d.upgradecsdata d.sigdata then [(typeUpgradeCs, d.upgradecsdata)] else [])

/-- The table with its end. -/
def tocBytes : ℕ → List (ℕ × Bytes) → Bytes
  | _, [] => (TocEntry.mk typeEot 0 0).bytes
  | offset, (type, b) :: parts => (TocEntry.mk type offset b.length).bytes ++ tocBytes (offset + b.length) parts

/-- What `sfs_writesfsdata` puts into the file. The upgrade checksum is written even if it has no
    entry in the table. -/
def sfsFileContents (d : SfsData) : Except ℤ Bytes :=
  let parts := partsOf d
  if parts.any (fun p => maxFieldLength < p.2.length) then .error einval
  else if parts = [] then .error einval
  else .ok (word formatVersion ++ tocBytes (4 + (parts.length + 1) * 12) parts ++
    d.csdata ++ d.sigdata ++ d.upgradecsdata)

/-! ### Reading -/

/-- The loop over the table, for entries that are left in `toc`. -/
def readToc : ℕ → Bytes → Except ℤ (List TocEntry × Bytes)
  | 0, _ => .error (-7)
  | n + 1, file =>
    match readBytes 12 file with
    | .error e => .error e
    | .ok (b, rest) =>
      let e := readEntry b
      if e.type = typeEot then .ok ([], rest)
      else if numSfsdataTypes ≤ e.type ∨ e.offset = 0 ∨ e.length = 0 then .error einval
      else if maxFieldLength < e.length then .error (-90)
      else match readToc n rest with
        | .error err => .error err
        | .ok (toc, rest) => .ok (e :: toc, rest)

/-- The version and the table: the entries, and what stands behind the table. -/
def readTable (file : Bytes) : Except ℤ (List TocEntry × Bytes) :=
  match readBytes 4 file with
  | .error e => .error e
  | .ok (b, rest) =>
    if readWord b ≠ formatVersion then .error (-95)
    else match readToc numSfsdataTypes rest with
      | .error e => .error e
      | .ok (toc, rest) => if toc = [] then .error einval else .ok (toc, rest)

/-- `offset` behind the table. -/
def tableSize (toc : List TocEntry) : ℕ := 4 + (toc.length + 1) * 12

/-- `total_length`, the running maximum of the ends. -/
def totalLength (toc : List TocEntry) : ℕ :=
  toc.foldl (fun total e => max total ((e.offset + e.length) % wordMod)) 0

/-- `data_size`. -/
def dataSize (toc : List TocEntry) : ℕ := (totalLength toc + (wordMod - tableSize toc)) % wordMod

/-- What becomes of a call: an error, a failed assertion, or the data. -/
inductive ReadResult where
  | error (e : ℤ)
  | assertion
  | done (d : SfsData)
  deriving DecidableEq

/-- `abuf_copy_part` into a new buffer of `len` bytes; `none` is the assertion in `__abuf_check`. -/
def abufCopyPart (src : Bytes) (srcoff len : ℕ) : Option Bytes :=
  if srcoff ≤ src.length ∧ len ≤ src.length ∧ (srcoff + len) % wordMod ≤ src.length then
    some ((src.drop srcoff).take len)
  else none

/-- The loop over the entries. `alloc i n` tells if the `i`-th allocation gets its `n` bytes. -/
def copyEntries (alloc : ℕ → ℕ → Bool) (databuf : Bytes) (offset : ℕ) :
    ℕ → List TocEntry → SfsData → ReadResult
  | _, [], d => .done d
  | i, e :: toc, d =>
    if e.type ≠ typeCs ∧ e.type ≠ typeSig ∧ e.type ≠ typeUpgradeCs then .error einval
    else if e.length = 0 ∨ d.field e.type ≠ [] then .error einval
    else if !alloc i e.length then .error (-12)
    else match abufCopyPart databuf ((e.offset + (wordMod - offset)) % wordMod) e.length with
      | none => .assertion
      | some b => copyEntries alloc databuf offset (i + 1) toc (d.setField e.type b)

/-- `sfs_readsfsdata` on a file that can be opened. -/
def sfsReadFile (alloc : ℕ → ℕ → Bool) (file : Bytes) : ReadResult :=
  match readTable file with
  | .error e => .error e
  | .ok (toc, rest) =>
    if dataSize toc ≠ 0 ∧ !alloc 0 (dataSize toc) then .error (-12)
    else match readBytes (dataSize toc) rest with
      | .error e => .error e
      | .ok (databuf, _) => copyEntries alloc databuf (tableSize toc) 1 toc ⟨[], [], []⟩

/-! ### What reading is for -/

/-- The bytes of the file that an entry names. -/
def TocEntry.named (e : TocEntry) (file : Bytes) : Bytes := (file.drop e.offset).take e.length

/-- No assertion fails, and on success the fields are the bytes that the table names, which are all in
    the file. -/
def ReadsAsNamed (file : Bytes) : Prop :=
  ∀ alloc, sfsReadFile alloc file ≠ .assertion ∧
    ∀ d, sfsReadFile alloc file = .done d → ∃ toc rest, readTable file = .ok (toc, rest) ∧
      (∀ e ∈ toc, e.offset + e.length ≤ file.length ∧ d.field e.type = e.named file) ∧
      ∀ type, (∀ e ∈ toc, e.type ≠ type) → d.field type = []

/-- The entry points behind the table, and its end does not wrap around. -/
def TocEntry.Behind (e : TocEntry) (offset : ℕ) : Prop := offset ≤ e.offset ∧ e.offset + e.length < wordMod

instance (e : TocEntry) (offset : ℕ) : Decidable (e.Behind offset) := inferInstanceAs (Decidable (_ ∧ _))

/-- In a file that is long enough for its table, the entries up to the first repeated type point behind
    the table, and their ends do not wrap around. -/
def EntriesBehind (file : Bytes) : Prop :=
  ∀ toc rest, readTable file = .ok (toc, rest) → dataSize toc ≤ rest.length → 0 ≤ toInt32 (dataSize toc) →
    ∀ pre e post, toc = pre ++ e :: post → ((pre ++ [e]).map TocEntry.type).Nodup → e.Behind (tableSize toc)

/-! ### Reading what was written -/

variable {n offset : ℕ} {parts : List (ℕ × Bytes)} {rest : Bytes}

theorem readWord_word (h : n < wordMod) (rest : Bytes) : readWord (word n ++ rest) = n := by
  have hlt : n < 4294967296 := h
  simp only [readWord, word, cons_append, nil_append, getD_cons_zero, getD_cons_succ, UInt8.toNat_ofNat']
  omega

theorem length_word (n : ℕ) : (word n).length = 4 := rfl

theorem length_bytes (e : TocEntry) : e.bytes.length = 12 := rfl

theorem readEntry_bytes {e : TocEntry} (ht : e.type < wordMod) (ho : e.offset < wordMod)
    (hl : e.length < wordMod) : readEntry e.bytes = e := by
  have htype : readWord e.bytes = e.type := by
    rw [TocEntry.bytes, append_assoc]
    exact readWord_word ht _
  have hoffset : readWord (e.bytes.drop 4) = e.offset := readWord_word ho _
  have hlength : readWord (e.bytes.drop 8) = e.length := readWord_word hl []
  rw [readEntry, htype, hoffset, hlength]

theorem toInt32_of_lt (h : n < 2 ^ 31) : toInt32 n = n := if_pos h

/-- A part of known length at the start of the file. -/
theorem readBytes_append {b : Bytes} (hn : b.length = n) (hlt : n < 2 ^ 31) (rest : Bytes) :
    readBytes n (b ++ rest) = .ok (b, rest) := by
  subst hn
  rw [readBytes, if_neg (by simp), if_neg (by rw [toInt32_of_lt hlt]; omega), take_left, drop_left]

/-- The entries of the table. -/
def entriesOf : ℕ → List (ℕ × Bytes) → List TocEntry
  | _, [] => []
  | offset, (type, b) :: parts => ⟨type, offset, b.length⟩ :: entriesOf (offset + b.length) parts

/-- A part that has an entry in a table. -/
def GoodPart (p : ℕ × Bytes) : Prop := 0 < p.1 ∧ p.1 < numSfsdataTypes ∧ p.2 ≠ [] ∧ p.2.length ≤ maxFieldLength

theorem readToc_tocBytes (hn : parts.length < n) (hgood : ∀ p ∈ parts, GoodPart p) (hpos : 0 < offset)
    (hsize : offset + maxFieldLength * parts.length < wordMod) (rest : Bytes) :
    readToc n (tocBytes offset parts ++ rest) = .ok (entriesOf offset parts, rest) := by
  induction parts generalizing n offset with
  | nil =>
    cases n with
    | zero => exact absurd hn (Nat.not_lt_zero _)
    | succ n =>
      rw [tocBytes, readToc, readBytes_append (length_bytes _) (by decide)]
      rfl
  | cons p parts ih =>
    obtain ⟨type, b⟩ := p
    obtain ⟨htype, htypes, hne, hlen⟩ := hgood (type, b) mem_cons_self
    dsimp only at htype htypes hne hlen
    rw [length_cons, Nat.mul_succ] at hsize
    cases n with
    | zero => exact absurd hn (Nat.not_lt_zero _)
    | succ n =>
      have hlen0 : b.length ≠ 0 := fun h => hne (eq_nil_of_length_eq_zero h)
      have htypelt : type < wordMod := htypes.trans (by decide)
      have hlenlt : b.length < wordMod := hlen.trans_lt (by decide)
      have hoff : offset < wordMod := by omega
      rw [tocBytes, append_assoc, readToc, readBytes_append (length_bytes _) (by decide)]
      dsimp only
      rw [readEntry_bytes htypelt hoff hlenlt]
      dsimp only
      rw [if_neg (by simpa [typeEot] using Nat.ne_of_gt htype), if_neg (by omega), if_neg (by omega),
        ih (Nat.lt_of_succ_lt_succ hn) (fun p hp => hgood p (mem_cons_of_mem _ hp)) (by omega) (by omega)]
      rfl

/-- The data behind the table. -/
def bodyOf (parts : List (ℕ × Bytes)) : Bytes := parts.flatMap Prod.snd

theorem length_entriesOf (offset : ℕ) (parts : List (ℕ × Bytes)) : (entriesOf offset parts).length = parts.length := by
  induction parts generalizing offset with
  | nil => rfl
  | cons p parts ih => rw [entriesOf, length_cons, ih, length_cons]

/-- The parts stand one behind the other, so the last end is the greatest. -/
theorem foldl_entriesOf {total : ℕ} (htotal : total ≤ offset) (hsize : offset + (bodyOf parts).length < wordMod) :
    (entriesOf offset parts).foldl (fun total e => max total ((e.offset + e.length) % wordMod)) total =
      if parts = [] then total else offset + (bodyOf parts).length := by
  induction parts generalizing offset total with
  | nil => rfl
  | cons p parts ih =>
    obtain ⟨type, b⟩ := p
    have hbody : (bodyOf ((type, b) :: parts)).length = b.length + (bodyOf parts).length := by
      rw [bodyOf, flatMap_cons, length_append]
      rfl
    rw [hbody] at hsize ⊢
    have hend : (offset + b.length) % wordMod = offset + b.length := Nat.mod_eq_of_lt (by omega)
    rw [entriesOf, foldl_cons, hend, Nat.max_eq_right (by omega), ih le_rfl (by omega),
      if_neg (cons_ne_nil (type, b) parts)]
    by_cases hnil : parts = []
    · subst hnil
      rfl
    · rw [if_neg hnil]
      omega

theorem abufCopyPart_middle (pre b post : Bytes) (h : pre.length + b.length < wordMod) :
    abufCopyPart (pre ++ (b ++ post)) pre.length b.length = some b := by
  rw [abufCopyPart, Nat.mod_eq_of_lt h, if_pos, drop_left, take_left]
  simp only [length_append]
  omega

/-- The offset in the data of an entry behind the table. -/
theorem sub_offset {x : ℕ} (h : x + offset < wordMod) : (offset + x + (wordMod - offset)) % wordMod = x := by
  have hsum : offset + x + (wordMod - offset) = x + wordMod := by omega
  rw [hsum, Nat.add_mod_right, Nat.mod_eq_of_lt (by omega)]

theorem field_setField_ne {d : SfsData} {t t' : ℕ} (h : t' ≠ t) (b : Bytes) :
    (d.setField t b).field t' = d.field t' := by
  simp only [SfsData.setField]
  split
  · rename_i ht
    simp [SfsData.field, show t' ≠ typeCs from fun h' => h (h'.trans ht.symm)]
  · split
    · rename_i ht
      simp [SfsData.field, show t' ≠ typeSig from fun h' => h (h'.trans ht.symm)]
    · split
      · rename_i ht
        simp [SfsData.field, show t' ≠ typeUpgradeCs from fun h' => h (h'.trans ht.symm)]
      · rfl

theorem field_setField {d : SfsData} {t : ℕ} (hpos : 0 < t) (hlt : t < numSfsdataTypes) (b : Bytes) :
    (d.setField t b).field t = b := by
  have hcases : t = typeCs ∨ t = typeSig ∨ t = typeUpgradeCs := by
    simp only [typeCs, typeSig, typeUpgradeCs, numSfsdataTypes] at *
    omega
  rcases hcases with rfl | rfl | rfl <;> rfl

/-- The parts come back into their fields. -/
theorem copyEntries_entriesOf {alloc : ℕ → ℕ → Bool} (halloc : ∀ i n, alloc i n = true) {pre post : Bytes}
    {d : SfsData} (hgood : ∀ p ∈ parts, GoodPart p) (htypes : (parts.map Prod.fst).Nodup)
    (hfree : ∀ p ∈ parts, d.field p.1 = []) (hsize : pre.length + (bodyOf parts).length + offset < wordMod) (i : ℕ) :
    copyEntries alloc (pre ++ (bodyOf parts ++ post)) offset i (entriesOf (offset + pre.length) parts) d =
      .done (parts.foldl (fun d p => d.setField p.1 p.2) d) := by
  induction parts generalizing pre d i with
  | nil => rfl
  | cons p parts ih =>
    obtain ⟨type, b⟩ := p
    obtain ⟨htype, hlt, hne, -⟩ := hgood (type, b) mem_cons_self
    dsimp only at htype hlt hne
    have hbody : bodyOf ((type, b) :: parts) = b ++ bodyOf parts := flatMap_cons
    rw [map_cons, nodup_cons] at htypes
    rw [hbody, length_append] at hsize
    have hmem : ¬ (type ≠ typeCs ∧ type ≠ typeSig ∧ type ≠ typeUpgradeCs) := by
      simp only [typeCs, typeSig, typeUpgradeCs, numSfsdataTypes] at *
      omega
    have hlen : ¬ (b.length = 0 ∨ d.field type ≠ []) := by
      rintro (h | h)
      · exact hne (eq_nil_of_length_eq_zero h)
      · exact h (hfree _ mem_cons_self)
    rw [entriesOf, copyEntries, if_neg hmem, if_neg hlen, if_neg (by simp [halloc]),
      sub_offset (by omega), hbody, append_assoc, abufCopyPart_middle _ _ _ (by omega)]
    dsimp only
    have hrest : ∀ p ∈ parts, (d.setField type b).field p.1 = [] := by
      intro p hp
      have hother : p.1 ≠ type := fun h => htypes.1 (mem_map.mpr ⟨p, hp, h⟩)
      rw [field_setField_ne hother]
      exact hfree p (mem_cons_of_mem _ hp)
    have hnext : copyEntries alloc (pre ++ b ++ (bodyOf parts ++ post)) offset (i + 1)
        (entriesOf (offset + (pre ++ b).length) parts) (d.setField type b) = _ :=
      ih (fun p hp => hgood p (mem_cons_of_mem _ hp)) htypes.2 hrest (by rw [length_append]; omega) (i + 1)
    rw [append_assoc, length_append, ← add_assoc] at hnext
    exact hnext

theorem needUpgrade_iff (updata cmpdata : Bytes) : sfsNeedUpgradeData updata cmpdata = true ↔
    ¬ (cmpdata = [] ∨ updata <+: cmpdata) := by
  rw [sfsNeedUpgradeData, decide_eq_true_iff, prefix_iff_eq_take, not_or]
  constructor
  · rintro ⟨-, hcmp, hne⟩
    exact ⟨hcmp, Ne.symm hne⟩
  · rintro ⟨hcmp, hne⟩
    refine ⟨?_, hcmp, Ne.symm hne⟩
    rintro rfl
    exact hne rfl

variable {d : SfsData} {file : Bytes} {alloc : ℕ → ℕ → Bool}

/-- There is at most one entry of each type. -/
theorem types_partsOf (d : SfsData) : ((partsOf d).map Prod.fst).Sublist [typeCs, typeSig, typeUpgradeCs] := by
  have hpart : ∀ (c : Prop) [Decidable c] (t : ℕ) (b : Bytes),
      ((if c then [(t, b)] else []).map Prod.fst).Sublist [t] := by
    intro c _ t b
    by_cases hc : c
    · rw [if_pos hc]
      exact .refl _
    · rw [if_neg hc]
      exact nil_sublist _
  rw [partsOf, map_append, map_append]
  exact ((hpart _ typeCs _).append (hpart _ typeSig _)).append (hpart _ typeUpgradeCs _)

theorem length_partsOf (d : SfsData) : (partsOf d).length ≤ 3 := by
  have hlen := (types_partsOf d).length_le
  rwa [length_map] at hlen

theorem nodup_partsOf (d : SfsData) : ((partsOf d).map Prod.fst).Nodup := (types_partsOf d).nodup (by decide)

theorem type_partsOf {p : ℕ × Bytes} (h : p ∈ partsOf d) : 0 < p.1 ∧ p.1 < numSfsdataTypes := by
  have hmem := (types_partsOf d).subset (mem_map_of_mem h)
  have hall : ∀ t ∈ [typeCs, typeSig, typeUpgradeCs], 0 < t ∧ t < numSfsdataTypes := by decide
  exact hall p.1 hmem

theorem data_partsOf {p : ℕ × Bytes} (h : p ∈ partsOf d) : p.2 ≠ [] := by
  have hpart : ∀ (c : Prop) [Decidable c] (t : ℕ) (b : Bytes), (c → b ≠ []) →
      p ∈ (if c then [(t, b)] else []) → p.2 ≠ [] := by
    intro c _ t b hb hp
    by_cases hc : c
    · rw [if_pos hc, mem_singleton] at hp
      subst hp
      exact hb hc
    · rw [if_neg hc] at hp
      exact absurd hp not_mem_nil
  rw [partsOf, mem_append, mem_append] at h
  rcases h with (h | h) | h
  · exact hpart _ _ _ id h
  · exact hpart _ _ _ id h
  · refine hpart _ _ _ (fun hneed hup => (needUpgrade_iff _ _).mp hneed (.inr ?_)) h
    rw [hup]
    exact nil_prefix

/-- The data stands in the order of the table; an upgrade checksum without entry is at the end. -/
theorem body_partsOf (d : SfsData) :
    ∃ post, d.csdata ++ d.sigdata ++ d.upgradecsdata = bodyOf (partsOf d) ++ post := by
  have hpart : ∀ (t : ℕ) (b : Bytes), bodyOf (if b ≠ [] then [(t, b)] else []) = b := by
    intro t b
    by_cases hb : b = []
    · simp [hb, bodyOf]
    · simp [hb, bodyOf]
  by_cases hneed : sfsNeedUpgradeData d.upgradecsdata d.sigdata = true
  · refine ⟨[], ?_⟩
    have happend : ∀ a b c, bodyOf (a ++ b ++ c) = bodyOf a ++ bodyOf b ++ bodyOf c := by
      intro a b c
      simp [bodyOf]
    rw [partsOf, happend, hpart, hpart, if_pos hneed, append_nil]
    simp [bodyOf]
  · refine ⟨d.upgradecsdata, ?_⟩
    have happend : ∀ a b, bodyOf (a ++ b ++ []) = bodyOf a ++ bodyOf b := by
      intro a b
      simp [bodyOf]
    rw [partsOf, if_neg hneed, happend, hpart, hpart]

theorem setField_partsOf (d : SfsData) :
    (partsOf d).foldl (fun d p => d.setField p.1 p.2) ⟨[], [], []⟩ = storedData d := by
  obtain ⟨cs, sig, up⟩ := d
  rw [partsOf, storedData]
  cases cs <;> cases sig <;> cases sfsNeedUpgradeData up _ <;> rfl

theorem length_bodyOf_le (h : ∀ p ∈ parts, GoodPart p) : (bodyOf parts).length ≤ 4096 * parts.length := by
  induction parts with
  | nil => exact Nat.le_refl 0
  | cons p parts ih =>
    have hp : p.2.length ≤ 4096 := (h p mem_cons_self).2.2.2
    have ih := ih fun p hp => h p (mem_cons_of_mem _ hp)
    have hbody : bodyOf (p :: parts) = p.2 ++ bodyOf parts := flatMap_cons
    rw [hbody, length_append, length_cons]
    omega

/-- Reading gives back what was written, without an upgrade checksum that is not needed. -/
theorem read_write (halloc : ∀ i n, alloc i n = true) (h : sfsFileContents d = .ok file) :
    sfsReadFile alloc file = .done (storedData d) := by
  rw [sfsFileContents] at h
  by_cases hlong : (partsOf d).any (fun p => maxFieldLength < p.2.length) = true
  · rw [if_pos hlong] at h
    cases h
  by_cases hnil : partsOf d = []
  · rw [if_neg hlong, if_pos hnil] at h
    cases h
  rw [if_neg hlong, if_neg hnil] at h
  cases h
  have hgood : ∀ p ∈ partsOf d, GoodPart p := by
    intro p hp
    refine ⟨(type_partsOf hp).1, (type_partsOf hp).2, data_partsOf hp, ?_⟩
    by_contra hgt
    exact hlong (any_eq_true.mpr ⟨p, hp, decide_eq_true (by omega)⟩)
  have hlen := length_partsOf d
  have hnodup := nodup_partsOf d
  have hfields := setField_partsOf d
  obtain ⟨post, hbody⟩ := body_partsOf d
  have hmax : maxFieldLength = 4096 := rfl
  have hmod : wordMod = 4294967296 := rfl
  have hbodylen := length_bodyOf_le hgood
  generalize partsOf d = parts at *
  have hsize : tableSize (entriesOf (4 + (parts.length + 1) * 12) parts) = 4 + (parts.length + 1) * 12 := by
    rw [tableSize, length_entriesOf]
  have htotal : totalLength (entriesOf (4 + (parts.length + 1) * 12) parts) =
      4 + (parts.length + 1) * 12 + (bodyOf parts).length := by
    rw [totalLength, foldl_entriesOf (Nat.zero_le _) (by omega), if_neg hnil]
  have htable : readTable (word formatVersion ++ tocBytes (4 + (parts.length + 1) * 12) parts ++
      d.csdata ++ d.sigdata ++ d.upgradecsdata) =
        .ok (entriesOf (4 + (parts.length + 1) * 12) parts, bodyOf parts ++ post) := by
    have hne : ¬ entriesOf (4 + (parts.length + 1) * 12) parts = [] := by
      intro hempty
      have hzero := length_entriesOf (4 + (parts.length + 1) * 12) parts
      rw [hempty] at hzero
      exact hnil (eq_nil_of_length_eq_zero hzero.symm)
    rw [append_assoc, append_assoc, ← append_assoc d.csdata, hbody, append_assoc, readTable,
      readBytes_append (length_word _) (by decide)]
    dsimp only
    rw [if_neg (by decide), readToc_tocBytes (by simp only [numSfsdataTypes]; omega) hgood (by omega)
      (by rw [hmax]; omega)]
    dsimp only
    rw [if_neg hne]
  have hdata : dataSize (entriesOf (4 + (parts.length + 1) * 12) parts) = (bodyOf parts).length := by
    rw [dataSize, htotal, hsize, sub_offset (by omega)]
  rw [sfsReadFile, htable]
  dsimp only
  rw [if_neg (by simp [halloc]), hdata, readBytes_append rfl (by omega)]
  dsimp only
  have hcopy : copyEntries alloc ([] ++ (bodyOf parts ++ [])) (4 + (parts.length + 1) * 12) 1
      (entriesOf (4 + (parts.length + 1) * 12 + ([] : Bytes).length) parts) ⟨[], [], []⟩ = _ :=
    copyEntries_entriesOf halloc hgood hnodup (fun p _ => by simp [SfsData.field])
      (by simp only [length_nil]; omega) 1
  rw [append_nil, nil_append, length_nil, add_zero, hfields] at hcopy
  rw [hsize]
  exact hcopy

/-! ### Reading any file -/

/-- What the checks of the table leave. -/
def GoodEntry (e : TocEntry) : Prop :=
  0 < e.type ∧ e.type < numSfsdataTypes ∧ e.offset < wordMod ∧ 0 < e.length ∧ e.length ≤ maxFieldLength

theorem readWord_lt (b : Bytes) : readWord b < wordMod := by
  have h₀ := (b.getD 0 0).toNat_lt
  have h₁ := (b.getD 1 0).toNat_lt
  have h₂ := (b.getD 2 0).toNat_lt
  have h₃ := (b.getD 3 0).toNat_lt
  simp only [readWord, wordMod]
  omega

theorem readBytes_ok {b : Bytes} (h : readBytes n file = .ok (b, rest)) :
    n ≤ file.length ∧ 0 ≤ toInt32 n ∧ b = file.take n ∧ rest = file.drop n := by
  rw [readBytes] at h
  by_cases hlen : file.length < n
  · rw [if_pos hlen] at h
    cases h
  by_cases hneg : toInt32 n < 0
  · rw [if_neg hlen, if_pos hneg] at h
    cases h
  · rw [if_neg hlen, if_neg hneg] at h
    cases h
    exact ⟨by omega, by omega, rfl, rfl⟩

theorem readToc_ok {toc : List TocEntry} (h : readToc n file = .ok (toc, rest)) :
    toc.length < n ∧ (toc.length + 1) * 12 ≤ file.length ∧ rest = file.drop ((toc.length + 1) * 12) ∧
      ∀ e ∈ toc, GoodEntry e := by
  induction n generalizing file toc with
  | zero => cases h
  | succ n ih =>
    rw [readToc] at h
    cases hread : readBytes 12 file with
    | error err =>
      rw [hread] at h
      cases h
    | ok x =>
      obtain ⟨b, rest'⟩ := x
      obtain ⟨hlen, -, rfl, rfl⟩ := readBytes_ok hread
      rw [hread] at h
      dsimp only at h
      generalize he : readEntry (file.take 12) = e at h
      by_cases heot : e.type = typeEot
      · rw [if_pos heot] at h
        cases h
        exact ⟨Nat.succ_pos n, by simpa using hlen, rfl, by simp⟩
      rw [if_neg heot] at h
      by_cases hbad : numSfsdataTypes ≤ e.type ∨ e.offset = 0 ∨ e.length = 0
      · rw [if_pos hbad] at h
        cases h
      rw [if_neg hbad] at h
      by_cases hlong : maxFieldLength < e.length
      · rw [if_pos hlong] at h
        cases h
      rw [if_neg hlong] at h
      cases hrec : readToc n (file.drop 12) with
      | error err =>
        rw [hrec] at h
        cases h
      | ok y =>
        obtain ⟨toc', rest''⟩ := y
        rw [hrec] at h
        cases h
        obtain ⟨hn, hsize, hrest, hgood⟩ := ih hrec
        rw [length_drop] at hsize
        have hstep : (toc'.length + 1 + 1) * 12 = 12 + (toc'.length + 1) * 12 := by omega
        rw [length_cons]
        refine ⟨by omega, by omega, ?_, ?_⟩
        · rw [hrest, drop_drop, hstep]
        · intro e' he'
          rcases mem_cons.mp he' with rfl | he'
          · have hoff : e'.offset < wordMod := by
              rw [← he]
              exact readWord_lt _
            rw [typeEot] at heot
            push Not at hbad
            exact ⟨by omega, hbad.1, hoff, by omega, by omega⟩
          · exact hgood e' he'

theorem readTable_ok {toc : List TocEntry} (h : readTable file = .ok (toc, rest)) :
    toc ≠ [] ∧ toc.length < numSfsdataTypes ∧ tableSize toc ≤ file.length ∧ rest = file.drop (tableSize toc) ∧
      ∀ e ∈ toc, GoodEntry e := by
  rw [readTable] at h
  cases hread : readBytes 4 file with
  | error err =>
    rw [hread] at h
    cases h
  | ok x =>
    obtain ⟨b, rest'⟩ := x
    obtain ⟨hlen, -, rfl, rfl⟩ := readBytes_ok hread
    rw [hread] at h
    dsimp only at h
    by_cases hversion : readWord (file.take 4) ≠ formatVersion
    · rw [if_pos hversion] at h
      cases h
    rw [if_neg hversion] at h
    cases htoc : readToc numSfsdataTypes (file.drop 4) with
    | error err =>
      rw [htoc] at h
      cases h
    | ok y =>
      obtain ⟨toc', rest''⟩ := y
      rw [htoc] at h
      dsimp only at h
      by_cases hnil : toc' = []
      · rw [if_pos hnil] at h
        cases h
      rw [if_neg hnil] at h
      cases h
      obtain ⟨hn, hsize, hrest, hgood⟩ := readToc_ok htoc
      rw [length_drop] at hsize
      refine ⟨hnil, hn, ?_, ?_, hgood⟩
      · rw [tableSize]
        omega
      · rw [hrest, drop_drop, tableSize]

/-- No end is behind the greatest one. -/
theorem end_le_total {toc : List TocEntry} {e : TocEntry} (h : e ∈ toc) :
    (e.offset + e.length) % wordMod ≤ totalLength toc := by
  have hmono : ∀ (l : List TocEntry) (t : ℕ),
      t ≤ l.foldl (fun total e => max total ((e.offset + e.length) % wordMod)) t := by
    intro l
    induction l with
    | nil => exact fun t => Nat.le_refl t
    | cons a l ih => exact fun t => (Nat.le_max_left _ _).trans (ih _)
  obtain ⟨pre, post, rfl⟩ := append_of_mem h
  rw [totalLength, foldl_append, foldl_cons]
  exact (Nat.le_max_right _ _).trans (hmono post _)

theorem total_lt (toc : List TocEntry) : totalLength toc < wordMod := by
  have hall : ∀ (l : List TocEntry) (t : ℕ), t < wordMod →
      l.foldl (fun total e => max total ((e.offset + e.length) % wordMod)) t < wordMod := by
    intro l
    induction l with
    | nil => exact fun t ht => ht
    | cons a l ih =>
      intro t ht
      exact ih _ (Nat.max_lt.mpr ⟨ht, Nat.mod_lt _ (by decide)⟩)
  exact hall toc 0 (by decide)

theorem lt_of_toInt32 (hn : n < wordMod) (h : 0 ≤ toInt32 n) : n < 2147483648 := by
  rw [toInt32] at h
  rw [wordMod] at hn
  by_contra hge
  rw [if_neg (by omega)] at h
  omega

/-- A size that is no negative int belongs to a table that ends before the data. -/
theorem table_le_total {toc : List TocEntry} (hlen : toc.length < numSfsdataTypes) (h : 0 ≤ toInt32 (dataSize toc)) :
    tableSize toc ≤ totalLength toc ∧ dataSize toc = totalLength toc - tableSize toc := by
  have hsize := lt_of_toInt32 (Nat.mod_lt _ (by decide)) h
  have htotal := total_lt toc
  simp only [dataSize, tableSize, wordMod, numSfsdataTypes] at *
  omega

section Entries

variable {toc es pre post : List TocEntry} {e : TocEntry} {databuf : Bytes} {i : ℕ}

/-- The bytes an entry gets out of the data. -/
def TocEntry.copied (e : TocEntry) (offset : ℕ) (databuf : Bytes) : Bytes :=
  (databuf.drop (e.offset - offset)).take e.length

theorem behind_fits (hlen : toc.length < numSfsdataTypes) (hpos : 0 ≤ toInt32 (dataSize toc)) (he : e ∈ toc)
    (hb : e.Behind (tableSize toc)) : e.offset - tableSize toc + e.length ≤ dataSize toc := by
  obtain ⟨htable, hsize⟩ := table_le_total hlen hpos
  have hend := end_le_total he
  rw [Nat.mod_eq_of_lt hb.2] at hend
  have hle : tableSize toc ≤ e.offset := hb.1
  omega

theorem length_copied (hlen : toc.length < numSfsdataTypes) (hpos : 0 ≤ toInt32 (dataSize toc)) (he : e ∈ toc)
    (hdata : databuf.length = dataSize toc) (hb : e.Behind (tableSize toc)) :
    (e.copied (tableSize toc) databuf).length = e.length := by
  have hfit := behind_fits hlen hpos he hb
  rw [TocEntry.copied, length_take, length_drop, hdata]
  omega

/-- The copy of an entry stays within the data if and only if the entry is behind the table. -/
theorem copyPart_entry (hlen : toc.length < numSfsdataTypes) (hpos : 0 ≤ toInt32 (dataSize toc)) (he : e ∈ toc)
    (hgood : GoodEntry e) (hdata : databuf.length = dataSize toc) :
    abufCopyPart databuf ((e.offset + (wordMod - tableSize toc)) % wordMod) e.length =
      if e.Behind (tableSize toc) then some (e.copied (tableSize toc) databuf) else none := by
  have hlt : dataSize toc < 2147483648 := lt_of_toInt32 (Nat.mod_lt _ (by decide)) hpos
  have hhead : tableSize toc ≤ 52 := by
    simp only [tableSize, numSfsdataTypes] at *
    omega
  have hmod : wordMod = 4294967296 := rfl
  obtain ⟨-, -, hoff, -, hmax⟩ := hgood
  have hmax : e.length ≤ 4096 := hmax
  rw [hmod] at hoff
  rw [abufCopyPart, hdata]
  by_cases hb : e.Behind (tableSize toc)
  · have hfit := behind_fits hlen hpos he hb
    have hle : tableSize toc ≤ e.offset := hb.1
    have hstart : (e.offset + (wordMod - tableSize toc)) % wordMod = e.offset - tableSize toc := by
      rw [hmod]
      omega
    have hstop : (e.offset - tableSize toc + e.length) % wordMod ≤ dataSize toc := by
      rw [hmod]
      omega
    rw [hstart, if_pos hb, if_pos ⟨by omega, by omega, hstop⟩, TocEntry.copied]
  · have hwrap : ¬ (tableSize toc ≤ e.offset ∧ e.offset + e.length < 4294967296) := hb
    have hstart : ¬ (e.offset + (wordMod - tableSize toc)) % wordMod ≤ dataSize toc := by
      rw [hmod]
      omega
    rw [if_neg hb, if_neg fun h => hstart h.1]

/-- The checks in front of a copy. -/
theorem copyEntries_step {offset : ℕ} (hgood : GoodEntry e) (hfree : d.field e.type = [])
    (halloc : alloc i e.length = true) :
    copyEntries alloc databuf offset i (e :: toc) d =
      match abufCopyPart databuf ((e.offset + (wordMod - offset)) % wordMod) e.length with
      | none => .assertion
      | some b => copyEntries alloc databuf offset (i + 1) toc (d.setField e.type b) := by
  obtain ⟨hpos, hlt, -, hlen, -⟩ := hgood
  have hmem : ¬ (e.type ≠ typeCs ∧ e.type ≠ typeSig ∧ e.type ≠ typeUpgradeCs) := by
    simp only [typeCs, typeSig, typeUpgradeCs, numSfsdataTypes] at *
    omega
  have hnew : ¬ (e.length = 0 ∨ d.field e.type ≠ []) := by
    rintro (h | h)
    · omega
    · exact h hfree
  rw [copyEntries, if_neg hmem, if_neg hnew, if_neg (by simp [halloc])]

/-- A repeated type or a failed allocation is an error. -/
theorem copyEntries_fails {offset : ℕ} (h : ¬ (d.field e.type = [] ∧ alloc i e.length = true)) :
    ∃ err, copyEntries alloc databuf offset i (e :: toc) d = .error err := by
  rw [copyEntries]
  split
  · exact ⟨_, rfl⟩
  split
  · exact ⟨_, rfl⟩
  rename_i hnew
  rw [if_pos]
  · exact ⟨_, rfl⟩
  · rw [not_or, not_not] at hnew
    simpa using fun halloc => h ⟨hnew.2, halloc⟩

/-- The types of the entries are new. -/
def Fresh (d : SfsData) (es : List TocEntry) : Prop :=
  (es.map TocEntry.type).Nodup ∧ ∀ x ∈ es, d.field x.type = []

theorem fresh_cons (hgood : GoodEntry e) {b : Bytes} (hb : b ≠ []) :
    Fresh d (e :: es) ↔ d.field e.type = [] ∧ Fresh (d.setField e.type b) es := by
  have hself : (d.setField e.type b).field e.type = b := field_setField hgood.1 hgood.2.1 b
  constructor
  · rintro ⟨hnodup, hfree⟩
    rw [map_cons, nodup_cons] at hnodup
    refine ⟨hfree e mem_cons_self, hnodup.2, fun x hx => ?_⟩
    have hother : x.type ≠ e.type := fun heq => hnodup.1 (mem_map.mpr ⟨x, hx, heq⟩)
    rw [field_setField_ne hother]
    exact hfree x (mem_cons_of_mem _ hx)
  · rintro ⟨hfree, hnodup, hrest⟩
    have hother : ∀ x ∈ es, x.type ≠ e.type := by
      intro x hx heq
      have hf := hrest x hx
      rw [heq, hself] at hf
      exact hb hf
    refine ⟨?_, ?_⟩
    · rw [map_cons, nodup_cons]
      refine ⟨fun hmem => ?_, hnodup⟩
      obtain ⟨x, hx, heq⟩ := mem_map.mp hmem
      exact hother x hx heq
    · intro x hx
      rcases mem_cons.mp hx with rfl | hx
      · exact hfree
      · rw [← field_setField_ne (hother x hx) b]
        exact hrest x hx

/-- Entries that are behind the table, as far as their types are new, do not fail the assertion; what
    they name is copied. -/
theorem copyEntries_safe (hlen : toc.length < numSfsdataTypes) (hpos : 0 ≤ toInt32 (dataSize toc))
    (hgood : ∀ e ∈ toc, GoodEntry e) (hdata : databuf.length = dataSize toc) (hsub : ∀ e ∈ es, e ∈ toc)
    (hbehind : ∀ pre e post, es = pre ++ e :: post → Fresh d (pre ++ [e]) → e.Behind (tableSize toc)) :
    copyEntries alloc databuf (tableSize toc) i es d ≠ .assertion ∧
      ∀ d', copyEntries alloc databuf (tableSize toc) i es d = .done d' → Fresh d es ∧
        (∀ e ∈ es, e.Behind (tableSize toc) ∧ d'.field e.type = e.copied (tableSize toc) databuf) ∧
        ∀ t, (∀ e ∈ es, e.type ≠ t) → d'.field t = d.field t := by
  induction es generalizing i d with
  | nil =>
    refine ⟨by simp [copyEntries], fun d' hd => ?_⟩
    obtain rfl := ReadResult.done.inj hd
    exact ⟨⟨nodup_nil, by simp⟩, by simp, fun t _ => rfl⟩
  | cons e es ih =>
    have he := hsub e mem_cons_self
    by_cases hstep : d.field e.type = [] ∧ alloc i e.length = true
    · obtain ⟨hfree, halloc⟩ := hstep
      have hb : e.Behind (tableSize toc) :=
        hbehind [] e es rfl ⟨by simp, fun x hx => by rw [mem_singleton.mp hx]; exact hfree⟩
      have hnew : e.copied (tableSize toc) databuf ≠ [] := by
        refine ne_nil_of_length_pos ?_
        rw [length_copied hlen hpos he hdata hb]
        exact (hgood e he).2.2.2.1
      rw [copyEntries_step (hgood e he) hfree halloc, copyPart_entry hlen hpos he (hgood e he) hdata, if_pos hb]
      dsimp only
      obtain ⟨hsafe, hdone⟩ := @ih (d.setField e.type (e.copied (tableSize toc) databuf)) (i + 1)
        (fun x hx => hsub x (mem_cons_of_mem _ hx)) (fun pre x post heq hfresh =>
          hbehind (e :: pre) x post (by rw [heq]; rfl) ((fresh_cons (hgood e he) hnew).mpr ⟨hfree, hfresh⟩))
      refine ⟨hsafe, fun d' hd => ?_⟩
      obtain ⟨hfresh, hcopied, hrest⟩ := hdone d' hd
      have hall : Fresh d (e :: es) := (fresh_cons (hgood e he) hnew).mpr ⟨hfree, hfresh⟩
      have hother : ∀ y ∈ es, y.type ≠ e.type := by
        have hnodup := hall.1
        rw [map_cons, nodup_cons] at hnodup
        exact fun y hy heq => hnodup.1 (mem_map.mpr ⟨y, hy, heq⟩)
      refine ⟨hall, fun y hy => ?_, fun t ht => ?_⟩
      · rcases mem_cons.mp hy with rfl | hy
        · refine ⟨hb, ?_⟩
          rw [hrest _ hother, field_setField (hgood y he).1 (hgood y he).2.1]
        · exact hcopied y hy
      · rw [hrest t fun y hy => ht y (mem_cons_of_mem _ hy),
          field_setField_ne (Ne.symm (ht e mem_cons_self))]
    · obtain ⟨err, herr⟩ := copyEntries_fails hstep
      rw [herr]
      exact ⟨by simp, by simp⟩

/-- An entry of a new type that is not behind the table fails the assertion. -/
theorem copyEntries_assertion (hlen : toc.length < numSfsdataTypes) (hpos : 0 ≤ toInt32 (dataSize toc))
    (hgood : ∀ e ∈ toc, GoodEntry e) (hdata : databuf.length = dataSize toc) (hsub : ∀ x ∈ pre ++ e :: post, x ∈ toc)
    (hfresh : Fresh d (pre ++ [e])) (hb : ¬ e.Behind (tableSize toc)) (halloc : ∀ i n, alloc i n = true) :
    copyEntries alloc databuf (tableSize toc) i (pre ++ e :: post) d = .assertion := by
  induction pre generalizing i d with
  | nil =>
    have he := hsub e mem_cons_self
    rw [nil_append, copyEntries_step (hgood e he) (hfresh.2 e mem_cons_self) (halloc _ _),
      copyPart_entry hlen hpos he (hgood e he) hdata, if_neg hb]
  | cons a pre ih =>
    have ha := hsub a mem_cons_self
    rw [cons_append, copyEntries_step (hgood a ha) (hfresh.2 a mem_cons_self) (halloc _ _),
      copyPart_entry hlen hpos ha (hgood a ha) hdata]
    by_cases hab : a.Behind (tableSize toc)
    · have hnew : a.copied (tableSize toc) databuf ≠ [] := by
        refine ne_nil_of_length_pos ?_
        rw [length_copied hlen hpos ha hdata hab]
        exact (hgood a ha).2.2.2.1
      rw [if_pos hab]
      exact ih (fun x hx => hsub x (mem_cons_of_mem _ hx)) ((fresh_cons (hgood a ha) hnew).mp hfresh).2
    · rw [if_neg hab]

end Entries

/-! ### Whole files -/

theorem fresh_empty {es : List TocEntry} : Fresh ⟨[], [], []⟩ es ↔ (es.map TocEntry.type).Nodup :=
  and_iff_left fun x _ => by simp [SfsData.field]

/-- A read that comes to the entries. -/
theorem sfsReadFile_eq {toc : List TocEntry} (ht : readTable file = .ok (toc, rest))
    (hlen : dataSize toc ≤ rest.length) (hpos : 0 ≤ toInt32 (dataSize toc)) (halloc : alloc 0 (dataSize toc) = true) :
    sfsReadFile alloc file = copyEntries alloc (rest.take (dataSize toc)) (tableSize toc) 1 toc ⟨[], [], []⟩ := by
  rw [sfsReadFile, ht]
  dsimp only
  rw [if_neg (by simp [halloc]), readBytes, if_neg (by omega), if_neg (by omega)]

/-- Everything else is an error. -/
theorem sfsReadFile_cases (alloc : ℕ → ℕ → Bool) (file : Bytes) : (∃ err, sfsReadFile alloc file = .error err) ∨
    ∃ toc rest, readTable file = .ok (toc, rest) ∧ dataSize toc ≤ rest.length ∧ 0 ≤ toInt32 (dataSize toc) ∧
      sfsReadFile alloc file = copyEntries alloc (rest.take (dataSize toc)) (tableSize toc) 1 toc ⟨[], [], []⟩ := by
  rw [sfsReadFile]
  cases ht : readTable file with
  | error err => exact .inl ⟨err, rfl⟩
  | ok x =>
    obtain ⟨toc, rest⟩ := x
    dsimp only
    by_cases hoom : dataSize toc ≠ 0 ∧ (!alloc 0 (dataSize toc)) = true
    · rw [if_pos hoom]
      exact .inl ⟨_, rfl⟩
    · rw [if_neg hoom]
      cases hr : readBytes (dataSize toc) rest with
      | error err => exact .inl ⟨err, rfl⟩
      | ok y =>
        obtain ⟨b, more⟩ := y
        obtain ⟨hlen, hpos, rfl, -⟩ := readBytes_ok hr
        exact .inr ⟨toc, rest, rfl, hlen, hpos, rfl⟩

/-- The bytes behind the table that an entry gets are the bytes of the file that it names. -/
theorem copied_eq_named {toc : List TocEntry} {e : TocEntry} (hb : e.Behind (tableSize toc))
    (hfit : e.offset - tableSize toc + e.length ≤ dataSize toc) :
    e.copied (tableSize toc) ((file.drop (tableSize toc)).take (dataSize toc)) = e.named file := by
  have hsum : tableSize toc + (e.offset - tableSize toc) = e.offset := Nat.add_sub_of_le hb.1
  rw [TocEntry.copied, TocEntry.named, drop_take, take_take, drop_drop, hsum, Nat.min_eq_left (by omega)]

/-- A file is read without a failed assertion, and as its table says, if and only if its entries point
    behind the table. -/
theorem readsAsNamed_iff (file : Bytes) : ReadsAsNamed file ↔ EntriesBehind file := by
  constructor
  · intro h toc rest ht hlen hpos pre e post heq hnodup
    obtain ⟨-, hn, -, -, hgood⟩ := readTable_ok ht
    by_contra hb
    refine (h fun _ _ => true).1 ?_
    rw [sfsReadFile_eq ht hlen hpos rfl]
    have hdata : (rest.take (dataSize toc)).length = dataSize toc := length_take_of_le hlen
    have hassert : copyEntries (fun _ _ => true) (rest.take (dataSize toc)) (tableSize toc) 1
        (pre ++ e :: post) ⟨[], [], []⟩ = .assertion :=
      copyEntries_assertion hn hpos hgood hdata (fun x hx => heq ▸ hx) (fresh_empty.mpr hnodup) hb
        (fun _ _ => rfl)
    rwa [← heq] at hassert
  · intro h alloc
    rcases sfsReadFile_cases alloc file with ⟨err, herr⟩ | ⟨toc, rest, ht, hlen, hpos, hread⟩
    · rw [herr]
      exact ⟨by simp, by simp⟩
    · obtain ⟨-, hn, hsize, rfl, hgood⟩ := readTable_ok ht
      have hdata := length_take_of_le hlen
      have hbehind : ∀ pre e post, toc = pre ++ e :: post → Fresh ⟨[], [], []⟩ (pre ++ [e]) →
          e.Behind (tableSize toc) :=
        fun pre e post heq hfresh => h toc _ ht hlen hpos pre e post heq (fresh_empty.mp hfresh)
      rw [hread]
      obtain ⟨hsafe, hdone⟩ := copyEntries_safe hn hpos hgood hdata (fun e he => he) hbehind
      refine ⟨hsafe, fun d hd => ?_⟩
      obtain ⟨-, hcopied, hrest⟩ := hdone d hd
      refine ⟨toc, _, ht, fun e he => ?_, fun type htype => ?_⟩
      · obtain ⟨hb, hfield⟩ := hcopied e he
        have hfit := behind_fits hn hpos he hb
        have hle : tableSize toc ≤ e.offset := hb.1
        rw [length_drop] at hlen
        refine ⟨by omega, ?_⟩
        rw [hfield, copied_eq_named hb hfit]
      · rw [hrest type htype]
        simp [SfsData.field]

theorem exists_contents (hcs : d.csdata.length ≤ maxFieldLength) (hsig : d.sigdata.length ≤ maxFieldLength)
    (hup : d.upgradecsdata.length ≤ maxFieldLength) (h : d.csdata ≠ [] ∨ d.sigdata ≠ []) :
    ∃ file, sfsFileContents d = .ok file := by
  have hshort : ¬ (partsOf d).any (fun p => maxFieldLength < p.2.length) = true := by
    rw [partsOf, any_append, any_append]
    split <;> split <;> split <;> simp [hcs, hsig, hup]
  have hne : ¬ partsOf d = [] := by
    rw [partsOf]
    rcases h with h | h <;> simp [h]
  rw [sfsFileContents, if_neg hshort, if_neg hne]
  exact ⟨_, rfl⟩

/-- Data with a checksum or a signature is written; what was written is read back, the upgrade checksum
    unless there is no signature or the signature starts with it; and any file is read as its table says,
    without a failed assertion, if and only if its entries point behind the table. -/
theorem checksum_files (d : SfsData) (file : Bytes) :
    (d.csdata.length ≤ maxFieldLength → d.sigdata.length ≤ maxFieldLength →
      d.upgradecsdata.length ≤ maxFieldLength →
      (d.csdata ≠ [] ∨ d.sigdata ≠ [] → ∃ written, sfsFileContents d = .ok written) ∧
      ∀ written, sfsFileContents d = .ok written → ∀ alloc, (∀ i n, alloc i n = true) →
        sfsReadFile alloc written = .done ⟨d.csdata, d.sigdata,
          if d.sigdata = [] ∨ d.upgradecsdata <+: d.sigdata then [] else d.upgradecsdata⟩) ∧
    (ReadsAsNamed file ↔ EntriesBehind file) := by
  refine ⟨fun hcs hsig hup => ⟨exists_contents hcs hsig hup, fun written hwritten alloc halloc => ?_⟩,
    readsAsNamed_iff file⟩
  rw [read_write halloc hwritten, storedData]
  by_cases hneed : sfsNeedUpgradeData d.upgradecsdata d.sigdata = true
  · rw [if_pos hneed, if_neg ((needUpgrade_iff _ _).mp hneed)]
  · rw [if_neg hneed, if_pos (not_not.mp fun h => hneed ((needUpgrade_iff _ _).mpr h))]

/-- A signature that starts with the upgrade checksum. -/
theorem checksum_files_signature :
    ∃ file, sfsFileContents ⟨[], [1, 2], [1]⟩ = .ok file ∧
      sfsReadFile (fun _ _ => true) file = .done ⟨[], [1, 2], []⟩ := by
  obtain ⟨hwrite, hread⟩ := (checksum_files ⟨[], [1, 2], [1]⟩ []).1 (by decide) (by decide) (by decide)
  obtain ⟨file, hfile⟩ := hwrite (.inr (by decide))
  exact ⟨file, hfile, hread file hfile (fun _ _ => true) (fun _ _ => rfl)⟩

/-- One entry for 32 bytes from the second byte of the file on, and five bytes of data. -/
def headerEntry : Bytes :=
  word formatVersion ++ (TocEntry.mk typeCs 1 32).bytes ++ (TocEntry.mk typeEot 0 0).bytes ++ [0, 0, 0, 0, 0]

/-- An entry that points into the header fails the assertion. -/
theorem header_entry_assertion : ¬ ∀ file, ReadsAsNamed file := by
  intro h
  exact absurd (h headerEntry fun _ _ => true).1 (not_not.mpr (by decide +kernel))

end Anoubis.Daemon.Sfs

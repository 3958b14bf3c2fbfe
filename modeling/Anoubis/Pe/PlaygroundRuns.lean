import Anoubis.Pe.PlaygroundEvents

/-! Accounting for the files of playgrounds.

    `nrfiles` lives in memory: it grows when a name file that was empty gets its first path, and shrinks
    when a name file is unlinked; a restart counts the directory again. Counter and directory are in step
    as long as each write that makes a name file succeeds:

        openat O_CREAT --> empty file --> path written, closed --> nrfiles + 1
                               └──▶ write short or failed      ──▶ the file stays, nrfiles as before -/

namespace Anoubis.Pe.Pg

open AList

open Option

open Anoubis.Lib List

namespace Slot

/-! ### Writing a name file -/

theorem matchBytes_nil (path : CString) (off : Option ℕ) : matchBytes path off [] = some off := rfl

theorem fileAdd_new (path : CString) (w : Writes) : fileAdd path w [] =
    (if (cBytes path).length ≤ w.path ∧ w.close then 1 else -1, (cBytes path).take w.path) := by
  rw [fileAdd, matchBytes_nil]
  simp

/-- What is in a file stays there, and a file with names in it is not a new one. -/
theorem fileAdd_old (path : CString) (w : Writes) {old : List UInt8} (h : old ≠ []) :
    (fileAdd path w old).1 ≠ 1 ∧ (fileAdd path w old).2 ≠ [] := by
  have hne : (-1 : ℤ) ≠ 1 := by decide
  rw [fileAdd, if_neg h]
  cases matchBytes path (some 0) old with
  | none => exact ⟨hne, h⟩
  | some off =>
    dsimp only
    split
    · exact ⟨hne, h⟩
    · refine ⟨?_, ?_⟩
      · dsimp only
        split <;> decide
      · intro hnil
        have hold := (append_eq_nil_iff.mp hnil).1
        split at hold
        · simp at hold
        · exact h hold

theorem cBytes_ne_nil (path : CString) : cBytes path ≠ [] := by simp [cBytes]

/-- Every name file has something in it. -/
def Written (files : AList (fun _ : Key => List UInt8)) : Prop := ∀ k bs, files.lookup k = some bs → bs ≠ []

variable {files : AList (fun _ : Key => List UInt8)}

theorem written_insert (h : Written files) (k : Key) {bs : List UInt8} (hbs : bs ≠ []) :
    Written (files.insert k bs) := by
  intro k' bs' hl
  by_cases hk : k' = k
  · rw [hk, lookup_insert] at hl
    rwa [← some.inj hl]
  · rw [lookup_insert_ne hk] at hl
    exact h k' bs' hl

theorem written_erase (h : Written files) (k : Key) : Written (files.erase k) := by
  intro k' bs' hl
  by_cases hk : k' = k
  · rw [hk, lookup_erase] at hl
    cases hl
  · rw [lookup_erase_ne hk] at hl
    exact h k' bs' hl

variable {k : Key} {x : Slot}

theorem keys_insert_old (h : k ∈ files) (bs : List UInt8) : (files.insert k bs).keys.Perm files.keys := by
  rw [keys_insert]
  exact (perm_cons_erase (AList.mem_keys.mp h)).symm

theorem keys_insert_new (h : k ∉ files) (bs : List UInt8) : (files.insert k bs).keys = k :: files.keys := by
  rw [keys_insert, erase_of_not_mem (fun hk => h (AList.mem_keys.mpr hk))]

/-- A name for a file that has one already. -/
theorem dirFileAdd_old {d : Dir} (h : k ∈ d.files) (path : CString) (w : Writes) :
    (dirFileAdd k path w d).2.files.keys.Perm d.files.keys ∧
      (Written d.files → (dirFileAdd k path w d).1 ≠ 1 ∧ Written (dirFileAdd k path w d).2.files) := by
  refine ⟨keys_insert_old h _, fun hw => ?_⟩
  obtain ⟨bs, hbs⟩ := isSome_iff_exists.mp (lookup_isSome.mpr h)
  have hadd := fileAdd_old path w (hw k bs hbs)
  rw [dirFileAdd, hbs]
  exact ⟨hadd.1, written_insert hw k hadd.2⟩

/-- The first name of a file. -/
theorem dirFileAdd_new {d : Dir} (h : k ∉ d.files) (path : CString) (w : Writes) :
    (dirFileAdd k path w d).2.files.keys = k :: d.files.keys ∧
      ((dirFileAdd k path w d).1 = 1 ↔ (cBytes path).length ≤ w.path ∧ w.close = true) ∧
      (Written d.files → (cBytes path).length ≤ w.path → Written (dirFileAdd k path w d).2.files) := by
  have hnone : d.files.lookup k = none := lookup_eq_none.mpr h
  rw [dirFileAdd, hnone]
  dsimp only
  rw [getD_none, fileAdd_new]
  refine ⟨keys_insert_new h _, ?_, fun hw hfull => written_insert hw k ?_⟩
  · dsimp only
    split <;> simp_all
  · rw [take_of_length_le hfull]
    exact cBytes_ne_nil path

theorem dirRename_spec (dev ino : ℕ) (rs : List Renamed) (d : Dir) :
    (dirRename dev ino rs d).files.keys.Perm d.files.keys ∧
      (Written d.files → Written (dirRename dev ino rs d).files) := by
  induction rs generalizing d with
  | nil => exact ⟨.refl _, id⟩
  | cons r rs ih =>
    rw [dirRename]
    split
    · rename_i h
      have hadd := dirFileAdd_old h.2.2 r.path r.writes
      have hrest := ih (dirFileAdd r.name r.path r.writes d).2
      exact ⟨hrest.1.trans hadd.1, fun hw => hrest.2 (hadd.2 hw).2⟩
    · exact ih d

/-! ### What a function does to counter and directory -/

/-- The path and its NUL are written and the file is closed. -/
def Full (path : CString) (w : Writes) : Prop := (cBytes path).length ≤ w.path ∧ w.close = true

instance (path : CString) (w : Writes) : Decidable (Full path w) := inferInstanceAs (Decidable (_ ∧ _))

/-- The function makes a name file: there is none yet, and the directory can be opened. -/
def Creates (k : Key) (path : CString) (x : Slot) : Prop :=
  path ≠ [] ∧ (x.create true).dir ≠ none ∧ k ∉ x.names

/-- The counter in step with the directory. -/
structure Counted (x : Slot) : Prop where
  count : x.nrfiles = x.names.length
  written : Written x.files
  procs : 0 ≤ x.nrprocs

theorem counted_none : Counted ⟨none, none⟩ :=
  ⟨rfl, fun k _ h => (by cases h.symm.trans (lookup_empty k)), le_refl 0⟩

theorem Counted.same {x' : Slot} (h : Counted x) (hs : Same x x') : Counted x' := by
  refine ⟨?_, ?_, ?_⟩
  · rw [hs.nrfiles, h.count, names, names, hs.files]
  · rw [hs.files]
    exact h.written
  · rw [hs.nrprocs]
    exact h.procs

/-- The call that is made once the name file of a known playground is open. -/
theorem fileInstantiate_open (dev ino : ℕ) {path : CString} {pg : Playground} {d : Dir} (hp : path ≠ [])
    (hx : x.create true = ⟨some pg, some d⟩) (found : Option (List Renamed)) (w : Writes) :
    ∃ d', x.fileInstantiate dev ino path found w =
        ⟨some { pg with nrfiles := pg.nrfiles + if (dirFileAdd ⟨dev, ino⟩ path w d).1 = 1 then 1 else 0 }, some d'⟩ ∧
      d'.files.keys.Perm (dirFileAdd ⟨dev, ino⟩ path w d).2.files.keys ∧
      (Written (dirFileAdd ⟨dev, ino⟩ path w d).2.files → Written d'.files) := by
  rw [fileInstantiate, if_neg hp, hx]
  dsimp only
  split
  · exact ⟨_, rfl, .refl _, id⟩
  · cases found with
    | none => exact ⟨_, by simp, .refl _, id⟩
    | some found => exact ⟨_, by simp, dirRename_spec dev ino found _⟩

/-- What an instantiated file does to the slot. -/
structure Instantiated (k : Key) (path : CString) (w : Writes) (x x' : Slot) : Prop where
  nrprocs : x'.nrprocs = x.nrprocs
  known : x.pg ≠ none → x'.pg ≠ none
  made : Creates k path x → x'.pg ≠ none
  old : ¬ Creates k path x → x'.names.Perm x.names ∧
    (Written x.files → x'.nrfiles = x.nrfiles ∧ Written x'.files)
  new : Creates k path x → x'.names.Perm (k :: x.names) ∧
    x'.nrfiles = x.nrfiles + (if Full path w then 1 else 0) ∧
    (Written x.files → Full path w → Written x'.files)

theorem Instantiated.of_same {path : CString} {w : Writes} {x' : Slot} (hs : Same x x')
    (hk : x.pg ≠ none → x'.pg ≠ none) (hc : ¬ Creates k path x) : Instantiated k path w x x' where
  nrprocs := hs.nrprocs
  known := hk
  made := fun h => absurd h hc
  old := by
    intro _
    rw [names, names, hs.files]
    exact ⟨.refl _, fun hw => ⟨hs.nrfiles, hw⟩⟩
  new := fun h => absurd h hc

theorem fileInstantiate_spec (dev ino : ℕ) (path : CString) (found : Option (List Renamed)) (w : Writes)
    (x : Slot) : Instantiated ⟨dev, ino⟩ path w x (x.fileInstantiate dev ino path found w) := by
  by_cases hp : path = []
  · rw [fileInstantiate, if_pos hp]
    exact .of_same (Same.refl x) id fun hc => hc.1 hp
  have hs := create_same true x
  have hk := create_known true x
  cases hy : x.create true with
  | mk opg odir =>
    rw [hy] at hs hk
    cases odir with
    | none =>
      have hstay : x.fileInstantiate dev ino path found w = ⟨opg, none⟩ := by
        rw [fileInstantiate, if_neg hp, hy]
      rw [hstay]
      exact .of_same hs (fun _ => hk) fun hc => hc.2.1 (by rw [hy])
    | some d =>
      obtain ⟨pg, rfl⟩ := ne_none_iff_exists'.mp hk
      obtain ⟨d', hx', hkeys, hwritten⟩ := fileInstantiate_open dev ino hp hy found w
      have hfiles : d.files = x.files := hs.files
      have hnr : pg.nrfiles = x.nrfiles := hs.nrfiles
      have hpr : pg.nrprocs = x.nrprocs := hs.nrprocs
      rw [hx']
      refine ⟨hpr, fun _ => some_ne_none _, fun _ => some_ne_none _, fun hc => ?_, fun hc => ?_⟩
      · have hmem : (⟨dev, ino⟩ : Key) ∈ d.files := by
          by_contra hmem
          exact hc ⟨hp, by rw [hy]; exact some_ne_none _,
            fun hn => hmem (hfiles ▸ AList.mem_keys.mpr hn)⟩
        have hadd := dirFileAdd_old hmem path w
        rw [names, names, ← hfiles]
        refine ⟨hkeys.trans hadd.1, fun hw => ⟨?_, hwritten (hadd.2 hw).2⟩⟩
        rw [nrfiles, map_some, getD_some, if_neg (hadd.2 hw).1, hnr, add_zero]
      · have hmem : (⟨dev, ino⟩ : Key) ∉ d.files := fun h => hc.2.2 (AList.mem_keys.mp (hfiles ▸ h))
        have hadd := dirFileAdd_new hmem path w
        rw [names, names, ← hfiles]
        refine ⟨?_, ?_, fun hw hfull => hwritten (hadd.2.2 hw hfull.1)⟩
        · rw [← hadd.1]
          exact hkeys
        · rw [nrfiles, map_some, getD_some, hnr]
          by_cases hfull : Full path w
          · rw [if_pos hfull, if_pos (hadd.2.1.mpr hfull)]
          · rw [if_neg hfull, if_neg (fun h => hfull (hadd.2.1.mp h))]

theorem fileScanrequest_spec (dev ino : ℕ) (path : CString) (uid : ℕ) (w : Writes) (x : Slot) :
    Instantiated ⟨dev, ino⟩ path w x (x.fileScanrequest dev ino path uid w).2 := by
  have h := fileInstantiate_spec dev ino path none w x
  rw [fileScanrequest]
  by_cases hp : path = []
  · rw [if_pos hp]
    exact .of_same (Same.refl x) id fun hc => hc.1 hp
  · rw [if_neg hp]
    generalize x.fileInstantiate dev ino path none w = y at h
    rcases y with ⟨_ | pg, d⟩
    · exact h
    · dsimp only
      split
      · exact h
      · -- the device and inode to be scanned count for nothing
        exact ⟨h.nrprocs, fun _ => some_ne_none _, fun _ => some_ne_none _, h.old, h.new⟩

/-! ### Removal -/

theorem Counted.names_nil (h : Counted x) (hz : x.nrfiles = 0) : x.names = [] := by
  have hlen : (x.names.length : ℤ) = 0 := h.count.symm.trans hz
  exact length_eq_zero_iff.mp (by omega)

/-- What `pe_playground_trykill` does to a slot whose counter is right. -/
structure Killed (x x' : Slot) : Prop where
  counted : Counted x'
  names : x'.names = x.names
  nrprocs : x'.nrprocs = x.nrprocs
  gone : x.pg ≠ none → x'.pg = none → x.nrprocs = 0 ∧ x.names = []

theorem Counted.trykill (h : Counted x) (ops : DirOps) : Killed x (x.trykill ops) := by
  rcases trykill_cases ops x with hsame | ⟨hp, hf, hk, hpg, hfiles⟩
  · rw [hsame]
    exact ⟨h, rfl, rfl, fun hk hn => absurd hn hk⟩
  · have hnil := h.names_nil hf
    have hfiles' : (x.trykill ops).files = x.files ∨ (x.trykill ops).dir = none :=
      hfiles.imp_left fun he => he.trans (unlinkLoop_nil ops hnil)
    have hnames : (x.trykill ops).names = x.names := by
      rcases hfiles' with he | he
      · rw [Slot.names, he, Slot.names]
      · rw [hnil, Slot.names, Slot.files, he]
        rfl
    have hnr : (x.trykill ops).nrfiles = 0 := by rw [nrfiles, hpg]; rfl
    have hpr : (x.trykill ops).nrprocs = 0 := by rw [Slot.nrprocs, hpg]; rfl
    refine ⟨⟨?_, ?_, ?_⟩, hnames, hpr.trans hp.symm, fun _ _ => ⟨hp, hnil⟩⟩
    · rw [hnames, hnil, hnr]
      rfl
    · rcases hfiles' with he | he
      · rw [he]
        exact h.written
      · rw [Slot.files, he]
        exact counted_none.written
    · rw [hpr]

/-- Directory operations that work remove what counts nothing. -/
theorem Counted.removed (h : Counted x) (hk : x.pg ≠ none) (hd : x.dir ≠ none) (hp : x.nrprocs = 0)
    (hf : x.nrfiles = 0) : x.trykill .fine = ⟨none, none⟩ := by
  rcases x with ⟨_ | pg, _ | d⟩
  · exact absurd rfl hk
  · exact absurd rfl hk
  · exact absurd rfl hd
  · exact trykill_fine hp hf (h.names_nil hf)

/-- `pe_playground_delete` on a slot whose counter is right. -/
structure Deleted (x : Slot) (ops : DirOps) (x' : Slot) : Prop where
  counted : Counted x'
  names : x'.names = x.names
  nrprocs : x'.nrprocs = if x.nrprocs > 0 then x.nrprocs - 1 else x.nrprocs
  gone : x.pg ≠ none → x'.pg = none → x.nrprocs = 1 ∧ x.names = []
  removed : ops = .fine → x.dir ≠ none → x.nrprocs ≠ 0 ∨ x.nrfiles ≠ 0 → x'.nrprocs = 0 →
    x'.nrfiles = 0 → x' = ⟨none, none⟩

theorem Counted.delete (h : Counted x) (ops : DirOps) : Deleted x ops (x.delete ops).slot := by
  rcases x with ⟨_ | pg, d⟩
  · exact ⟨h, rfl, rfl, fun hk => absurd rfl hk, fun _ _ hne => (by simp [nrprocs, nrfiles] at hne)⟩
  rw [Slot.delete]
  dsimp only
  by_cases hpos : pg.nrprocs > 0
  · rw [if_pos hpos]
    have hy : Counted ⟨some { pg with nrprocs := pg.nrprocs - 1 }, d⟩ :=
      ⟨h.count, h.written, by rw [nrprocs]; exact Int.sub_nonneg_of_le hpos⟩
    have hkill := hy.trykill ops
    refine ⟨hkill.counted, hkill.names, ?_, fun _ hn => ?_, fun hops hd _ hp hf => ?_⟩
    · rw [hkill.nrprocs]
      exact (if_pos hpos).symm
    · obtain ⟨hz, hnil⟩ := hkill.gone (some_ne_none _) hn
      have hz : pg.nrprocs - 1 = 0 := hz
      exact ⟨(by rw [nrprocs, map_some, getD_some]; omega), hnil⟩
    · subst hops
      have hz := hkill.nrprocs.symm.trans hp
      have hnil := hkill.names.symm.trans (hkill.counted.names_nil hf)
      refine hy.removed (some_ne_none _) hd hz ?_
      rw [hy.count, hnil]
      rfl
  · rw [if_neg hpos]
    refine ⟨h, rfl, (if_neg hpos).symm, fun hk hn => absurd hn hk, fun _ _ hne hp hf => ?_⟩
    exact absurd hne (by rw [hp, hf]; simp)

/-- `pe_playground_file_delete` on a slot whose counter is right. -/
structure FileDeleted (k : Key) (x : Slot) (ops : DirOps) (x' : Slot) : Prop where
  counted : Counted x'
  kept : ∀ k' ∈ x.names, k' ∈ x'.names ∨ k' = k
  nrprocs : x'.nrprocs = x.nrprocs
  gone : x.pg ≠ none → x'.pg = none → x'.names = [] ∧ x.nrprocs = 0
  removed : ops = .fine → x.nrprocs ≠ 0 ∨ x.nrfiles ≠ 0 → x'.nrprocs = 0 → x'.nrfiles = 0 → x' = ⟨none, none⟩

theorem Counted.stay (h : Counted x) (k : Key) (ops : DirOps) : FileDeleted k x ops x where
  counted := h
  kept := fun _ hk => .inl hk
  nrprocs := rfl
  gone := fun hk hn => absurd hn hk
  removed := fun _ hne hp hf => absurd hne (by rw [hp, hf]; simp)

theorem Counted.fileDelete (h : Counted x) (dev ino : ℕ) (unlinked : Bool) (ops : DirOps) :
    FileDeleted ⟨dev, ino⟩ x ops (x.fileDelete dev ino unlinked ops) := by
  rcases x with ⟨_ | pg, _ | d⟩
  · exact h.stay _ ops
  · exact h.stay _ ops
  · exact h.stay _ ops
  rw [Slot.fileDelete]
  dsimp only
  split
  · rename_i hu
    -- one name file and one count less
    have hmem : (⟨dev, ino⟩ : Key) ∈ d.files.keys := AList.mem_keys.mp hu.2
    have hlen : (d.files.erase ⟨dev, ino⟩).keys.length = d.files.keys.length - 1 := by
      rw [keys_erase, length_erase_of_mem hmem]
    have hpos : 0 < d.files.keys.length := length_pos_of_mem hmem
    have hcount : pg.nrfiles = d.files.keys.length := h.count
    have hy : Counted ⟨some { pg with nrfiles := pg.nrfiles - 1 },
        some { d with files := d.files.erase ⟨dev, ino⟩ }⟩ := by
      refine ⟨?_, written_erase h.written _, h.procs⟩
      change pg.nrfiles - 1 = ((d.files.erase ⟨dev, ino⟩).keys.length : ℤ)
      rw [hlen, hcount]
      omega
    have hkill := hy.trykill ops
    refine ⟨hkill.counted, fun k' hk' => ?_, hkill.nrprocs, fun _ hn => ?_, fun hops _ hp hf => ?_⟩
    · by_cases hkk : k' = ⟨dev, ino⟩
      · exact .inr hkk
      · refine .inl ?_
        rw [hkill.names]
        change k' ∈ (d.files.erase ⟨dev, ino⟩).keys
        rw [keys_erase]
        exact (mem_erase_of_ne hkk).mpr hk'
    · obtain ⟨hz, hnil⟩ := hkill.gone (some_ne_none _) hn
      exact ⟨hkill.names.trans hnil, hz⟩
    · subst hops
      have hz := hkill.nrprocs.symm.trans hp
      have hnil := hkill.names.symm.trans (hkill.counted.names_nil hf)
      refine hy.removed (some_ne_none _) (some_ne_none _) hz ?_
      rw [hy.count, hnil]
      rfl
  · exact h.stay _ ops

theorem Counted.dispatchUnlink (h : Counted x) (authUid dev ino : ℕ) (unlinked : Bool) (ops : DirOps) :
    FileDeleted ⟨dev, ino⟩ x ops (x.dispatchUnlink authUid dev ino unlinked ops).2 := by
  have hdel := h.fileDelete dev ino unlinked ops
  have hstay := h.stay ⟨dev, ino⟩ ops
  rw [Slot.dispatchUnlink]
  cases x.pg with
  | none => exact hstay
  | some pg =>
    dsimp only
    split
    · exact hstay
    · exact hdel

/-- A playground read at the start is counted from its directory. -/
theorem read_spec (ops : DirOps) (d : Option Dir) (hw : Written (⟨none, d⟩ : Slot).files) :
    Counted ((⟨none, d⟩ : Slot).read ops) ∧ ((⟨none, d⟩ : Slot).read ops).names = (⟨none, d⟩ : Slot).names ∧
      ((⟨none, d⟩ : Slot).read ops).nrprocs = 0 ∧
      (((⟨none, d⟩ : Slot).read ops).pg = none → (⟨none, d⟩ : Slot).names = []) ∧
      (ops = .fine → (⟨none, d⟩ : Slot).names = [] → (⟨none, d⟩ : Slot).read ops = ⟨none, none⟩) := by
  cases d with
  | none =>
    have hread : (⟨none, none⟩ : Slot).read ops = ⟨none, none⟩ := rfl
    rw [hread]
    exact ⟨counted_none, rfl, rfl, fun _ => rfl, fun _ _ => rfl⟩
  | some d =>
    rw [read]
    dsimp only
    have hy : Counted ⟨some ⟨0, 0, true, 0, 0 + d.files.keys.length, d.uid.getD uidDefault, 0, 0⟩, some d⟩ :=
      ⟨Int.zero_add _, hw, le_refl 0⟩
    have hkill := hy.trykill ops
    refine ⟨hkill.counted, hkill.names, hkill.nrprocs, fun hn => ?_, fun hops hnil => ?_⟩
    · exact (hkill.gone (some_ne_none _) hn).2
    · subst hops
      refine hy.removed (some_ne_none _) (some_ne_none _) rfl ?_
      rw [hy.count]
      exact congrArg (fun l : List Key => (l.length : ℤ)) hnil

end Slot

/-! ### Calls -/

/-- The name file that a call takes away. -/
def Call.unlinks : Call → Option Key
  | .fileDelete _ dev ino _ _ | .unlink _ _ dev ino _ _ => some ⟨dev, ino⟩
  | _ => none

/-- The processes that a call takes away from a playground. -/
def Call.leaves (pgid : ℕ) : Call → ℤ
  | .delete q _ => if q = pgid then 1 else 0
  | _ => 0

/-- The directory operations of a call succeed. -/
def Call.Fine : Call → Prop
  | .delete _ ops | .fileDelete _ _ _ _ ops | .unlink _ _ _ _ _ ops => ops = .fine
  | _ => True

/-- If the call makes a name file, its path is written and the file closed. -/
def Call.WritesOk (x : Slot) : Call → Prop
  | .instantiate _ dev ino path _ w | .scanrequest _ dev ino path _ w =>
    x.Creates ⟨dev, ino⟩ path → Slot.Full path w
  | _ => True

/-- What a call does to a slot whose counter is right. -/
structure CallOk (c : Call) (x x' : Slot) : Prop where
  count : c.WritesOk x ↔ x'.nrfiles = x'.names.length
  known : ¬ c.WritesOk x → x'.pg ≠ none
  counted : c.WritesOk x → x'.Counted
  kept : ∀ k ∈ x.names, k ∈ x'.names ∨ c.unlinks = some k
  gone : x.pg ≠ none → x'.pg = none → x'.names = [] ∧ x.nrprocs = c.leaves c.pgid
  removed : c.Fine → x.dir ≠ none → x.nrprocs ≠ 0 ∨ x.nrfiles ≠ 0 → x'.nrprocs = 0 → x'.nrfiles = 0 →
    x' = ⟨none, none⟩

variable {c : Call} {ops : DirOps} {e : Event} {s : Engine}

theorem CallOk.of_same {x x' : Slot} (h : x.Counted) (hs : x.Same x') (hk : x'.pg ≠ none ∨ x' = x)
    (hc : c.WritesOk x) : CallOk c x x' where
  count := iff_of_true hc (h.same hs).count
  known := fun hn => absurd hc hn
  counted := fun _ => h.same hs
  kept := by
    intro k hk
    rw [Slot.names, hs.files]
    exact .inl hk
  gone := by
    intro hknown hn
    rcases hk with hk | rfl
    · exact absurd hn hk
    · exact absurd hn hknown
  removed := by
    intro _ _ hne hp hf
    exact absurd hne (by rw [← hs.nrprocs, ← hs.nrfiles, hp, hf]; simp)

theorem callOk_add {x : Slot} (h : x.Counted) (pgid : ℕ) (proc : Task) : CallOk (.add pgid proc) x (x.add proc) := by
  obtain ⟨hfiles, hnr, hpr, hk⟩ := Slot.add_spec proc x
  have hnames : (x.add proc).names = x.names := by rw [Slot.names, hfiles, Slot.names]
  have hcounted : (x.add proc).Counted := by
    refine ⟨?_, ?_, ?_⟩
    · rw [hnr, h.count, hnames]
    · rw [hfiles]
      exact h.written
    · rw [hpr]
      have := h.procs
      omega
  refine ⟨iff_of_true trivial hcounted.count, fun _ => hk, fun _ => hcounted, fun k hk => ?_, fun _ hn => absurd hn hk, ?_⟩
  · rw [hnames]
    exact .inl hk
  · intro _ _ _ hp
    have := h.procs
    omega

theorem callOk_postexec {x : Slot} (h : x.Counted) (pgid : ℕ) (proc : Task) :
    CallOk (.postexec pgid proc) x (x.postexec proc).slot := by
  refine .of_same h (Slot.postexec_same proc x) ?_ trivial
  by_cases hk : x.pg = none
  · rcases x with ⟨pg, d⟩
    obtain rfl : pg = none := hk
    exact .inr rfl
  · exact .inl (Slot.postexec_known proc hk)

theorem callOk_delete {x : Slot} (h : x.Counted) (pgid : ℕ) (ops : DirOps) :
    CallOk (.delete pgid ops) x (x.delete ops).slot := by
  have hdel := h.delete ops
  refine ⟨iff_of_true trivial hdel.counted.count, fun hn => absurd trivial hn, fun _ => hdel.counted, fun k hk => ?_, fun hk hn => ?_,
    hdel.removed⟩
  · rw [hdel.names]
    exact .inl hk
  · obtain ⟨hp, hnil⟩ := hdel.gone hk hn
    exact ⟨hdel.names.trans hnil, hp.trans (if_pos rfl).symm⟩

/-- The counter follows the directory iff the name file that is made gets its path. -/
theorem callOk_instantiated {k : Key} {path : CString} {w : Slot.Writes} {x x' : Slot} (h : x.Counted)
    (hi : Slot.Instantiated k path w x x') (hc : c.WritesOk x ↔ (x.Creates k path → Slot.Full path w)) :
    CallOk c x x' := by
  have hkeep : ∀ k ∈ x.names, k ∈ x'.names := by
    intro k' hk'
    by_cases hcr : x.Creates k path
    · exact (hi.new hcr).1.mem_iff.mpr (mem_cons_of_mem k hk')
    · exact (hi.old hcr).1.mem_iff.mpr hk'
  have hcount : c.WritesOk x ↔ x'.nrfiles = x'.names.length := by
    rw [hc]
    by_cases hcr : x.Creates k path
    · obtain ⟨hperm, hnr, _⟩ := hi.new hcr
      rw [hperm.length_eq, hnr, h.count, length_cons]
      by_cases hf : Slot.Full path w
      · rw [if_pos hf]
        exact iff_of_true (fun _ => hf) rfl
      · rw [if_neg hf]
        refine iff_of_false (fun hok => hf (hok hcr)) ?_
        omega
    · obtain ⟨hperm, hold⟩ := hi.old hcr
      rw [hperm.length_eq, (hold h.written).1, h.count]
      exact iff_of_true (fun hcr' => absurd hcr' hcr) rfl
  refine ⟨hcount, fun hn => ?_, fun hok => ⟨hcount.mp hok, ?_, ?_⟩, fun k hk => .inl (hkeep k hk), ?_, ?_⟩
  · exact hi.made (by_contra fun hcr => hn (hc.mpr fun hcr' => absurd hcr' hcr))
  · by_cases hcr : x.Creates k path
    · exact (hi.new hcr).2.2 h.written (hc.mp hok hcr)
    · exact ((hi.old hcr).2 h.written).2
  · rw [hi.nrprocs]
    exact h.procs
  · intro hk hn
    exact absurd hn (hi.known hk)
  · intro _ _ hne hp hf
    have hge : x.nrfiles ≤ x'.nrfiles := by
      by_cases hcr : x.Creates k path
      · rw [(hi.new hcr).2.1]
        split <;> omega
      · rw [((hi.old hcr).2 h.written).1]
    have hnn : 0 ≤ x.nrfiles := by
      rw [h.count]
      exact Int.natCast_nonneg _
    have := hi.nrprocs
    omega

theorem callOk_fileDeleted {k : Key} {x x' : Slot} (hd : Slot.FileDeleted k x ops x') (hw : c.WritesOk x)
    (hu : c.unlinks = some k) (hl : c.leaves c.pgid = 0) (hf : c.Fine → ops = .fine) : CallOk c x x' where
  count := iff_of_true hw hd.counted.count
  known := fun hn => absurd hw hn
  counted := fun _ => hd.counted
  kept := fun k' hk' => (hd.kept k' hk').imp_right fun he => by rw [hu, he]
  gone := by
    intro hk hn
    rw [hl]
    exact hd.gone hk hn
  removed := fun hfine _ hne hp hnr => hd.removed (hf hfine) hne hp hnr

theorem callOk (c : Call) {x : Slot} (h : x.Counted) : CallOk c x (c.run x).slot := by
  cases c with
  | add pgid proc => exact callOk_add h pgid proc
  | rename pgid proc => exact .of_same h (Slot.rename_same proc x) (.inl (Slot.rename_known proc x)) trivial
  | postexec pgid proc => exact callOk_postexec h pgid proc
  | delete pgid ops => exact callOk_delete h pgid ops
  | instantiate pgid dev ino path found w =>
    exact callOk_instantiated h (Slot.fileInstantiate_spec dev ino path found w x) .rfl
  | fileDelete pgid dev ino unlinked ops =>
    exact callOk_fileDeleted (h.fileDelete dev ino unlinked ops) trivial rfl rfl id
  | scanrequest pgid dev ino path uid w =>
    exact callOk_instantiated h (Slot.fileScanrequest_spec dev ino path uid w x) .rfl
  | unlink authUid pgid dev ino unlinked ops =>
    exact callOk_fileDeleted (h.dispatchUnlink authUid dev ino unlinked ops) trivial rfl rfl id

/-! ### Events -/

/-- The playground and the name file that an event takes away. -/
def Event.unlinks : Event → Option (ℕ × Key)
  | .fileDelete pgid dev ino _ _ | .unlinkRequest _ pgid dev ino _ _ => some (pgid, ⟨dev, ino⟩)
  | _ => none

/-- The directory operations of an event succeed. -/
def Event.Fine : Event → Prop
  | .exit _ ops | .replace _ _ ops | .destroyThread _ ops | .playgroundProc _ _ ops | .fileDelete _ _ _ _ ops
  | .unlinkRequest _ _ _ _ _ ops => ops = .fine
  | .restart ops => ∀ pgid, ops pgid = .fine
  | _ => True

/-- The processes that leave a playground in an event. -/
def leaving (s : Engine) (e : Event) (pgid : ℕ) : ℤ :=
  (handle e s.tracker).2.foldl (fun n c => n + c.leaves pgid) 0

/-- What an event may do to playgrounds and their files. A playground that is not known counts nothing. -/
structure Accounted (s : Engine) (e : Event) (s' : Engine) : Prop where
  /-- `nrfiles` is the number of name files -/
  nrfiles : ∀ pgid pg, (s'.pes.slot pgid).pg = some pg → pg.nrfiles = (s'.pes.slot pgid).names.length
  /-- a recorded name file is deleted only by the event about this file -/
  kept : ∀ pgid, ∀ k ∈ (s.pes.slot pgid).names, k ∈ (s'.pes.slot pgid).names ∨ e.unlinks = some (pgid, k)
  /-- a playground goes when the last process has left and no name file is there -/
  lifetime : ∀ pgid, (s.pes.slot pgid).pg ≠ none → (s'.pes.slot pgid).pg = none →
    (s'.pes.slot pgid).names = [] ∧ (e.Restarts ∨ (s.pes.slot pgid).nrprocs = leaving s e pgid)
  /-- and then it does go with its directory -/
  removed : e.Fine → ∀ pgid, (s.pes.slot pgid).dir ≠ none →
    e.Restarts ∨ (s.pes.slot pgid).nrprocs ≠ 0 ∨ (s.pes.slot pgid).nrfiles ≠ 0 →
    (s'.pes.slot pgid).nrprocs = 0 → (s'.pes.slot pgid).nrfiles = 0 → s'.pes.slot pgid = ⟨none, none⟩

/-- When an event makes a name file, its first path is written in full and the file is closed. -/
def NamesWritten (s : Engine) (e : Event) : Prop :=
  ∀ c ∈ (handle e s.tracker).2, c.WritesOk (s.pes.slot c.pgid)

/-- All counters are in step. -/
def InStep (s : Engine) : Prop := ∀ pgid, (s.pes.slot pgid).Counted

theorem inStep_init : InStep .init := fun _ => Slot.counted_none

/-- A slot behind an event other than a restart. -/
inductive Changed (cs : List Call) (pgid : ℕ) (x x' : Slot) : Prop where
  | frame (h : x' = x) (hn : ∀ c ∈ cs, c.pgid ≠ pgid)
  | one (c : Call) (hc : cs = [c]) (hp : c.pgid = pgid) (h : x' = (c.run x).slot)
  | move (ops : DirOps) (proc : Task) (hc : cs = [.delete pgid ops, .add pgid proc])
      (h : x' = (x.delete ops).slot.add proc)

theorem changed_calls {P : Call → Prop} {cs : List Call} (h : Calls P cs) (s : Pes) (pgid : ℕ) :
    Changed cs pgid (s.slot pgid) ((cs.foldl Pes.call s).slot pgid) := by
  cases h with
  | none => exact .frame rfl fun c hc => absurd hc not_mem_nil
  | one c =>
    by_cases hp : pgid = c.pgid
    · refine .one c rfl hp.symm ?_
      rw [foldl_cons, foldl_nil, Pes.slot_call_self s hp.symm]
    · refine .frame ?_ fun c' hc' => ?_
      · rw [foldl_cons, foldl_nil, Pes.slot_call_ne s (Ne.symm hp)]
      · rw [mem_singleton.mp hc']
        exact Ne.symm hp
  | move q ops proc =>
    by_cases hp : pgid = q
    · subst hp
      have hdel : (Call.delete pgid ops).pgid = pgid := rfl
      have hadd : (Call.add pgid proc).pgid = pgid := rfl
      refine .move ops proc rfl ?_
      rw [foldl_cons, foldl_cons, foldl_nil, Pes.slot_call_self _ hadd, Pes.slot_call_self _ hdel]
      rfl
    · have hdel : (Call.delete q ops).pgid ≠ pgid := Ne.symm hp
      have hadd : (Call.add q proc).pgid ≠ pgid := Ne.symm hp
      refine .frame ?_ fun c' hc' => ?_
      · rw [foldl_cons, foldl_cons, foldl_nil, Pes.slot_call_ne _ hadd, Pes.slot_call_ne _ hdel]
      · simp only [mem_cons, not_mem_nil, or_false] at hc'
        rcases hc' with rfl | rfl <;> exact Ne.symm hp

theorem step_changed (he : ¬ e.Restarts) (s : Engine) (pgid : ℕ) :
    Changed (handle e s.tracker).2 pgid (s.pes.slot pgid) ((step s e).pes.slot pgid) := by
  have h := changed_calls (handle_calls e s.tracker) s.pes pgid
  cases e with
  | restart ops => exact absurd trivial he
  | _ => exact h

theorem unlinks_of_fromTracker (h : c.FromTracker ops) : c.unlinks = none := by
  cases c <;> first | rfl | exact absurd h id

theorem fine_of_fromTracker (h : c.FromTracker ops) (hf : ops = .fine) : c.Fine := by
  cases c with
  | delete pgid ops' => exact h.trans hf
  | fileDelete pgid dev ino unlinked ops => exact absurd h id
  | unlink authUid pgid dev ino unlinked ops => exact absurd h id
  | _ => trivial

theorem mem_handleInstantiate {pgid dev ino : ℕ} {payload : List UInt8} {found : List Slot.Renamed}
    {w : Slot.Writes} (hc : c ∈ peHandleInstantiate pgid dev ino payload found w) : c.unlinks = none ∧ c.Fine := by
  rw [peHandleInstantiate] at hc
  dsimp only at hc
  split at hc
  · exact absurd hc not_mem_nil
  · rw [mem_singleton.mp hc]
    exact ⟨rfl, trivial⟩

/-- What a call takes away is what its event takes away. -/
theorem unlinks_of_makes (h : e.Makes c) {k : Key} (hk : c.unlinks = some k) : e.unlinks = some (c.pgid, k) := by
  cases e with
  | fileDelete pgid dev ino unlinked ops =>
    obtain rfl := mem_singleton.mp h
    exact congrArg (Option.map fun k => (pgid, k)) hk
  | unlinkRequest authUid pgid dev ino unlinked ops =>
    obtain rfl := mem_singleton.mp h
    exact congrArg (Option.map fun k => (pgid, k)) hk
  | fileScan pgid dev ino payload msgUid w =>
    obtain rfl := mem_singleton.mp h
    cases hk
  | fileInstantiate pgid dev ino payload found w =>
    cases (mem_handleInstantiate h).1.symm.trans hk
  | _ => cases (unlinks_of_fromTracker h).symm.trans hk

theorem fine_of_makes (h : e.Makes c) (hf : e.Fine) : c.Fine := by
  cases e with
  | fileDelete pgid dev ino unlinked ops =>
    obtain rfl := mem_singleton.mp h
    exact hf
  | unlinkRequest authUid pgid dev ino unlinked ops =>
    obtain rfl := mem_singleton.mp h
    exact hf
  | fileScan pgid dev ino payload msgUid w =>
    obtain rfl := mem_singleton.mp h
    trivial
  | fileInstantiate pgid dev ino payload found w => exact (mem_handleInstantiate h).2
  | exit cookie ops => exact fine_of_fromTracker h hf
  | replace cookie victim ops => exact fine_of_fromTracker h hf
  | destroyThread cookie ops => exact fine_of_fromTracker h hf
  | playgroundProc cookie pgid ops => exact fine_of_fromTracker h hf
  | _ => exact fine_of_fromTracker h rfl

theorem leaving_one (h : (handle e s.tracker).2 = [c]) : leaving s e c.pgid = c.leaves c.pgid := by
  rw [leaving, h, foldl_cons, foldl_nil, zero_add]

/-- A process that comes to a playground after another one was taken from it. -/
theorem counted_move {x : Slot} (h : x.Counted) (ops : DirOps) (proc : Task) :
    ((x.delete ops).slot.add proc).Counted ∧ ((x.delete ops).slot.add proc).names = x.names ∧
      ((x.delete ops).slot.add proc).pg ≠ none ∧ 0 < ((x.delete ops).slot.add proc).nrprocs := by
  have hdel := h.delete ops
  obtain ⟨hfiles, _, hpr, hk⟩ := Slot.add_spec proc (x.delete ops).slot
  refine ⟨(callOk_add hdel.counted 0 proc).counted trivial, ?_, hk, ?_⟩
  · rw [Slot.names, hfiles]
    exact hdel.names
  · rw [hpr]
    have := hdel.counted.procs
    omega

/-- Counters in step stay in step. -/
theorem inStep_step (h : InStep s) (hw : NamesWritten s e) : InStep (step s e) := by
  intro pgid
  by_cases he : e.Restarts
  · cases e with
    | restart ops =>
      change ((s.pes.restart ops).slot pgid).Counted
      rw [Pes.slot_restart]
      exact (Slot.read_spec (ops pgid) _ (h pgid).written).1
    | _ => exact absurd he id
  · cases step_changed he s pgid with
    | frame hx =>
      rw [hx]
      exact h pgid
    | one c hc hp hx =>
      subst hp
      rw [hx]
      exact (callOk c (h c.pgid)).counted (hw c (by rw [hc]; exact mem_singleton_self c))
    | move ops proc _ hx =>
      rw [hx]
      exact (counted_move (h pgid) ops proc).1

/-- Names that are all written leave everything accounted for. -/
theorem accounted_step (h : InStep s) (hw : NamesWritten s e) :
    Accounted s e (step s e) where
  nrfiles := by
    intro pgid pg hpg
    rw [← (inStep_step h hw pgid).count, Slot.nrfiles, hpg]
    rfl
  kept := by
    intro pgid k hk
    by_cases he : e.Restarts
    · cases e with
      | restart ops =>
        refine .inl ?_
        change k ∈ ((s.pes.restart ops).slot pgid).names
        rw [Pes.slot_restart, (Slot.read_spec (ops pgid) _ (h pgid).written).2.1]
        exact hk
      | _ => exact absurd he id
    · cases step_changed he s pgid with
      | frame hx =>
        rw [hx]
        exact .inl hk
      | one c hc hp hx =>
        subst hp
        rw [hx]
        have hmem : c ∈ (handle e s.tracker).2 := by rw [hc]; exact mem_singleton_self c
        exact ((callOk c (h c.pgid)).kept k hk).imp_right fun hu => unlinks_of_makes ((handle_calls e s.tracker).mem hmem) hu
      | move ops proc _ hx =>
        rw [hx, (counted_move (h pgid) ops proc).2.1]
        exact .inl hk
  lifetime := by
    intro pgid hk hn
    by_cases he : e.Restarts
    · cases e with
      | restart ops =>
        have hread := Slot.read_spec (ops pgid) _ (h pgid).written
        have hs : (step s (.restart ops)).pes.slot pgid = (⟨none, (s.pes.slot pgid).dir⟩ : Slot).read (ops pgid) :=
          Pes.slot_restart ops s.pes pgid
        rw [hs] at hn ⊢
        exact ⟨hread.2.1.trans (hread.2.2.2.1 hn), .inl trivial⟩
      | _ => exact absurd he id
    · cases step_changed he s pgid with
      | frame hx =>
        rw [hx] at hn
        exact absurd hn hk
      | one c hc hp hx =>
        subst hp
        rw [hx] at hn ⊢
        obtain ⟨hnil, hpr⟩ := (callOk c (h c.pgid)).gone hk hn
        exact ⟨hnil, .inr (hpr.trans (leaving_one hc).symm)⟩
      | move ops proc _ hx =>
        rw [hx] at hn
        exact absurd hn (counted_move (h pgid) ops proc).2.2.1
  removed := by
    intro hfine pgid hd hne hp hf
    by_cases he : e.Restarts
    · cases e with
      | restart ops =>
        have hread := Slot.read_spec (ops pgid) _ (h pgid).written
        have hs : (step s (.restart ops)).pes.slot pgid = (⟨none, (s.pes.slot pgid).dir⟩ : Slot).read (ops pgid) :=
          Pes.slot_restart ops s.pes pgid
        rw [hs] at hf ⊢
        exact hread.2.2.2.2 (hfine pgid) (hread.2.1.symm.trans (hread.1.names_nil hf))
      | _ => exact absurd he id
    · have hne := hne.resolve_left he
      cases step_changed he s pgid with
      | frame hx =>
        rw [hx] at hp hf
        exact absurd hne (by rw [hp, hf]; simp)
      | one c hc hp' hx =>
        subst hp'
        rw [hx] at hp hf ⊢
        have hmem : c ∈ (handle e s.tracker).2 := by rw [hc]; exact mem_singleton_self c
        exact (callOk c (h c.pgid)).removed (fine_of_makes ((handle_calls e s.tracker).mem hmem) hfine) hd hne hp hf
      | move ops proc _ hx =>
        have hpos := (counted_move (h pgid) ops proc).2.2.2
        rw [hx] at hp
        omega

/-- A name file that is left without its first path is not counted. -/
theorem namesWritten_of_accounted (h : InStep s) (ha : Accounted s e (step s e)) : NamesWritten s e := by
  intro c hc
  by_contra hw
  have he : ¬ e.Restarts := by
    cases e with
    | restart ops => exact absurd hc not_mem_nil
    | _ => exact id
  cases step_changed he s c.pgid with
  | frame hx hn => exact hn c hc rfl
  | one c' hc' hp hx =>
    rw [hc', mem_singleton] at hc
    subst hc
    obtain ⟨pg, hpg⟩ := ne_none_iff_exists'.mp ((callOk c (h c.pgid)).known hw)
    have hnr := ha.nrfiles c.pgid pg (by rw [hx, hpg])
    refine hw ((callOk c (h c.pgid)).count.mpr ?_)
    rw [← hx, ← hnr, Slot.nrfiles, hx, hpg]
    rfl
  | move ops proc hc' _ =>
    rw [hc'] at hc
    simp only [mem_cons, not_mem_nil, or_false] at hc
    rcases hc with hc | hc
    · rw [hc] at hw
      exact hw trivial
    · rw [hc] at hw
      exact hw trivial

/-- In a run from an empty directory everything is accounted for behind every event, if and only if the
    first path of every name file is written in full. -/
theorem playground_files_accounted (es : List Event) :
    Along (fun s e => some (step s e)) (fun s e => Accounted s e (step s e)) .init es ↔
      Along (fun s e => some (step s e)) NamesWritten .init es := by
  refine along_iff (I := InStep) (fun s e h => ⟨namesWritten_of_accounted h, accounted_step h⟩)
    (fun s e s' h ha hs => ?_) inStep_init es
  rw [← Option.some.inj hs]
  exact inStep_step h (namesWritten_of_accounted h ha)

/-- The path of the second name file cannot be written. When the first file goes, nothing is counted any
    more, and the second name file is deleted with the playground. -/
def shortWrite : List Event :=
  [.fileInstantiate 5 8 1 [97, 0] [] ⟨true, 2, true⟩, .fileInstantiate 5 8 2 [98, 0] [] ⟨true, 0, true⟩,
    .fileDelete 5 8 1 true .fine]

theorem short_write_loses_name :
    (((shortWrite.take 2).foldl step .init).pes.slot 5).names = [⟨8, 2⟩, ⟨8, 1⟩] ∧
      ((shortWrite.foldl step .init).pes.slot 5) = ⟨none, none⟩ ∧
      ¬ Along (fun s e => some (step s e)) (fun s e => Accounted s e (step s e)) .init shortWrite := by
  refine ⟨by decide +kernel, by decide +kernel, fun h => ?_⟩
  have hlast := ((h.2 _ rfl).2 _ rfl).1.kept 5 ⟨8, 2⟩ (by decide +kernel)
  revert hlast
  decide +kernel

end Anoubis.Pe.Pg

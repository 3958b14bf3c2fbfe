import Anoubis.Ui.PgfileCalls

/-! What `pgfile_check` and `pgfile_process` promise.

    The names that were found are counted, and the count is compared with `st_nlink`. It stands for the links if
    each of them is counted once, and the number of links stays the same while they are renamed:

        links      {k₁, k₂, k₃}  ->  {k₁', k₂, k₃}  ->  {k₁', k₂', k₃}
        counted    {}            ->  {k₁}           ->  {k₁, k₂}                             -/

namespace Anoubis.Ui

open Finset

open Anoubis.Lib List
open Anoubis.Daemon.Sfs (comps)

/-- The entry that a name leads to. -/
def Fs.entry (fs : Fs) (dirfd : Inode) (name : Text) : Option Entry :=
  if name.head? ≠ some '/' ∨ lastName name = dot ∨ lastName name = dotdot then none
  else (fs.walk dirfd (comps (splitLast (skipSlashes name)).1)).map fun d => (d, lastName name)

/-- What an entry is after its commit. -/
def committed (k : Entry) : Entry :=
  match scanName k.2 with
  | some (ch1, ch2, newname) => if ch1 = '.' ∧ ch2 = '.' then (k.1, newname) else k
  | none => k

variable {fs : Fs} {dirfd file d : Inode} {name : Text} {names : List Text}

/-- The count of the names of a file is the count of its links. -/
structure Counted (fs : Fs) (dirfd file : Inode) (names : List Text) : Prop where
  /-- The name of a directory is not in the directory itself, or below. -/
  dots : (fs.mode file).isDir → ∀ n ∈ names, lastName n ≠ dot ∧ lastName n ≠ dotdot
  /-- A whiteout has one link. -/
  whiteout : ∀ k ∈ fs.names.links file, IsWhiteout k.2 → (fs.names.links file).card ≤ 1
  /-- No two names are the same up to slashes and dots. -/
  distinct : 1 < (fs.names.links file).card → ∀ k ∈ fs.names.links file, ∀ m ∈ names, ∀ n ∈ names,
    fs.entry dirfd m = some k → fs.entry dirfd n = some k → m = n

/-- A link that one of the names leads to. -/
def Named (fs : Fs) (dirfd file : Inode) (names : List Text) (k : Entry) : Prop :=
  k ∈ fs.names.links file ∧ ∃ n ∈ names, fs.entry dirfd n = some k

/-- The new names of the links in `P` are different from each other, and from all links. -/
structure Apart (L : Finset Entry) (P : Entry → Prop) : Prop where
  fresh : ∀ k, P k → committed k ≠ k → committed k ∉ L
  injective : ∀ k, P k → ∀ k', P k' → committed k = committed k' → k = k'

/-- The new names of a file do not get in the way of its commit. -/
structure Free (fs : Fs) (dirfd file : Inode) (names : List Text) : Prop where
  /-- The directory of a whiteout can be opened. -/
  readable : ∀ k, Named fs dirfd file names k → IsWhiteout k.2 → (fs.mode k.1).read
  /-- The new names have no prefix again. -/
  plain : ∀ k, Named fs dirfd file names k → committed k ≠ k → ¬IsPlgr (committed k).2
  apart : 1 < (fs.names.links file).card → Apart (fs.names.links file) (Named fs dirfd file names)
  /-- The new names are not in the list. -/
  unnamed : 1 < (fs.names.links file).card → ∀ k, Named fs dirfd file names k → committed k ≠ k →
    ∀ n ∈ names, fs.entry dirfd n ≠ some (committed k)

theorem committed_plgr {k : Entry} {number newname : Text} (hn : IsNumber number)
    (h : k.2 = plgrName '.' number newname) : committed k = (k.1, newname) := by
  rw [committed, scanName_iff.mpr ⟨number, hn, h⟩]
  rfl

theorem notPlgr_of_committed {k : Entry} (h : committed k = k) (hw : ¬IsWhiteout k.2) : ¬IsPlgr k.2 := by
  rintro ⟨c, number, rest, rfl | rfl, hn, hname⟩
  · rw [committed_plgr hn hname] at h
    have hrest : rest = plgrName '.' number rest := (congrArg Prod.snd h).trans hname
    exact (plgrName_ne '.' number rest).2.2 hrest.symm
  · exact hw ⟨number, rest, hn, hname⟩

theorem committed_plain {k : Entry} (h : ¬IsPlgr k.2) : committed k = k := by
  rw [committed]
  split
  · rename_i c1 c2 newname hscan
    by_cases hc : c1 = '.' ∧ c2 = '.'
    · obtain ⟨rfl, rfl⟩ := hc
      obtain ⟨number, hn, heq⟩ := scanName_iff.mp hscan
      exact absurd ⟨'.', number, newname, .inl rfl, hn, heq⟩ h
    · exact if_neg hc
  · rfl

section

variable (h : Leads fs dirfd file name d)
include h

/-- A name that leads to a file is not `.` or `..`. -/
theorem Leads.proper (hdots : (fs.mode file).isDir → lastName name ≠ dot ∧ lastName name ≠ dotdot) :
    lastName name ≠ dot ∧ lastName name ≠ dotdot := by
  by_cases hdir : (fs.mode file).isDir
  · exact hdots hdir
  · have hstep := h.step
    rw [Fs.step] at hstep
    refine ⟨fun hdot => hdir ?_, fun hdd => hdir ?_⟩
    · rw [if_pos hdot] at hstep
      exact Option.some.inj hstep ▸ h.isDir
    · rw [hdd, if_neg (by decide), if_pos rfl] at hstep
      exact Option.some.inj hstep ▸ fs.parentDir d h.isDir

section

variable (hp : lastName name ≠ dot ∧ lastName name ≠ dotdot)
include hp

/-- The entry depends on the directories only. -/
theorem Leads.entry_of_sameDirs {fs₀ : Fs} (hsame : Fs.SameDirs fs fs₀) :
    fs₀.entry dirfd name = some (d, lastName name) := by
  rw [Fs.entry, if_neg (by simp [h.slash, hp.1, hp.2]), hsame.walk h.isDir h.walk]
  rfl

theorem Leads.entry : fs.entry dirfd name = some (d, lastName name) := h.entry_of_sameDirs hp (Fs.SameDirs.refl fs)

theorem Leads.mem_links : (d, lastName name) ∈ fs.names.links file := NameTable.mem_links.mpr (h.lookup hp.1 hp.2)

end

end

/-- The count of a file with several links. -/
theorem validate_several (h : validateOneName fs dirfd file name ≠ 0) (hseveral : 1 < (fs.names.links file).card)
    (hw : ¬IsWhiteout (lastName name)) : validateOneName fs dirfd file name = (fs.names.links file).card := by
  rcases (validateOneName_ne h).2 with heq | ⟨hw', -⟩
  · have hdir : ¬(fs.mode file).isDir := fun hdir => absurd (fs.single file hdir) (by omega)
    rw [heq, if_neg hdir]
    rfl
  · exact absurd hw' hw

/-! ### Checking -/

/-- Names that are counted lead to links of the file, each to another one. -/
theorem checkNames_spec (hc : Counted fs dirfd file names) (pre rest : List Text) (hnames : names = pre ++ rest)
    (hnodup : names.Nodup) {Q : Finset Entry} {total found : ℤ} (hQ : Q ⊆ fs.names.links file)
    (hpre : ∀ k ∈ Q, ∃ n ∈ pre, fs.entry dirfd n = some k) (htotal : total = 0 ∨ 0 < Q.card)
    (hseveral : 1 < (fs.names.links file).card → found = Q.card ∧ (total = 0 ∨ total = (fs.names.links file).card))
    (h : checkNames fs dirfd file false rest total found = 0) {k : Entry} (hk : k ∈ fs.names.links file) :
    ∃ n ∈ names, fs.entry dirfd n = some k := by
  induction rest generalizing pre Q total found with
  | nil =>
    rw [checkNames] at h
    by_cases h0 : total = 0
    · rw [if_pos h0] at h
      exact absurd h (by decide)
    rw [if_neg h0] at h
    have hle : total ≤ found := by
      by_contra hgt
      rw [if_pos (by omega)] at h
      exact absurd h (by decide)
    have hcard : (fs.names.links file).card ≤ Q.card := by
      by_cases hone : 1 < (fs.names.links file).card
      · obtain ⟨hfound, htotal⟩ := hseveral hone
        omega
      · have := htotal.resolve_left h0
        omega
    rw [← eq_of_subset_of_card_le hQ hcard] at hk
    obtain ⟨n, hn, hentry⟩ := hpre k hk
    exact ⟨n, by rw [hnames]; exact mem_append_left _ hn, hentry⟩
  | cons name rest ih =>
    have hnames' : names = (pre ++ [name]) ++ rest := by rw [hnames, append_assoc]; rfl
    have hmem : name ∈ names := by rw [hnames]; simp
    rw [checkNames] at h
    by_cases h0 : validateOneName fs dirfd file name = 0
    · rw [if_pos h0] at h
      refine ih _ hnames' hQ (fun k hk => ?_) htotal hseveral h
      obtain ⟨n, hn, hentry⟩ := hpre k hk
      exact ⟨n, mem_append_left _ hn, hentry⟩
    rw [if_neg h0] at h
    obtain ⟨⟨d, hd⟩, -⟩ := validateOneName_ne h0
    have hp := hd.proper fun hdir => hc.dots hdir name hmem
    have hlink := hd.mem_links hp
    have hentry := hd.entry hp
    refine ih (Q := insert (d, lastName name) Q) _ hnames' (insert_subset hlink hQ) (fun k hk => ?_)
      (.inr (card_pos.mpr ⟨_, mem_insert_self _ _⟩)) (fun hone => ?_) h
    · rcases mem_insert.mp hk with rfl | hk
      · exact ⟨name, by simp, hentry⟩
      · obtain ⟨n, hn, hentry⟩ := hpre k hk
        exact ⟨n, mem_append_left _ hn, hentry⟩
    · have hnew : (d, lastName name) ∉ Q := by
        intro hmemQ
        obtain ⟨n, hn, hentry'⟩ := hpre _ hmemQ
        have hn' : n ∈ names := by rw [hnames]; exact mem_append_left _ hn
        have hsame := hc.distinct hone _ hlink n hn' name hmem hentry' hentry
        rw [hnames, nodup_append] at hnodup
        exact hnodup.2.2 n hn name mem_cons_self hsame
      have hw : ¬IsWhiteout (lastName name) := fun hw => absurd (hc.whiteout _ hlink hw) (by omega)
      refine ⟨?_, .inr (validate_several h0 hone hw)⟩
      rw [(hseveral hone).1, card_insert_of_notMem hnew]
      omega

theorem check_spec {mounts : ℕ → Option Inode} (hm : mounts file.dev = some dirfd)
    (hc : Counted fs dirfd file (normalizeFileList names)) (h : pgfileCheck mounts fs file names false = 0) :
    ∀ k ∈ fs.names.links file, ∃ n ∈ normalizeFileList names, fs.entry dirfd n = some k := by
  intro k hk
  rw [pgfileCheck, hm] at h
  exact checkNames_spec (Q := ∅) hc [] _ rfl (nodup_normalizeFileList names) (empty_subset _)
    (fun k hk => absurd hk (notMem_empty k)) (.inl rfl) (fun _ => ⟨rfl, .inl rfl⟩) h hk

/-! ### Committing -/

variable {s : Commit} {number newname : Text}

theorem fail_reason (s : Commit) {errno : ℤ} (h : errno ≠ 0) : (s.fail errno).reason ≠ 0 := by
  rw [show (s.fail errno).reason = if s.reason = 0 then -errno else s.reason from rfl]
  split
  · omega
  · assumption

/-- A whiteout is gone, or there is a reason for that it is not. -/
theorem removeFile_spec (s : Commit) (d : Inode) (oldname newname : Text) :
    (s.removeFile d oldname newname).reason ≠ 0 ∨
      ((s.removeFile d oldname newname).fs.names.links file ⊆ (s.fs.names.links file).erase (d, oldname)) := by
  obtain ⟨hfs, -⟩ := removeOriginal_spec s d newname
  have hsub : (s.removeOriginal d newname).2.fs.names.links file ⊆ s.fs.names.links file := by
    rcases hfs with hfs | hfs
    · rw [hfs]
    · rw [hfs, show (s.fs.drop (d, newname)).names = s.fs.names.drop (d, newname) from rfl, NameTable.links_drop]
      exact erase_subset _ _
  rw [Commit.removeFile]
  by_cases hret : (s.removeOriginal d newname).1 ≠ 0 ∧ (s.removeOriginal d newname).1 ≠ enoent
  · rw [if_pos hret]
    exact .inl (fail_reason _ hret.1)
  rw [if_neg hret]
  dsimp only
  by_cases hok : ((s.removeOriginal d newname).2.perform (.unlink d oldname)).1 ≠ 0
  · rw [if_pos hok]
    exact .inl (fail_reason _ hok)
  · rw [if_neg hok]
    right
    rcases (s.removeOriginal d newname).2.fs.unlinkat_cases d oldname false with ⟨hne, -⟩ | ⟨i, -, -, h⟩
    · exact absurd hne hok
    · have hdrop : ((s.removeOriginal d newname).2.perform (.unlink d oldname)).2.fs =
          (s.removeOriginal d newname).2.fs.drop (d, oldname) := congrArg Prod.snd h
      rw [hdrop, show ∀ f : Fs, (f.drop (d, oldname)).names = f.names.drop (d, oldname) from fun _ => rfl,
        NameTable.links_drop]
      exact erase_subset_erase _ hsub

/-- A file has its new name, or there is a reason for that it has not; the whiteout beside it is no directory. -/
theorem renameFile_spec (s : Commit) (d : Inode) (hl : s.fs.names.lookup (d, plgrName '.' number newname) = some file) :
    (s.renameFile d (plgrName '.' number newname) newname).reason ≠ 0 ∨
      ∃ fs₁, ((s.fs.names.lookup (d, newname) = some file ∧ fs₁ = s.fs) ∨
          (fs₁ = s.fs.move (d, plgrName '.' number newname) (d, newname) file hl ∧
            ∀ j, s.fs.names.lookup (d, newname) = some j → (s.fs.mode j).isDir = (s.fs.mode file).isDir)) ∧
        ((s.renameFile d (plgrName '.' number newname) newname).fs = fs₁ ∨
          ∃ j, fs₁.names.lookup (d, plgrName 'D' number newname) = some j ∧ (fs₁.mode j).isDir = false ∧
            (s.renameFile d (plgrName '.' number newname) newname).fs = fs₁.drop (d, plgrName 'D' number newname)) ∧
        (s.renameFile d (plgrName '.' number newname) newname).totallinks = s.totallinks ∧
        (s.renameFile d (plgrName '.' number newname) newname).renamedok = s.renamedok := by
  rw [Commit.renameFile, plgrName_set]
  by_cases hok : (s.perform (.rename d (plgrName '.' number newname) newname)).1 ≠ 0
  · rw [if_pos hok]
    exact .inl (fail_reason _ hok)
  rw [if_neg hok]
  refine .inr ⟨(s.perform (.rename d (plgrName '.' number newname) newname)).2.fs, ?_, ?_, rfl, rfl⟩
  · rcases s.fs.renameat_cases d (plgrName '.' number newname) newname with ⟨hne, -⟩ | ⟨i, hi, -, h⟩
    · exact absurd hne hok
    · obtain rfl : i = file := Option.some.inj (hi.symm.trans hl)
      exact h
  · rcases (s.perform (.rename d (plgrName '.' number newname) newname)).2.fs.unlinkat_cases d
      (plgrName 'D' number newname) false with ⟨-, h⟩ | ⟨j, hj, hdir, h⟩
    · exact .inl h
    · exact .inr ⟨j, hj, hdir, congrArg Prod.snd h⟩

theorem reason_removeFile (h : s.reason ≠ 0) (d : Inode) (oldname newname : Text) :
    (s.removeFile d oldname newname).reason ≠ 0 := by
  have hr : (s.removeOriginal d newname).2.reason ≠ 0 := by
    rw [(removeOriginal_spec s d newname).2.2.2]
    exact h
  rw [Commit.removeFile]
  by_cases hret : (s.removeOriginal d newname).1 ≠ 0 ∧ (s.removeOriginal d newname).1 ≠ enoent
  · rw [if_pos hret]
    exact fail_reason _ hret.1
  rw [if_neg hret]
  dsimp only
  by_cases hok : ((s.removeOriginal d newname).2.perform (.unlink d oldname)).1 ≠ 0
  · rw [if_pos hok]
    exact fail_reason _ hok
  · rw [if_neg hok]
    exact hr

theorem reason_renameFile (h : s.reason ≠ 0) (d : Inode) (oldname newname : Text) :
    (s.renameFile d oldname newname).reason ≠ 0 := by
  rw [Commit.renameFile]
  by_cases hok : (s.perform (.rename d oldname newname)).1 ≠ 0
  · rw [if_pos hok]
    exact fail_reason _ hok
  · rw [if_neg hok]
    exact h

/-- A reason that was given stays. -/
theorem reason_processName (h : s.reason ≠ 0) (dirfd file : Inode) (name : Text) :
    (s.processName dirfd file name).reason ≠ 0 := by
  have hcounted (nlink : ℤ) : (s.counted nlink).reason ≠ 0 := h
  rcases s.processName_cases dirfd file name with
    ⟨-, heq⟩ | ⟨d, -, -, ⟨-, heq⟩ | ⟨-, heq⟩ | ⟨number, newname, -, -, heq⟩ | ⟨number, newname, -, -, heq⟩⟩
  · rw [heq]
    exact h
  · rw [heq]
    exact h
  · rw [heq]
    exact h
  · rw [heq]
    exact reason_removeFile (hcounted _) d _ newname
  · rw [heq]
    exact reason_renameFile (hcounted _) d _ newname

/-! ### A file with one link -/

variable {fs₀ : Fs}

/-- The link of a file is committed once, whatever the list says. -/
structure Untouched (fs₀ : Fs) (s : Commit) : Prop where
  fs : s.fs = fs₀
  renamedok : s.renamedok = 0
  totallinks : s.totallinks = 0 ∨ s.totallinks = 1

def SingleInv (fs₀ : Fs) (file : Inode) (s : Commit) : Prop :=
  s.reason ≠ 0 ∨ (∀ k ∈ s.fs.names.links file, ¬IsPlgr k.2) ∨ Untouched fs₀ s

theorem eq_of_card_le {A : Finset Entry} {k k' : Entry} (h : A.card ≤ 1) (hk : k ∈ A) (hk' : k' ∈ A) : k = k' :=
  card_le_one.mp h k hk k' hk'

/-- The link has its new name, and that is the only link. -/
theorem single_renameFile (hone : (s.fs.names.links file).card ≤ 1)
    (hl : s.fs.names.lookup (d, plgrName '.' number newname) = some file) (hplain : ¬IsPlgr newname) :
    (s.renameFile d (plgrName '.' number newname) newname).reason ≠ 0 ∨
      ∀ k ∈ (s.renameFile d (plgrName '.' number newname) newname).fs.names.links file, ¬IsPlgr k.2 := by
  have hold : (d, plgrName '.' number newname) ∈ s.fs.names.links file := NameTable.mem_links.mpr hl
  rcases renameFile_spec s d hl with h | ⟨fs₁, hmove, hfs, -, -⟩
  · exact .inl h
  right
  have hlinks : ∀ k ∈ fs₁.names.links file, k = (d, newname) := by
    intro k hk
    rcases hmove with ⟨hsame, rfl⟩ | ⟨rfl, -⟩
    · exact eq_of_card_le hone hk (NameTable.mem_links.mpr hsame)
    · have hmoved : k ∈ (s.fs.names.move (d, plgrName '.' number newname) (d, newname) file).links file := hk
      rw [NameTable.links_move, mem_insert, mem_erase] at hmoved
      rcases hmoved with hk | ⟨hne, hk⟩
      · exact hk
      · exact absurd (eq_of_card_le hone hk hold) hne
  intro k hk
  have hk₁ : k ∈ fs₁.names.links file := by
    rcases hfs with hfs | ⟨j, -, -, hfs⟩
    · rwa [hfs] at hk
    · have hdrop : k ∈ (fs₁.names.drop (d, plgrName 'D' number newname)).links file := by rwa [hfs] at hk
      rw [NameTable.links_drop] at hdrop
      exact mem_of_mem_erase hdrop
  rw [hlinks k hk₁]
  exact hplain

/-- While its link is untouched, the count of the file is one. -/
theorem single_validate (hone : (fs.names.links file).card ≤ 1) (hlink : (d, lastName name) ∈ fs.names.links file)
    (h : validateOneName fs dirfd file name ≠ 0) (hw : ¬IsWhiteout (lastName name)) :
    validateOneName fs dirfd file name = 1 := by
  have hcard : (fs.names.links file).card = 1 := le_antisymm hone (card_pos.mpr ⟨_, hlink⟩)
  rcases (validateOneName_ne h).2 with heq | ⟨hw', -⟩
  · rw [heq, Fs.nlink, hcard]
    exact ite_self 1
  · exact absurd hw' hw

theorem single_processName (hc : Counted fs₀ dirfd file names) (hf : Free fs₀ dirfd file names)
    (hone : (fs₀.names.links file).card ≤ 1) (hname : name ∈ names) (h : SingleInv fs₀ file s) :
    SingleInv fs₀ file (s.processName dirfd file name) := by
  rcases h with h | h | h
  · exact .inl (reason_processName h dirfd file name)
  · -- no name is left that could be committed
    have hno {d : Inode} {c : Char} {number newname : Text} (hd : Leads s.fs dirfd file name d)
        (hcc : c = '.' ∨ c = 'D') (hn : IsNumber number) (hlast : lastName name = plgrName c number newname) : False :=
      h _ (NameTable.mem_links.mpr (hd.lookup_plgr hlast)) ⟨c, number, newname, hcc, hn, rfl⟩
    rcases s.processName_cases dirfd file name with
      ⟨-, heq⟩ | ⟨d, hd, -, ⟨-, heq⟩ | ⟨-, heq⟩ | ⟨number, newname, hn, hlast, -⟩ | ⟨number, newname, hn, hlast, -⟩⟩
    · rw [heq]
      exact .inr (.inl h)
    · rw [heq]
      exact .inr (.inl h)
    · rw [heq]
      exact .inr (.inl h)
    · exact absurd (hno hd (.inr rfl) hn hlast) id
    · exact absurd (hno hd (.inl rfl) hn hlast) id
  · obtain ⟨rfl, hok, htotal⟩ := h
    rcases s.processName_cases dirfd file name with ⟨-, heq⟩ | ⟨d, hd, h0, hcase⟩
    · rw [heq]
      exact .inr (.inr ⟨rfl, hok, htotal⟩)
    have hp := hd.proper fun hdir => hc.dots hdir name hname
    have hlink := hd.mem_links hp
    have hnamed : Named s.fs dirfd file names (d, lastName name) := ⟨hlink, name, hname, hd.entry hp⟩
    rcases hcase with
      ⟨hread, heq⟩ | ⟨hplain, heq⟩ | ⟨number, newname, hn, hlast, heq⟩ | ⟨number, newname, hn, hlast, heq⟩
    · -- the directory cannot be opened
      have hw : ¬IsWhiteout (lastName name) := fun hw => by simp [hf.readable _ hnamed hw] at hread
      rw [heq]
      exact .inr (.inr ⟨rfl, hok, .inr (single_validate hone hlink h0 hw)⟩)
    · rw [heq]
      refine .inr (.inl fun k hk => ?_)
      rw [eq_of_card_le hone hk hlink]
      exact hplain
    · rw [hlast] at hlink
      rw [heq]
      rcases removeFile_spec (s.counted (validateOneName s.fs dirfd file name)) d (plgrName 'D' number newname)
        newname with hr | hsub
      · exact .inl hr
      · refine .inr (.inl fun k hk => ?_)
        obtain ⟨hne, hk⟩ := mem_erase.mp (hsub hk)
        exact absurd (eq_of_card_le hone hk hlink) hne
    · rw [hlast] at hlink hnamed
      have hcommitted := committed_plgr (k := (d, plgrName '.' number newname)) hn rfl
      have hplain := hf.plain _ hnamed (by
        rw [hcommitted]
        exact fun h => (plgrName_ne '.' number newname).2.2 (Prod.mk.inj h).2.symm)
      rw [hcommitted] at hplain
      rw [heq]
      exact (single_renameFile (s := s.counted _) hone (NameTable.mem_links.mp hlink) hplain).imp_right .inl

/-! ### A file with several links -/

/-- The links in `Q` are committed, the others as they were. -/
def linksAfter (L Q : Finset Entry) : Finset Entry := Q.image committed ∪ (L \ Q)

variable {L Q : Finset Entry} {P : Entry → Prop} {k : Entry}

theorem committed_notMem (h : Apart L P) (hQ : ∀ k ∈ Q, P k) (hk : k ∈ Q) : committed k ∉ L \ Q := by
  intro hmem
  obtain ⟨hL, hnot⟩ := mem_sdiff.mp hmem
  by_cases hsame : committed k = k
  · rw [hsame] at hnot
    exact hnot hk
  · exact h.fresh k (hQ k hk) hsame hL

/-- No link is lost. -/
theorem card_linksAfter (h : Apart L P) (hQ : ∀ k ∈ Q, P k) (hL : Q ⊆ L) : (linksAfter L Q).card = L.card := by
  have hdisj : Disjoint (Q.image committed) (L \ Q) := by
    rw [Finset.disjoint_left]
    intro x hx
    obtain ⟨k, hk, rfl⟩ := Finset.mem_image.mp hx
    exact committed_notMem h hQ hk
  have hinj : Set.InjOn committed (Q : Set Entry) := fun k hk k' hk' heq => h.injective k (hQ k hk) k' (hQ k' hk') heq
  rw [linksAfter, card_union_of_disjoint hdisj, card_image_of_injOn hinj, card_sdiff_of_subset hL]
  have := card_le_card hL
  omega

/-- One more link is committed. -/
theorem linksAfter_insert (h : Apart L P) (hQ : ∀ k ∈ Q, P k) (hk : k ∈ L \ Q) :
    linksAfter L (insert k Q) = insert (committed k) ((linksAfter L Q).erase k) := by
  have himage : k ∉ Q.image committed := by
    intro hmem
    obtain ⟨k', hk', heq⟩ := Finset.mem_image.mp hmem
    exact committed_notMem h hQ hk' (heq ▸ hk)
  rw [linksAfter, linksAfter, image_insert, erase_union_distrib, erase_eq_of_notMem himage,
    insert_union, sdiff_insert]

/-- The new name of a link is no link so far. -/
theorem committed_notMem_linksAfter (h : Apart L P) (hQ : ∀ k ∈ Q, P k) (hk : P k) (hkQ : k ∉ Q)
    (hmoves : committed k ≠ k) : committed k ∉ linksAfter L Q := by
  rw [linksAfter, mem_union, not_or]
  refine ⟨fun hmem => ?_, fun hmem => h.fresh k hk hmoves (mem_sdiff.mp hmem).1⟩
  obtain ⟨k', hk', heq⟩ := Finset.mem_image.mp hmem
  rw [h.injective k hk k' (hQ k' hk') heq.symm] at hkQ
  exact hkQ hk'

/-- The links in `Q` were found in the names so far, and have been committed. -/
structure Renamed (fs₀ : Fs) (dirfd file : Inode) (pre : List Text) (Q : Finset Entry) (s : Commit) : Prop where
  named : ∀ k ∈ Q, Named fs₀ dirfd file pre k
  dirs : Fs.SameDirs fs₀ s.fs
  links : s.fs.names.links file = linksAfter (fs₀.names.links file) Q
  renamedok : s.renamedok = Q.card
  totallinks : s.totallinks = 0 ∨ s.totallinks = (fs₀.names.links file).card

def SeveralInv (fs₀ : Fs) (dirfd file : Inode) (pre : List Text) (s : Commit) : Prop :=
  s.reason ≠ 0 ∨ ∃ Q, Renamed fs₀ dirfd file pre Q s

theorem Named.mono {pre : List Text} (h : Named fs dirfd file pre k) (hsub : ∀ n ∈ pre, n ∈ names) :
    Named fs dirfd file names k := by
  obtain ⟨hlink, n, hn, hentry⟩ := h
  exact ⟨hlink, n, hsub n hn, hentry⟩

variable {pre : List Text}

/-- A name that leads to the file leads to a link that is not committed yet. -/
theorem Renamed.found (h : Renamed fs₀ dirfd file pre Q s) (hc : Counted fs₀ dirfd file names)
    (hf : Free fs₀ dirfd file names) (hseveral : 1 < (fs₀.names.links file).card) (hpre : ∀ n ∈ pre, n ∈ names)
    (hname : name ∈ names) (hnew : name ∉ pre) (hd : Leads s.fs dirfd file name d) :
    (d, lastName name) ∈ fs₀.names.links file \ Q ∧ fs₀.entry dirfd name = some (d, lastName name) := by
  have hnodir : ¬(s.fs.mode file).isDir := by
    rw [h.dirs.mode]
    exact fun hdir => absurd (fs₀.single file hdir) (by omega)
  have hp := hd.proper fun hdir => absurd hdir hnodir
  have hentry := hd.entry_of_sameDirs hp h.dirs.symm
  have hlink := hd.mem_links hp
  rw [h.links, linksAfter, mem_union] at hlink
  rcases hlink with hlink | hlink
  · -- committed links are not led to by the names that are left
    obtain ⟨k, hk, heq⟩ := Finset.mem_image.mp hlink
    obtain ⟨hkL, n, hn, hkn⟩ := h.named k hk
    by_cases hsame : committed k = k
    · rw [← hsame, heq] at hkn hkL
      rw [hc.distinct hseveral _ hkL name hname n (hpre n hn) hentry hkn] at hnew
      exact absurd hn hnew
    · exact absurd (heq ▸ hentry) (hf.unnamed hseveral k ((h.named k hk).mono hpre) hsame name hname)
  · exact ⟨hlink, hentry⟩

theorem linksAfter_noWhiteout (hc : Counted fs₀ dirfd file names) (hf : Free fs₀ dirfd file names)
    (hseveral : 1 < (fs₀.names.links file).card) (hQ : ∀ k ∈ Q, Named fs₀ dirfd file names k) {name : Text}
    (hw : IsWhiteout name) : (d, name) ∉ linksAfter (fs₀.names.links file) Q := by
  have hno (k : Entry) (hk : k ∈ fs₀.names.links file) : ¬IsWhiteout k.2 := fun hw =>
    absurd (hc.whiteout k hk hw) (by omega)
  rw [linksAfter, mem_union, not_or]
  refine ⟨fun hmem => ?_, fun hmem => hno _ (mem_sdiff.mp hmem).1 hw⟩
  obtain ⟨k, hk, heq⟩ := Finset.mem_image.mp hmem
  by_cases hsame : committed k = k
  · refine hno k (hQ k hk).1 ?_
    rw [← hsame, heq]
    exact hw
  · refine hf.plain k (hQ k hk) hsame ?_
    obtain ⟨number, rest, hn, hname⟩ := hw
    rw [heq]
    exact ⟨'D', number, rest, .inr rfl, hn, hname⟩

/-- A file that gets a new name is renamed, and that is all that happens to its links. -/
theorem several_renameFile (hl : s.fs.names.lookup (d, plgrName '.' number newname) = some file)
    (hfile : (s.fs.mode file).isDir = false) (hnew : (d, newname) ∉ s.fs.names.links file)
    (hbeside : (d, plgrName 'D' number newname) ∉ insert (d, newname) (s.fs.names.links file)) :
    (s.renameFile d (plgrName '.' number newname) newname).reason ≠ 0 ∨
      (Fs.SameDirs s.fs (s.renameFile d (plgrName '.' number newname) newname).fs ∧
        (s.renameFile d (plgrName '.' number newname) newname).fs.names.links file =
          insert (d, newname) ((s.fs.names.links file).erase (d, plgrName '.' number newname)) ∧
        (s.renameFile d (plgrName '.' number newname) newname).totallinks = s.totallinks ∧
        (s.renameFile d (plgrName '.' number newname) newname).renamedok = s.renamedok) := by
  rcases renameFile_spec s d hl with h | ⟨fs₁, hmove, hfs, htotal, hok⟩
  · exact .inl h
  right
  rcases hmove with ⟨hsame, -⟩ | ⟨rfl, hkind⟩
  · exact absurd (NameTable.mem_links.mpr hsame) hnew
  have hdirs : Fs.SameDirs s.fs (s.fs.move (d, plgrName '.' number newname) (d, newname) file hl) :=
    Fs.sameDirs_move hl hfile fun j hj => (hkind j hj).trans hfile
  have hlinks : (s.fs.move (d, plgrName '.' number newname) (d, newname) file hl).names.links file =
      insert (d, newname) ((s.fs.names.links file).erase (d, plgrName '.' number newname)) := NameTable.links_move
  rcases hfs with hfs | ⟨j, hj, hdir, hfs⟩
  · rw [hfs]
    exact ⟨hdirs, hlinks, htotal, hok⟩
  · rw [hfs]
    refine ⟨hdirs.trans (Fs.sameDirs_drop hj hdir), ?_, htotal, hok⟩
    have hdrop (f : Fs) (k : Entry) : (f.drop k).names.links file = (f.names.links file).erase k := NameTable.links_drop
    rw [hdrop, hlinks]
    refine erase_eq_of_notMem fun hmem => hbeside ?_
    exact insert_subset_insert _ (erase_subset _ _) hmem

theorem several_processName (hc : Counted fs₀ dirfd file names) (hf : Free fs₀ dirfd file names)
    (hseveral : 1 < (fs₀.names.links file).card) (hpre : ∀ n ∈ pre, n ∈ names) (hname : name ∈ names)
    (hnew : name ∉ pre) (h : SeveralInv fs₀ dirfd file pre s) :
    SeveralInv fs₀ dirfd file (pre ++ [name]) (s.processName dirfd file name) := by
  rcases h with h | ⟨Q, h⟩
  · exact .inl (reason_processName h dirfd file name)
  have hmono {k : Entry} (hk : Named fs₀ dirfd file pre k) : Named fs₀ dirfd file (pre ++ [name]) k :=
    hk.mono fun n hn => mem_append_left _ hn
  have hstay (s' : Commit) (hfs : s'.fs = s.fs) (hok : s'.renamedok = s.renamedok)
      (htotal : s'.totallinks = 0 ∨ s'.totallinks = (fs₀.names.links file).card) :
      SeveralInv fs₀ dirfd file (pre ++ [name]) s' :=
    .inr ⟨Q, fun k hk => hmono (h.named k hk), hfs ▸ h.dirs, hfs ▸ h.links, hok ▸ h.renamedok, htotal⟩
  rcases s.processName_cases dirfd file name with ⟨-, heq⟩ | ⟨d, hd, h0, hcase⟩
  · rw [heq]
    exact hstay s rfl rfl h.totallinks
  obtain ⟨hk, hentry⟩ := h.found hc hf hseveral hpre hname hnew hd
  obtain ⟨hkL, hkQ⟩ := mem_sdiff.mp hk
  have hnamed : Named fs₀ dirfd file (pre ++ [name]) (d, lastName name) := ⟨hkL, name, by simp, hentry⟩
  have hnamed' : Named fs₀ dirfd file names (d, lastName name) := ⟨hkL, name, hname, hentry⟩
  have hQ : ∀ k ∈ Q, Named fs₀ dirfd file names k := fun k hk => (h.named k hk).mono hpre
  have hapart := hf.apart hseveral
  have hcard : (s.fs.names.links file).card = (fs₀.names.links file).card := by
    rw [h.links, card_linksAfter hapart hQ fun k hk => (hQ k hk).1]
  -- a file with several links has no whiteout
  have hw : ¬IsWhiteout (lastName name) := fun hw => absurd (hc.whiteout _ hkL hw) (by omega)
  have htotal : validateOneName s.fs dirfd file name = (fs₀.names.links file).card := by
    rw [validate_several h0 (by omega) hw, hcard]
  have hinsert : ∀ k ∈ insert (d, lastName name) Q, Named fs₀ dirfd file (pre ++ [name]) k := by
    intro k hk
    rcases mem_insert.mp hk with rfl | hk
    · exact hnamed
    · exact hmono (h.named k hk)
  have hok : s.renamedok + 1 = (insert (d, lastName name) Q).card := by
    rw [h.renamedok, card_insert_of_notMem hkQ]
    omega
  rcases hcase with ⟨-, heq⟩ | ⟨hplain, heq⟩ | ⟨number, newname, hn, hlast, -⟩ | ⟨number, newname, hn, hlast, heq⟩
  · rw [heq]
    exact hstay _ rfl rfl (.inr htotal)
  · rw [heq]
    refine .inr ⟨_, hinsert, h.dirs, ?_, hok, .inr htotal⟩
    have hmem : (d, lastName name) ∈ linksAfter (fs₀.names.links file) Q := mem_union_right _ hk
    rw [linksAfter_insert hapart hQ hk, committed_plain (k := (d, lastName name)) hplain, insert_erase hmem]
    exact h.links
  · exact absurd ⟨number, newname, hn, hlast⟩ hw
  · rw [hlast] at hk hkQ hnamed' hinsert hok
    have hcommitted := committed_plgr (k := (d, plgrName '.' number newname)) hn rfl
    have hmoves : committed (d, plgrName '.' number newname) ≠ (d, plgrName '.' number newname) := by
      rw [hcommitted]
      exact fun h => (plgrName_ne '.' number newname).2.2 (Prod.mk.inj h).2.symm
    have hfile : (s.fs.mode file).isDir = false := by
      rw [h.dirs.mode, Bool.eq_false_iff]
      exact fun hdir => absurd (fs₀.single file hdir) (by omega)
    have hnewlink := committed_notMem_linksAfter hapart hQ hnamed' hkQ hmoves
    have hplain := hf.plain _ hnamed' hmoves
    rw [hcommitted] at hnewlink hplain
    have hbeside : (d, plgrName 'D' number newname) ∉ insert (d, newname) (s.fs.names.links file) := by
      rw [mem_insert, not_or, h.links]
      exact ⟨fun heq => absurd (Prod.mk.inj heq).2 (plgrName_ne 'D' number newname).2.2,
        linksAfter_noWhiteout hc hf hseveral hQ ⟨number, newname, hn, rfl⟩⟩
    rw [heq]
    rcases several_renameFile (s := s.counted _) (hd.lookup_plgr hlast) hfile (h.links ▸ hnewlink) hbeside with
      hr | ⟨hdirs, hlinks, htotal', hok'⟩
    · exact .inl hr
    · refine .inr ⟨_, hinsert, h.dirs.trans hdirs, ?_, hok'.trans hok, .inr (htotal'.trans htotal)⟩
      rw [linksAfter_insert hapart hQ hk, hcommitted, hlinks, ← h.links]
      rfl

/-- All names of the list, one after the other. -/
theorem several_run (hc : Counted fs₀ dirfd file names) (hf : Free fs₀ dirfd file names)
    (hseveral : 1 < (fs₀.names.links file).card) (hnodup : names.Nodup) {rest : List Text}
    (hnames : names = pre ++ rest) (h : SeveralInv fs₀ dirfd file pre s) :
    SeveralInv fs₀ dirfd file names (rest.foldl (Commit.processName dirfd file) s) := by
  induction rest generalizing pre s with
  | nil =>
    rw [hnames, append_nil]
    exact h
  | cons name rest ih =>
    have hpre : ∀ n ∈ pre, n ∈ names := fun n hn => by rw [hnames]; exact mem_append_left _ hn
    have hname : name ∈ names := by rw [hnames]; simp
    have hnew : name ∉ pre := by
      rw [hnames, nodup_append] at hnodup
      exact fun hmem => hnodup.2.2 name hmem name mem_cons_self rfl
    rw [foldl_cons]
    exact ih (by rw [hnames, append_assoc]; rfl) (several_processName hc hf hseveral hpre hname hnew h)

/-- A file that is committed has lost all its names in the playground. -/
theorem process_spec {mounts : ℕ → Option Inode} (hm : mounts file.dev = some dirfd)
    (hc : Counted fs dirfd file (normalizeFileList names)) (hf : Free fs dirfd file (normalizeFileList names))
    (h : (pgfileProcess mounts fs file names).1 = 0) :
    ∀ k ∈ (pgfileProcess mounts fs file names).2.fs.names.links file, ¬IsPlgr k.2 := by
  rw [pgfileProcess, hm] at h ⊢
  dsimp only at h ⊢
  generalize hs : (normalizeFileList names).foldl (Commit.processName dirfd file) (Commit.start fs) = s at h ⊢
  have htotal : s.totallinks ≠ 0 := by
    intro h0
    rw [if_pos h0] at h
    split at h
    · exact absurd h (by decide)
    · exact absurd h (by decide)
  rw [if_neg htotal] at h
  have hreason : s.reason = 0 ∧ s.totallinks ≤ s.renamedok := by
    by_cases hbusy : s.reason = 0 ∧ s.renamedok < s.totallinks
    · rw [if_pos hbusy] at h
      exact absurd h (by decide)
    · rw [if_neg hbusy] at h
      exact ⟨h, by omega⟩
  by_cases hseveral : 1 < (fs.names.links file).card
  · have hstart : SeveralInv fs dirfd file [] (Commit.start fs) := by
      refine .inr ⟨∅, fun k hk => absurd hk (notMem_empty k), Fs.SameDirs.refl fs, ?_, rfl, .inl rfl⟩
      rw [linksAfter, image_empty, empty_union, sdiff_empty]
      rfl
    have hinv : SeveralInv fs dirfd file (normalizeFileList names) s :=
      hs ▸ several_run hc hf hseveral (nodup_normalizeFileList names) rfl hstart
    rcases hinv with hr | ⟨Q, hQ⟩
    · exact absurd hreason.1 hr
    -- all links are counted
    have hsub : Q ⊆ fs.names.links file := fun k hk => (hQ.named k hk).1
    have hcard : (fs.names.links file).card ≤ Q.card := by
      have h₁ := hQ.renamedok
      have h₂ := hQ.totallinks.resolve_left htotal
      omega
    have hall := eq_of_subset_of_card_le hsub hcard
    intro k hk
    rw [hQ.links, linksAfter, hall, Finset.sdiff_self, Finset.union_empty] at hk
    obtain ⟨k', hk', rfl⟩ := Finset.mem_image.mp hk
    have hnamed := hQ.named k' (hall ▸ hk')
    by_cases hsame : committed k' = k'
    · have hw : ¬IsWhiteout k'.2 := fun hw => absurd (hc.whiteout k' hnamed.1 hw) (by omega)
      rw [hsame]
      exact notPlgr_of_committed hsame hw
    · exact hf.plain k' hnamed hsame
  · have hstart : SingleInv fs file (Commit.start fs) := .inr (.inr ⟨rfl, rfl, .inl rfl⟩)
    have hinv : SingleInv fs file s := by
      rw [← hs]
      exact List.foldlRecOn _ _ hstart fun s hs name hname => single_processName hc hf (by omega) hname hs
    rcases hinv with hr | hplain | ⟨-, hok, ht⟩
    · exact absurd hreason.1 hr
    · exact hplain
    · omega

/-- Committing the files of a playground: which calls are made, and what it means that nothing has failed. -/
theorem pgfile_commit (mounts : ℕ → Option Inode) (fs : Fs) (file : Inode) (names : List Text) :
    Logged fs file (pgfileProcess mounts fs file names).2 ∧
      ∀ dirfd, mounts file.dev = some dirfd → Counted fs dirfd file (normalizeFileList names) →
        (Free fs dirfd file (normalizeFileList names) → (pgfileProcess mounts fs file names).1 = 0 →
          ∀ k ∈ (pgfileProcess mounts fs file names).2.fs.names.links file, ¬IsPlgr k.2) ∧
        (pgfileCheck mounts fs file names false = 0 →
          ∀ k ∈ fs.names.links file, ∃ n ∈ normalizeFileList names, fs.entry dirfd n = some k) :=
  ⟨logged_process mounts fs file names,
    fun _ hm hc => ⟨fun hf h => process_spec hm hc hf h, fun h => check_spec hm hc h⟩⟩

/-- The inodes of the files in a root directory. -/
def rootNames (files : List (String × ℕ)) : NameTable Entry Inode :=
  (files.map fun f => ⟨(⟨1, 2⟩, f.1.toList), ⟨1, f.2⟩⟩).toAList

/-- A file system with one directory. -/
def rootFs (files : List (String × ℕ)) (h : ((rootNames files).links ⟨1, 2⟩).card ≤ 1) : Fs where
  names := rootNames files
  mode i := ⟨i = ⟨1, 2⟩, true, true, true⟩
  parent _ := ⟨1, 2⟩
  single i hi := by rw [of_decide_eq_true hi]; exact h
  parentDir _ _ := rfl

def twoLinks : Fs := rootFs [(".plgr.7.a", 9), (".plgr.7.b", 9)] (by decide +kernel)

def bothNames : List Text := ["/.plgr.7.a".toList, "/.plgr.7.b".toList]

theorem links_twoLinks : ∀ k ∈ twoLinks.names.links ⟨1, 9⟩, (scanName k.2).map Prod.fst = some '.' := by
  decide +kernel

theorem twoLinks_noWhiteout {k : Entry} (hk : k ∈ twoLinks.names.links ⟨1, 9⟩) : ¬IsWhiteout k.2 := by
  rintro ⟨number, rest, hn, hname⟩
  have hdot := links_twoLinks k hk
  rw [scanName_iff.mpr ⟨number, hn, hname⟩] at hdot
  exact absurd hdot (by simp)

theorem counted_twoLinks : Counted twoLinks ⟨1, 2⟩ ⟨1, 9⟩ (normalizeFileList bothNames) where
  dots hdir := absurd hdir (by decide +kernel)
  whiteout _ hk hw := absurd hw (twoLinks_noWhiteout hk)
  distinct _ := by decide +kernel

theorem free_twoLinks : Free twoLinks ⟨1, 2⟩ ⟨1, 9⟩ (normalizeFileList bothNames) where
  readable _ hk hw := absurd hw (twoLinks_noWhiteout hk.1)
  plain _ hk _ := by
    have hscan : ∀ k ∈ twoLinks.names.links ⟨1, 9⟩, scanName (committed k).2 = none := by decide +kernel
    rintro ⟨c, number, rest, -, hn, hname⟩
    have hnone := hscan _ hk.1
    rw [scanName_iff.mpr ⟨number, hn, hname⟩] at hnone
    exact absurd hnone (by simp)
  apart _ := by
    have hfresh : ∀ k ∈ twoLinks.names.links ⟨1, 9⟩, committed k ∉ twoLinks.names.links ⟨1, 9⟩ := by decide +kernel
    have hinj : ∀ k ∈ twoLinks.names.links ⟨1, 9⟩, ∀ k' ∈ twoLinks.names.links ⟨1, 9⟩,
        committed k = committed k' → k = k' := by decide +kernel
    exact ⟨fun k hk _ => hfresh k hk.1, fun k hk k' hk' => hinj k hk.1 k' hk'.1⟩
  unnamed _ k hk _ := by
    have hno : ∀ k ∈ twoLinks.names.links ⟨1, 9⟩, ∀ n ∈ normalizeFileList bothNames,
        twoLinks.entry ⟨1, 2⟩ n ≠ some (committed k) := by decide +kernel
    exact hno k hk.1

theorem pgfile_commit_twoLinks :
    (pgfileProcess (fun _ => some ⟨1, 2⟩) twoLinks ⟨1, 9⟩ bothNames).1 = 0 ∧
      (∀ k ∈ (pgfileProcess (fun _ => some ⟨1, 2⟩) twoLinks ⟨1, 9⟩ bothNames).2.fs.names.links ⟨1, 9⟩, ¬IsPlgr k.2) ∧
      ∀ k ∈ twoLinks.names.links ⟨1, 9⟩, ∃ n ∈ normalizeFileList bothNames, twoLinks.entry ⟨1, 2⟩ n = some k := by
  have hzero : (pgfileProcess (fun _ => some ⟨1, 2⟩) twoLinks ⟨1, 9⟩ bothNames).1 = 0 := by decide +kernel
  have hspec := (pgfile_commit (fun _ => some ⟨1, 2⟩) twoLinks ⟨1, 9⟩ bothNames).2 ⟨1, 2⟩ rfl counted_twoLinks
  exact ⟨hzero, hspec.1 free_twoLinks hzero, hspec.2 (by decide +kernel)⟩

/-- A whiteout beside the file is removed, although it is another file; a number may have a sign; the commit of one
    link of two is said to be complete when its new name is in the list, too; and one link is taken for two when it is
    in the list twice. -/
theorem pgfile_commit_others :
    let mounts : ℕ → Option Inode := fun _ => some ⟨1, 2⟩
    let other := rootFs [(".plgr.7.a", 9), (".plgrD7.a", 8)] (by decide +kernel)
    let signed := rootFs [(".plgr.-7.a", 9)] (by decide +kernel)
    let renamed := ["/.plgr.7.a".toList, "/a".toList]
    let twice := ["/.plgr.7.a".toList, "//.plgr.7.a".toList]
    (other.names.links ⟨1, 9⟩ = {(⟨1, 2⟩, ".plgr.7.a".toList)} ∧
        other.names.links ⟨1, 8⟩ = {(⟨1, 2⟩, ".plgrD7.a".toList)} ∧
        (pgfileProcess mounts other ⟨1, 9⟩ bothNames).2.fs.names.links ⟨1, 8⟩ = ∅) ∧
      (pgfileProcess mounts signed ⟨1, 9⟩ ["/.plgr.-7.a".toList]).2.fs.names.links ⟨1, 9⟩ = {(⟨1, 2⟩, "a".toList)} ∧
      ((pgfileProcess mounts twoLinks ⟨1, 9⟩ renamed).1 = 0 ∧
        (⟨1, 2⟩, ".plgr.7.b".toList) ∈ (pgfileProcess mounts twoLinks ⟨1, 9⟩ renamed).2.fs.names.links ⟨1, 9⟩) ∧
      pgfileCheck mounts twoLinks ⟨1, 9⟩ twice false = 0 ∧
        ∀ n ∈ normalizeFileList twice, twoLinks.entry ⟨1, 2⟩ n ≠ some (⟨1, 2⟩, ".plgr.7.b".toList) := by
  decide +kernel

end Anoubis.Ui

import Anoubis.Ui.PgfileNames

/-! The calls of `pgfile_process`.

    A name is looked at before it is committed, and what stands under its last component is known from then on: the
    calls for this name change other names only. -/

namespace Anoubis.Ui

open Anoubis.Lib List
open Anoubis.Daemon.Sfs (comps)

/-! ### What a name stands for -/

/-- A name has a prefix of a playground. -/
def IsPlgr (name : Text) : Prop :=
  ∃ c number rest, (c = '.' ∨ c = 'D') ∧ IsNumber number ∧ name = plgrName c number rest

def IsWhiteout (name : Text) : Prop := ∃ number rest, IsNumber number ∧ name = plgrName 'D' number rest

/-- The last component of a name. -/
def lastName (name : Text) : Text := (splitLast (skipSlashes name)).2.1

/-- A name leads to the file, in the directory `d`. -/
structure Leads (fs : Fs) (dirfd file : Inode) (name : Text) (d : Inode) : Prop where
  slash : name.head? = some '/'
  split : Split (skipSlashes name) (splitLast (skipSlashes name)).1 (lastName name) (splitLast (skipSlashes name)).2.2
  walk : fs.walk dirfd (comps (splitLast (skipSlashes name)).1) = some d
  isDir : (fs.mode d).isDir
  search : (fs.mode d).search
  step : fs.step d (lastName name) = some file

variable {fs : Fs} {dirfd file d : Inode} {name : Text}

theorem length_plgrName (c : Char) (number rest : Text) :
    (plgrName c number rest).length = number.length + rest.length + 7 := by
  have hlit : ".plgr".toList.length = 5 := rfl
  rw [plgrName, length_append, length_cons, length_append, length_cons, hlit]
  omega

/-- What `pgfile_validate_one_name` says about a name. -/
theorem validateOneName_ne (h : validateOneName fs dirfd file name ≠ 0) : (∃ d, Leads fs dirfd file name d) ∧
      (validateOneName fs dirfd file name = (if (fs.mode file).isDir then 1 else fs.nlink file : ℤ) ∨
        (IsWhiteout (lastName name) ∧ validateOneName fs dirfd file name = -1)) := by
  rw [validateOneName] at h ⊢
  by_cases hslash : name.head? ≠ some '/'
  · rw [if_pos hslash] at h
    exact absurd rfl h
  rw [if_neg hslash] at h ⊢
  dsimp only at h ⊢
  by_cases hne : skipSlashes name = []
  · rw [if_pos hne] at h
    exact absurd rfl h
  rw [if_neg hne] at h ⊢
  by_cases hstat : fs.fstatat dirfd (skipSlashes name) ≠ some file
  · rw [if_pos hstat] at h
    exact absurd rfl h
  rw [if_neg hstat]
  have hsplit := splitLast_spec (head_skipSlashes name) hne
  obtain ⟨d, hwalk, hdir, hs, hstep⟩ := hsplit.fstatat (not_not.mp hstat)
  refine ⟨⟨d, not_not.mp hslash, hsplit, hwalk, hdir, hs, hstep⟩, ?_⟩
  split
  · rename_i q hq
    by_cases hex : (fs.fstatat dirfd q).isSome
    · exact .inr ⟨hsplit.whiteout hq, if_pos hex⟩
    · exact .inl (if_neg hex)
  · exact .inl rfl

/-- The name of the file in its directory. -/
theorem Leads.lookup (h : Leads fs dirfd file name d) (hdot : lastName name ≠ dot) (hdd : lastName name ≠ dotdot) :
    fs.names.lookup (d, lastName name) = some file := by
  have := h.step
  rwa [Fs.step, if_neg hdot, if_neg hdd] at this

theorem plgrName_ne (c : Char) (number rest : Text) :
    plgrName c number rest ≠ dot ∧ plgrName c number rest ≠ dotdot ∧ plgrName c number rest ≠ rest := by
  have hl := length_plgrName c number rest
  refine ⟨fun h => ?_, fun h => ?_, fun h => ?_⟩
  · rw [h] at hl
    simp [dot] at hl
  · rw [h] at hl
    simp [dotdot] at hl
  · rw [h] at hl
    omega

namespace Commit

variable {s : Commit}

/-- What is done with a name in an open directory. -/
theorem commitName_cases (s : Commit) (d : Inode) (oldname : Text) :
    (¬IsPlgr oldname ∧ s.commitName d oldname = { s with renamedok := s.renamedok + 1 }) ∨
      (∃ number newname, IsNumber number ∧ oldname = plgrName 'D' number newname ∧
        s.commitName d oldname = { s with renamedok := s.renamedok + 1 }.removeFile d oldname newname) ∨
      ∃ number newname, IsNumber number ∧ oldname = plgrName '.' number newname ∧
        s.commitName d oldname = { s with renamedok := s.renamedok + 1 }.renameFile d oldname newname := by
  have hno (h : ∀ c name, (c = '.' ∨ c = 'D') → scanName oldname ≠ some (c, '.', name)) : ¬IsPlgr oldname := by
    rintro ⟨c, number, name, hc, hn, heq⟩
    exact h c name hc (scanName_iff.mpr ⟨number, hn, heq⟩)
  rw [commitName]
  cases hscan : scanName oldname with
  | none => exact .inl ⟨hno fun c name _ h => by simp [hscan] at h, rfl⟩
  | some r =>
    obtain ⟨c1, c2, newname⟩ := r
    dsimp only
    by_cases hc : c2 ≠ '.' ∨ (c1 ≠ '.' ∧ c1 ≠ 'D')
    · rw [if_pos hc]
      refine .inl ⟨hno fun c name hcc h => ?_, rfl⟩
      rw [hscan] at h
      simp only [Option.some.injEq, Prod.mk.injEq] at h
      obtain ⟨rfl, rfl, -⟩ := h
      rcases hc with hc | ⟨h1, h2⟩
      · exact hc rfl
      · exact hcc.elim h1 h2
    · rw [if_neg hc]
      rw [not_or, not_not, not_and, not_not] at hc
      obtain ⟨rfl, hc1⟩ := hc
      obtain ⟨number, hn, heq⟩ := scanName_iff.mp hscan
      by_cases hD : c1 = 'D'
      · rw [if_pos hD]
        exact .inr (.inl ⟨number, newname, hn, hD ▸ heq, rfl⟩)
      · rw [if_neg hD]
        have hdot : c1 = '.' := by
          by_contra hdot
          exact hD (hc1 hdot)
        exact .inr (.inr ⟨number, newname, hn, hdot ▸ heq, rfl⟩)

/-- A name is found and its directory is open: the counters. -/
def counted (s : Commit) (nlink : ℤ) : Commit := { s with totallinks := nlink, renamedok := s.renamedok + 1 }

/-- What is done with a name: nothing, unless it leads to the file. -/
theorem processName_cases (dirfd file : Inode) (s : Commit) (name : Text) :
    (validateOneName s.fs dirfd file name = 0 ∧ s.processName dirfd file name = s) ∨
      ∃ d, Leads s.fs dirfd file name d ∧ validateOneName s.fs dirfd file name ≠ 0 ∧
        (((s.fs.mode d).read = false ∧ s.processName dirfd file name =
            { s with totallinks := validateOneName s.fs dirfd file name }) ∨
          (¬IsPlgr (lastName name) ∧
            s.processName dirfd file name = s.counted (validateOneName s.fs dirfd file name)) ∨
          (∃ number newname, IsNumber number ∧ lastName name = plgrName 'D' number newname ∧
            s.processName dirfd file name =
              (s.counted (validateOneName s.fs dirfd file name)).removeFile d (plgrName 'D' number newname) newname) ∨
          ∃ number newname, IsNumber number ∧ lastName name = plgrName '.' number newname ∧
            s.processName dirfd file name =
              (s.counted (validateOneName s.fs dirfd file name)).renameFile d (plgrName '.' number newname)
                newname) := by
  by_cases h0 : validateOneName s.fs dirfd file name = 0
  · exact .inl ⟨h0, by rw [processName, if_pos h0]⟩
  obtain ⟨⟨d, hd⟩, -⟩ := validateOneName_ne h0
  refine .inr ⟨d, hd, h0, ?_⟩
  rw [processName, if_neg h0]
  dsimp only
  obtain ⟨hsame, hopen⟩ := hd.split.openDir hd.walk
  cases hdir : s.fs.openDir dirfd (splitLast (skipSlashes name)).1 with
  | none =>
    refine .inl ⟨?_, rfl⟩
    by_contra hread
    rw [hopen hd.isDir hd.search (by simpa using hread)] at hdir
    exact absurd hdir (by simp)
  | some d' =>
    rw [hsame d' hdir]
    right
    rcases commitName_cases { s with totallinks := validateOneName s.fs dirfd file name } d (lastName name) with
      ⟨hno, heq⟩ | ⟨number, newname, hn, hname, heq⟩ | ⟨number, newname, hn, hname, heq⟩
    · exact .inl ⟨hno, heq⟩
    · exact .inr (.inl ⟨number, newname, hn, hname, hname ▸ heq⟩)
    · exact .inr (.inr ⟨number, newname, hn, hname, hname ▸ heq⟩)

end Commit

/-! ### What is called -/

/-- The file system after some calls. -/
def replay (fs : Fs) (calls : List (Fs × Call)) : Fs := calls.foldl (fun f c => (f.perform c.2).2) fs

/-- A whiteout that refers to the file, or the file that such a whiteout stands for. -/
def Removable (file : Inode) (fs : Fs) (d : Inode) (name : Text) : Prop :=
  ∃ number, IsNumber number ∧ (fs.names.lookup (d, plgrName 'D' number name) = some file ∨
    ∃ original, name = plgrName 'D' number original ∧ fs.names.lookup (d, name) = some file)

/-- What may be called after the calls in `before`. -/
def Permitted (file : Inode) (before : List (Fs × Call)) (fs : Fs) : Call → Prop
  | .rename d old new =>
    fs.names.lookup (d, old) = some file ∧ ∃ number, IsNumber number ∧ old = plgrName '.' number new
  | .unlink d name => Removable file fs d name ∨ ∃ f number new,
      before.getLast? = some (f, .rename d (plgrName '.' number new) new) ∧ name = plgrName 'D' number new
  | .rmdir d name => Removable file fs d name

/-- All calls were permitted, and nothing else has changed the file system. -/
structure Logged (fs₀ : Fs) (file : Inode) (s : Commit) : Prop where
  fs : s.fs = replay fs₀ s.calls
  calls : AtEach (fun before c => c.1 = replay fs₀ before ∧ Permitted file before c.1 c.2) s.calls

variable {fs₀ : Fs} {s : Commit} {number oldname newname : Text}

theorem Logged.perform (h : Logged fs₀ file s) {c : Call} (hc : Permitted file s.calls s.fs c) :
    Logged fs₀ file (s.perform c).2 := by
  refine ⟨?_, atEach_concat h.calls ⟨h.fs, hc⟩⟩
  have hcalls : (s.perform c).2.calls = s.calls ++ [(s.fs, c)] := rfl
  rw [hcalls, replay, foldl_append]
  have hfs := h.fs
  rw [replay] at hfs
  rw [← hfs]
  rfl

theorem Logged.fail (h : Logged fs₀ file s) (errno : ℤ) : Logged fs₀ file (s.fail errno) := ⟨h.fs, h.calls⟩

/-- A call that removes a name leaves the others. -/
theorem Fs.unlinkat_fs (fs : Fs) (d : Inode) (name : Text) (removedir : Bool) :
    (fs.unlinkat d name removedir).2 = fs ∨ (fs.unlinkat d name removedir).2 = fs.drop (d, name) := by
  rcases fs.unlinkat_cases d name removedir with ⟨-, h⟩ | ⟨i, -, -, h⟩
  · exact .inl h
  · exact .inr (by rw [h])

theorem Fs.perform_failed {fs : Fs} {c : Call} (h : (fs.perform c).1 ≠ 0) : (fs.perform c).2 = fs := by
  cases c with
  | rename d old new =>
    rcases fs.renameat_cases d old new with ⟨-, hfs⟩ | ⟨i, -, hzero, -⟩
    · exact hfs
    · exact absurd hzero h
  | unlink d name =>
    rcases fs.unlinkat_cases d name false with ⟨-, hfs⟩ | ⟨i, -, -, hzero⟩
    · exact hfs
    · exact absurd (congrArg Prod.fst hzero) h
  | rmdir d name =>
    rcases fs.unlinkat_cases d name true with ⟨-, hfs⟩ | ⟨i, -, -, hzero⟩
    · exact hfs
    · exact absurd (congrArg Prod.fst hzero) h

/-- The original file is removed under its name only, whichever call succeeds. -/
theorem removeOriginal_spec (s : Commit) (d : Inode) (newname : Text) :
    ((s.removeOriginal d newname).2.fs = s.fs ∨ (s.removeOriginal d newname).2.fs = s.fs.drop (d, newname)) ∧
      (s.removeOriginal d newname).2.totallinks = s.totallinks ∧
      (s.removeOriginal d newname).2.renamedok = s.renamedok ∧ (s.removeOriginal d newname).2.reason = s.reason := by
  rw [Commit.removeOriginal]
  by_cases hdir : (s.perform (.unlink d newname)).1 = eisdir
  · rw [if_pos hdir]
    have hfs : (s.perform (.unlink d newname)).2.fs = s.fs :=
      Fs.perform_failed (show (s.perform (.unlink d newname)).1 ≠ 0 by rw [hdir]; decide)
    refine ⟨?_, rfl, rfl, rfl⟩
    rw [← hfs]
    exact Fs.unlinkat_fs _ d newname true
  · rw [if_neg hdir]
    exact ⟨Fs.unlinkat_fs _ d newname false, rfl, rfl, rfl⟩

theorem logged_removeOriginal (h : Logged fs₀ file s) (hn : IsNumber number)
    (hl : s.fs.names.lookup (d, plgrName 'D' number newname) = some file) :
    Logged fs₀ file (s.removeOriginal d newname).2 := by
  have hremovable : Removable file s.fs d newname := ⟨number, hn, .inl hl⟩
  have hunlink : Logged fs₀ file (s.perform (.unlink d newname)).2 := h.perform (.inl hremovable)
  rw [Commit.removeOriginal]
  by_cases hdir : (s.perform (.unlink d newname)).1 = eisdir
  · rw [if_pos hdir]
    have hfs : (s.perform (.unlink d newname)).2.fs = s.fs :=
      Fs.perform_failed (show (s.perform (.unlink d newname)).1 ≠ 0 by rw [hdir]; decide)
    exact hunlink.perform (show Removable file _ d newname by rw [hfs]; exact hremovable)
  · rw [if_neg hdir]
    exact hunlink

/-- The whiteout is still there when the original file is gone. -/
theorem removeOriginal_whiteout (hl : s.fs.names.lookup (d, plgrName 'D' number newname) = some file) :
    (s.removeOriginal d newname).2.fs.names.lookup (d, plgrName 'D' number newname) = some file := by
  rcases (removeOriginal_spec s d newname).1 with hfs | hfs
  · rw [hfs, hl]
  · have hne : (d, plgrName 'D' number newname) ≠ (d, newname) :=
      fun h => (plgrName_ne 'D' number newname).2.2 (Prod.mk.inj h).2
    have hnames : (s.fs.drop (d, newname)).names = s.fs.names.drop (d, newname) := rfl
    rw [hfs, hnames, NameTable.lookup_drop, if_neg hne, hl]

theorem logged_removeFile (h : Logged fs₀ file s) (hn : IsNumber number)
    (hl : s.fs.names.lookup (d, plgrName 'D' number newname) = some file) :
    Logged fs₀ file (s.removeFile d (plgrName 'D' number newname) newname) := by
  have hlog := logged_removeOriginal h hn hl
  have hwhiteout : Removable file (s.removeOriginal d newname).2.fs d (plgrName 'D' number newname) :=
    ⟨number, hn, .inr ⟨newname, rfl, removeOriginal_whiteout hl⟩⟩
  rw [Commit.removeFile]
  by_cases hret : (s.removeOriginal d newname).1 ≠ 0 ∧ (s.removeOriginal d newname).1 ≠ enoent
  · rw [if_pos hret]
    exact hlog.fail _
  rw [if_neg hret]
  have hunlink := hlog.perform (c := .unlink d (plgrName 'D' number newname)) (.inl hwhiteout)
  dsimp only
  by_cases hok : ((s.removeOriginal d newname).2.perform (.unlink d (plgrName 'D' number newname))).1 ≠ 0
  · rw [if_pos hok]
    exact hunlink.fail _
  · rw [if_neg hok]
    exact hunlink

theorem plgrName_set (number rest : Text) : (plgrName '.' number rest).set 5 'D' = plgrName 'D' number rest := rfl

theorem logged_renameFile (h : Logged fs₀ file s) (hn : IsNumber number)
    (hl : s.fs.names.lookup (d, plgrName '.' number newname) = some file) :
    Logged fs₀ file (s.renameFile d (plgrName '.' number newname) newname) := by
  have hrename := h.perform (c := .rename d (plgrName '.' number newname) newname) ⟨hl, number, hn, rfl⟩
  have hlast : (s.perform (.rename d (plgrName '.' number newname) newname)).2.calls.getLast? =
      some (s.fs, .rename d (plgrName '.' number newname) newname) := getLast?_concat
  rw [Commit.renameFile, plgrName_set]
  by_cases hok : (s.perform (.rename d (plgrName '.' number newname) newname)).1 ≠ 0
  · rw [if_pos hok]
    exact (hrename.fail _).perform (.inr ⟨_, number, newname, hlast, rfl⟩)
  · rw [if_neg hok]
    exact hrename.perform (.inr ⟨_, number, newname, hlast, rfl⟩)

theorem Leads.lookup_plgr (h : Leads fs dirfd file name d) {c : Char} {number rest : Text}
    (hname : lastName name = plgrName c number rest) : fs.names.lookup (d, plgrName c number rest) = some file := by
  have hne := plgrName_ne c number rest
  rw [← hname] at hne ⊢
  exact h.lookup hne.1 hne.2.1

theorem logged_processName (h : Logged fs₀ file s) (dirfd : Inode) (name : Text) :
    Logged fs₀ file (s.processName dirfd file name) := by
  have hlog (nlink : ℤ) : Logged fs₀ file (s.counted nlink) := ⟨h.fs, h.calls⟩
  rcases s.processName_cases dirfd file name with
    ⟨-, heq⟩ | ⟨d, hd, -, ⟨-, heq⟩ | ⟨-, heq⟩ | ⟨number, newname, hn, hname, heq⟩ | ⟨number, newname, hn, hname, heq⟩⟩
  · rw [heq]
    exact h
  · rw [heq]
    exact ⟨h.fs, h.calls⟩
  · rw [heq]
    exact hlog _
  · rw [heq]
    exact logged_removeFile (hlog _) hn (hd.lookup_plgr hname)
  · rw [heq]
    exact logged_renameFile (hlog _) hn (hd.lookup_plgr hname)

/-- All calls of `pgfile_process` are permitted. -/
theorem logged_process (mounts : ℕ → Option Inode) (fs : Fs) (file : Inode) (names : List Text) :
    Logged fs file (pgfileProcess mounts fs file names).2 := by
  have hstart : Logged fs file (Commit.start fs) := ⟨rfl, atEach_nil _⟩
  rw [pgfileProcess]
  split
  · exact hstart
  · rename_i dirfd _
    exact List.foldlRecOn _ _ hstart fun s hs name _ => logged_processName hs dirfd name

end Anoubis.Ui

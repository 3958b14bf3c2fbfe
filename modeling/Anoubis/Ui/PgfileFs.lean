import Anoubis.Daemon.SfsComps
import Anoubis.Lib.NameTable

/-! The file systems on which playground files are committed.

    A name stands in a directory and refers to an inode; `st_nlink` of a file counts the names that refer to it. There
    are no symbolic links, and only this process changes names.

        /            (1, 2)
        /home        (1, 3)     names   ((1, 2), home) -> (1, 3)
        /home/.plgr.7.a  -> (1, 9)      ((1, 3), .plgr.7.a) -> (1, 9)    st_nlink 2
        /home/b          -> (1, 9)      ((1, 3), b)         -> (1, 9)                     -/

namespace Anoubis.Ui

open Anoubis.Lib Option
open Anoubis.Daemon.Sfs (comps)

/-! ### File systems -/

/-- A file or a directory: `expand_dev(st_dev)` and `st_ino`. -/
structure Inode where
  dev : ℕ
  ino : ℕ
  deriving DecidableEq

/-- What kind of inode it is, and what the process may do with a directory. -/
structure Mode where
  isDir : Bool
  read : Bool
  write : Bool
  search : Bool

/-- A name in a directory. -/
abbrev Entry := Inode × Text

structure Fs where
  names : NameTable Entry Inode
  mode : Inode → Mode
  /-- `..` of a directory. -/
  parent : Inode → Inode
  /-- Directories cannot have real hard links. -/
  single : ∀ i, (mode i).isDir → (names.links i).card ≤ 1
  parentDir : ∀ i, (mode i).isDir → (mode (parent i)).isDir

def dot : Text := ".".toList
def dotdot : Text := "..".toList

def enoent : ℤ := 2
def eacces : ℤ := 13
def ebusy : ℤ := 16
def eexist : ℤ := 17
def exdev : ℤ := 18
def enotdir : ℤ := 20
def eisdir : ℤ := 21
def einval : ℤ := 22
def emlink : ℤ := 31
def enotempty : ℤ := 39

namespace Fs

/-- One component of a path. -/
def step (fs : Fs) (d : Inode) (c : Text) : Option Inode :=
  if c = dot then some d else if c = dotdot then some (fs.parent d) else fs.names.lookup (d, c)

def walk (fs : Fs) : Inode → List Text → Option Inode
  | d, [] => some d
  | d, c :: cs => if (fs.mode d).isDir ∧ (fs.mode d).search then (fs.step d c).bind fun e => fs.walk e cs else none

/-- The components of a relative path; a slash at its end asks for a directory. -/
def pathComps (p : Text) : List Text := if p.getLast? = some '/' then comps p ++ [dot] else comps p

/-- fstatat(2) of a relative path; `AT_SYMLINK_NOFOLLOW` makes no difference here. -/
def fstatat (fs : Fs) (dirfd : Inode) (p : Text) : Option Inode :=
  if p = [] then none else fs.walk dirfd (pathComps p)

/-- `st_nlink` of a file. -/
def nlink (fs : Fs) (i : Inode) : ℕ := (fs.names.links i).card

/-- openat(2) of a relative path with `O_RDONLY | O_DIRECTORY`. -/
def openat (fs : Fs) (dirfd : Inode) (p : Text) : Option Inode :=
  (fs.fstatat dirfd p).filter fun d => (fs.mode d).isDir && (fs.mode d).read

def isEmpty (fs : Fs) (d : Inode) : Bool := fs.names.keys.all fun k => k.1 ≠ d

/-- A name is removed. -/
def drop (fs : Fs) (k : Entry) : Fs where
  names := fs.names.drop k
  mode := fs.mode
  parent := fs.parent
  single := fun i hi => NameTable.card_links_drop_le.trans (fs.single i hi)
  parentDir := fs.parentDir

/-- A name is changed. -/
def move (fs : Fs) (k k' : Entry) (i : Inode) (h : fs.names.lookup k = some i) : Fs where
  names := fs.names.move k k' i
  mode := fs.mode
  parent := fs.parent
  single := fun j hj => (NameTable.card_links_move_le h).trans (fs.single j hj)
  parentDir := fs.parentDir

/-- Why a name may not be replaced by that of another inode. -/
def cannotReplace (fs : Fs) (i : Inode) : Option Inode → Option ℤ
  | none => none
  | some j =>
    if (fs.mode i).isDir ∧ ¬(fs.mode j).isDir then some enotdir
    else if ¬(fs.mode i).isDir ∧ (fs.mode j).isDir then some eisdir
    else if (fs.mode j).isDir ∧ ¬fs.isEmpty j then some enotempty
    else none

/-- renameat(2) of a name within a directory; `errno`, or zero. -/
def renameat (fs : Fs) (d : Inode) (old new : Text) : ℤ × Fs :=
  if old = [] ∨ new = [] then (enoent, fs)
  else if ¬(fs.mode d).search then (eacces, fs)
  else if old = dot ∨ old = dotdot ∨ new = dot ∨ new = dotdot then (ebusy, fs)
  else
    match h : fs.names.lookup (d, old) with
    | none => (enoent, fs)
    | some i =>
      -- two names of one file: nothing is done
      if fs.names.lookup (d, new) = some i then (0, fs)
      else if ¬(fs.mode d).write then (eacces, fs)
      else
        match fs.cannotReplace i (fs.names.lookup (d, new)) with
        | some e => (e, fs)
        | none => (0, fs.move (d, old) (d, new) i h)

/-- unlinkat(2) of a name in a directory, without flags or with `AT_REMOVEDIR`. -/
def unlinkat (fs : Fs) (d : Inode) (name : Text) (removedir : Bool) : ℤ × Fs :=
  if name = [] then (enoent, fs)
  else if ¬(fs.mode d).search then (eacces, fs)
  else if name = dot then (if removedir then einval else eisdir, fs)
  else if name = dotdot then (if removedir then enotempty else eisdir, fs)
  else
    match fs.names.lookup (d, name) with
    | none => (enoent, fs)
    | some i =>
      if ¬(fs.mode d).write then (eacces, fs)
      else if removedir then
        if ¬(fs.mode i).isDir then (enotdir, fs)
        else if ¬fs.isEmpty i then (enotempty, fs)
        else (0, fs.drop (d, name))
      else if (fs.mode i).isDir then (eisdir, fs)
      else (0, fs.drop (d, name))

/-! ### What a call does -/

variable {fs fs' : Fs} {d i : Inode} {old new name : Text}

theorem cannotReplace_some {t : Option Inode} {e : ℤ} (h : fs.cannotReplace i t = some e) : e ≠ 0 := by
  cases t with
  | none => exact absurd h (by simp [cannotReplace])
  | some j =>
    rw [cannotReplace] at h
    split at h
    · rw [← some.inj h]
      decide
    · split at h
      · rw [← some.inj h]
        decide
      · split at h
        · rw [← some.inj h]
          decide
        · exact absurd h (by simp)

theorem cannotReplace_none {j : Inode} (h : fs.cannotReplace i (some j) = none) :
    (fs.mode j).isDir = (fs.mode i).isDir := by
  rw [cannotReplace] at h
  cases hi : (fs.mode i).isDir <;> cases hj : (fs.mode j).isDir
  · rfl
  · simp [hi, hj] at h
  · simp [hi, hj] at h
  · rfl

/-- A call that fails changes nothing; one that succeeds has found a file, and replaces none of another kind. -/
theorem renameat_cases (fs : Fs) (d : Inode) (old new : Text) :
    ((fs.renameat d old new).1 ≠ 0 ∧ (fs.renameat d old new).2 = fs) ∨
      ∃ i, ∃ h : fs.names.lookup (d, old) = some i, (fs.renameat d old new).1 = 0 ∧
        ((fs.names.lookup (d, new) = some i ∧ (fs.renameat d old new).2 = fs) ∨
          (fs.renameat d old new).2 = fs.move (d, old) (d, new) i h ∧
            ∀ j, fs.names.lookup (d, new) = some j → (fs.mode j).isDir = (fs.mode i).isDir) := by
  rw [renameat]
  by_cases hne : old = [] ∨ new = []
  · rw [if_pos hne]
    exact .inl ⟨by simp [enoent], rfl⟩
  rw [if_neg hne]
  by_cases hs : ¬(fs.mode d).search
  · rw [if_pos hs]
    exact .inl ⟨by simp [eacces], rfl⟩
  rw [if_neg hs]
  by_cases hdot : old = dot ∨ old = dotdot ∨ new = dot ∨ new = dotdot
  · rw [if_pos hdot]
    exact .inl ⟨by simp [ebusy], rfl⟩
  rw [if_neg hdot]
  split
  · exact .inl ⟨by simp [enoent], rfl⟩
  · rename_i i h
    by_cases hsame : fs.names.lookup (d, new) = some i
    · rw [if_pos hsame]
      exact .inr ⟨i, h, rfl, .inl ⟨hsame, rfl⟩⟩
    rw [if_neg hsame]
    by_cases hw : ¬(fs.mode d).write
    · rw [if_pos hw]
      exact .inl ⟨by simp [eacces], rfl⟩
    rw [if_neg hw]
    cases hrep : fs.cannotReplace i (fs.names.lookup (d, new)) with
    | some e => exact .inl ⟨cannotReplace_some hrep, rfl⟩
    | none => exact .inr ⟨i, h, rfl, .inr ⟨rfl, fun j hj => cannotReplace_none (hj ▸ hrep)⟩⟩

theorem unlinkat_cases (fs : Fs) (d : Inode) (name : Text) (removedir : Bool) :
    ((fs.unlinkat d name removedir).1 ≠ 0 ∧ (fs.unlinkat d name removedir).2 = fs) ∨
      ∃ i, fs.names.lookup (d, name) = some i ∧ (fs.mode i).isDir = removedir ∧
        fs.unlinkat d name removedir = (0, fs.drop (d, name)) := by
  rw [unlinkat]
  by_cases hne : name = []
  · rw [if_pos hne]
    exact .inl ⟨by simp [enoent], rfl⟩
  rw [if_neg hne]
  by_cases hs : ¬(fs.mode d).search
  · rw [if_pos hs]
    exact .inl ⟨by simp [eacces], rfl⟩
  rw [if_neg hs]
  by_cases hdot : name = dot
  · rw [if_pos hdot]
    cases removedir <;> exact .inl ⟨by simp [einval, eisdir], rfl⟩
  rw [if_neg hdot]
  by_cases hdd : name = dotdot
  · rw [if_pos hdd]
    cases removedir <;> exact .inl ⟨by simp [enotempty, eisdir], rfl⟩
  rw [if_neg hdd]
  cases h : fs.names.lookup (d, name) with
  | none => exact .inl ⟨by simp [enoent], rfl⟩
  | some i =>
    by_cases hw : ¬(fs.mode d).write
    · simp [hw, eacces]
    cases removedir with
    | false =>
      by_cases hdir : (fs.mode i).isDir = true
      · simp [hw, hdir, eisdir]
      · exact .inr ⟨i, rfl, by simpa using hdir, by simp [hw, hdir]⟩
    | true =>
      by_cases hdir : (fs.mode i).isDir = true
      · by_cases hempty : fs.isEmpty i
        · exact .inr ⟨i, rfl, hdir, by simp [hw, hdir, hempty]⟩
        · simp [hw, hdir, hempty, enotempty]
      · simp [hw, hdir, enotdir]

/-! ### Directories -/

/-- All directories stand where they stood. -/
structure SameDirs (fs fs' : Fs) : Prop where
  mode : fs'.mode = fs.mode
  parent : fs'.parent = fs.parent
  lookup : ∀ k i, (fs.mode i).isDir → (fs'.names.lookup k = some i ↔ fs.names.lookup k = some i)

theorem SameDirs.refl (fs : Fs) : SameDirs fs fs := ⟨rfl, rfl, fun _ _ _ => .rfl⟩

theorem SameDirs.symm (h : SameDirs fs fs') : SameDirs fs' fs :=
  ⟨h.mode.symm, h.parent.symm, fun k i hi => (h.lookup k i (h.mode ▸ hi)).symm⟩

theorem SameDirs.trans {fs'' : Fs} (h : SameDirs fs fs') (h' : SameDirs fs' fs'') : SameDirs fs fs'' :=
  ⟨h'.mode.trans h.mode, h'.parent.trans h.parent,
    fun k i hi => (h'.lookup k i (h.mode ▸ hi)).trans (h.lookup k i hi)⟩

theorem sameDirs_drop {k : Entry} (h : fs.names.lookup k = some i) (hi : (fs.mode i).isDir = false) :
    SameDirs fs (fs.drop k) := by
  refine ⟨rfl, rfl, fun k' j hj => ?_⟩
  rw [show (fs.drop k).names = fs.names.drop k from rfl, NameTable.lookup_drop]
  by_cases hk : k' = k
  · rw [if_pos hk, hk, h]
    constructor
    · exact fun hn => absurd hn (by simp)
    · exact fun hs => absurd hj (by rw [← some.inj hs, hi]; simp)
  · rw [if_neg hk]

theorem sameDirs_move {k k' : Entry} (h : fs.names.lookup k = some i) (hi : (fs.mode i).isDir = false)
    (hk' : ∀ j, fs.names.lookup k' = some j → (fs.mode j).isDir = false) : SameDirs fs (fs.move k k' i h) := by
  refine ⟨rfl, rfl, fun x j hj => ?_⟩
  have hij : i ≠ j := fun hij => by simp [hij, hj] at hi
  rw [show (fs.move k k' i h).names = fs.names.move k k' i from rfl, NameTable.lookup_move]
  by_cases hx : x = k'
  · rw [if_pos hx, hx]
    constructor
    · exact fun hs => absurd (some.inj hs) hij
    · exact fun hs => absurd hj (by simp [hk' j hs])
  · rw [if_neg hx]
    by_cases hxk : x = k
    · rw [if_pos hxk, hxk, h]
      constructor
      · exact fun hn => absurd hn (by simp)
      · exact fun hs => absurd (some.inj hs) hij
    · rw [if_neg hxk]

theorem walk_cons {r e : Inode} {c : Text} {cs : List Text} : fs.walk r (c :: cs) = some e ↔
      (fs.mode r).isDir ∧ (fs.mode r).search ∧ ∃ x, fs.step r c = some x ∧ fs.walk x cs = some e := by
  rw [walk]
  by_cases h : (fs.mode r).isDir ∧ (fs.mode r).search
  · rw [if_pos h, bind_eq_some_iff]
    exact ⟨fun hx => ⟨h.1, h.2, hx⟩, fun hx => hx.2.2⟩
  · rw [if_neg h]
    exact ⟨fun hx => absurd hx (by simp), fun hx => absurd ⟨hx.1, hx.2.1⟩ h⟩

theorem walk_append {r e : Inode} (cs cs' : List Text) :
    fs.walk r (cs ++ cs') = some e ↔ ∃ x, fs.walk r cs = some x ∧ fs.walk x cs' = some e := by
  induction cs generalizing r with
  | nil => simp [walk]
  | cons c cs ih =>
    rw [List.cons_append, walk_cons]
    constructor
    · rintro ⟨hdir, hs, x, hx, hw⟩
      obtain ⟨y, hy, hw⟩ := ih.mp hw
      exact ⟨y, walk_cons.mpr ⟨hdir, hs, x, hx, hy⟩, hw⟩
    · rintro ⟨y, hy, hw⟩
      obtain ⟨hdir, hs, x, hx, hy⟩ := walk_cons.mp hy
      exact ⟨hdir, hs, x, hx, ih.mpr ⟨y, hy, hw⟩⟩

/-- The way to a directory leads through directories. -/
theorem SameDirs.walk (h : SameDirs fs fs') {r e : Inode} {cs : List Text} (he : (fs.mode e).isDir)
    (hw : fs.walk r cs = some e) : fs'.walk r cs = some e := by
  induction cs generalizing r with
  | nil => exact hw
  | cons c cs ih =>
    obtain ⟨hdir, hs, x, hx, hw⟩ := walk_cons.mp hw
    have hxdir : (fs.mode x).isDir := by
      cases cs with
      | nil => exact some.inj hw ▸ he
      | cons c' cs => exact (walk_cons.mp hw).1
    refine walk_cons.mpr ⟨h.mode ▸ hdir, h.mode ▸ hs, x, ?_, ih hw⟩
    rw [step] at hx ⊢
    rw [h.parent]
    by_cases hd : c = dot
    · rwa [if_pos hd] at hx ⊢
    by_cases hdd : c = dotdot
    · rwa [if_neg hd, if_pos hdd] at hx ⊢
    rw [if_neg hd, if_neg hdd] at hx ⊢
    exact (h.lookup _ x hxdir).mpr hx

end Fs

end Anoubis.Ui

import Anoubis.Ui.PgfileFs
import Mathlib.Data.List.Sort
import Mathlib.Data.List.Destutter

/-! Committing the files of a playground (`playground_files.c`).

    The names of an inode are taken from a list, which may be incomplete or out of date.

        /d/.plgr.7.a    file of the playground     renameat a, and unlinkat .plgrD7.a
        /d/.plgrD7.b    whiteout                   unlinkat b, then unlinkat .plgrD7.b
        /d/c            any other name             counted

    Names are strings without a NUL. Memory is not exhausted, and an inode has fewer links than an `int` can count. -/

namespace Anoubis.Ui

open Anoubis.Lib

/-! ### Prefixes of names -/

def isxdigit (c : Char) : Bool := ('0' ≤ c && c ≤ '9') || ('a' ≤ c && c ≤ 'f') || ('A' ≤ c && c ≤ 'F')

def isupper (c : Char) : Bool := 'A' ≤ c && c ≤ 'Z'

def isspace (c : Char) : Bool := c == ' ' || ('\t' ≤ c && c ≤ '\r')

/-- The length of a prefix `.plgr.xxx.` or `.plgr.xxxD` at the start of a string. -/
def prefixLen (s : Text) : Option ℕ :=
  if ".plgr.".toList <+: s then
    let hex := (s.drop 6).takeWhile fun c => isxdigit c && !isupper c
    match (s.drop 6).drop hex.length with
    | c :: _ => if hex ≠ [] ∧ (c = '.' ∨ c = 'D') then some (7 + hex.length) else none
    | [] => none
  else none

/-- `pgfile_find_first_plgr_prefix` behind the character `prev`: the string in front of the prefix and behind it. The
    string starts a component if `prev` is a slash. -/
def findFirstPlgrPrefix : Char → Text → Option (Text × Text)
  | _, [] => none
  | prev, c :: s =>
    let next := (findFirstPlgrPrefix c s).map fun r => (c :: r.1, r.2)
    match if prev = '/' then prefixLen (c :: s) else none with
    | none => next
    | some len =>
      match (c :: s).drop len with
      | [] => none
      | a :: rest => if a = '/' then next else some ([], a :: rest)

/-- The loop of `pgfile_normalize_file_list` for one name: the name without its first prefix, without its first two,
    and so on, as long as that prefix is in a directory. -/
def variants : ℕ → Text → List Text
  | 0, _ => []
  | n + 1, str =>
    match findFirstPlgrPrefix '/' str with
    | none => []
    | some (front, rest) => if '/' ∈ rest then (front ++ rest) :: variants n (front ++ rest) else []

/-- strcmp(3) of two strings is not positive. -/
def strcmpLe : Text → Text → Bool
  | [], _ => true
  | _ :: _, [] => false
  | a :: s, b :: t => a.toNat < b.toNat || (a == b && strcmpLe s t)

/-- `pgfile_normalize_file_list`. -/
def normalizeFileList (names : List Text) : List Text :=
  ((names.flatMap fun str => str :: variants str.length str).insertionSort fun s t => strcmpLe s t).destutter (· ≠ ·)

/-! ### Scanning -/

def skipSign : Text → Text
  | [] => []
  | c :: t => if c = '+' ∨ c = '-' then t else c :: t

def skipX : Text → Text
  | [] => []
  | c :: t => if c = 'x' ∨ c = 'X' then t else c :: t

def scanDigits : Text → Option Text
  | [] => none
  | c :: t => if isxdigit c then some ((if c = '0' then skipX t else t).dropWhile isxdigit) else none

/-- sscanf(3) with `%*x%c`: the character, and the string behind it. -/
def scanHexChar (s : Text) : Option (Char × Text) :=
  match scanDigits (skipSign (s.dropWhile isspace)) with
  | some (c :: t) => some (c, t)
  | _ => none

/-- sscanf(3) with a literal first. -/
def scanLiteral (lit s : Text) : Option Text := if lit <+: s then some (s.drop lit.length) else none

/-- `.plgr%c%*x%c%n`. -/
def scanName (s : Text) : Option (Char × Char × Text) :=
  match scanLiteral ".plgr".toList s with
  | some (ch1 :: t) => (scanHexChar t).map fun r => (ch1, r.1, r.2)
  | _ => none

/-! ### Names of a file -/

def skipSlashes (name : Text) : Text := name.dropWhile (· = '/')

/-- A path in three parts: up to its last component, this component, and the slashes at the end. -/
def splitLast (p : Text) : Text × Text × Text :=
  let r := p.rdropWhile (· = '/')
  (r.rdropWhile (· ≠ '/'), r.rtakeWhile (· ≠ '/'), p.rtakeWhile (· = '/'))

/-- `pgfile_whiteout_to_file`. -/
def whiteoutToFile (whiteout : Text) : Option Text :=
  let (front, last, slashes) := splitLast whiteout
  if last = [] then none
  else
    match (scanLiteral ".plgrD".toList (last ++ slashes)).bind scanHexChar with
    | some (ch, _) => if ch = '.' then some (whiteout.set (front.length + 5) '.') else none
    | none => none

/-- `pgfile_validate_one_name`. -/
def validateOneName (fs : Fs) (dirfd file : Inode) (name : Text) : ℤ :=
  if name.head? ≠ some '/' then 0
  else
    let p := skipSlashes name
    if p = [] then 0
    else if fs.fstatat dirfd p ≠ some file then 0
    else
      let ret : ℤ := if (fs.mode file).isDir then 1 else fs.nlink file
      match whiteoutToFile p with
      | some q => if (fs.fstatat dirfd q).isSome then -1 else ret
      | none => ret

/-! ### Checking -/

/-- `checkoverwrite` in `pgfile_check`: the error if the target of a name exists. -/
def checkTarget (fs : Fs) (dirfd : Inode) (name : Text) : Option ℤ :=
  let targetname := skipSlashes name
  let front := targetname.rdropWhile (· ≠ '/')
  let last := targetname.rtakeWhile (· ≠ '/')
  match (scanLiteral ".plgr.".toList last).bind scanHexChar with
  | none => none
  | some (_, rest) =>
    match fs.fstatat dirfd (front ++ rest) with
    | none => none
    | some i => if (fs.mode i).isDir ∨ fs.nlink i = 1 then some (-eexist) else some (-emlink)

/-- The loop of `pgfile_check`. -/
def checkNames (fs : Fs) (dirfd file : Inode) (checkoverwrite : Bool) : List Text → ℤ → ℤ → ℤ
  | [], totallinks, foundlinks =>
    if totallinks = 0 then -enoent else if totallinks > foundlinks then -ebusy else 0
  | name :: names, totallinks, foundlinks =>
    let nlinks := validateOneName fs dirfd file name
    if nlinks = 0 then checkNames fs dirfd file checkoverwrite names totallinks foundlinks
    else
      match if checkoverwrite then checkTarget fs dirfd name else none with
      | some e => e
      | none => checkNames fs dirfd file checkoverwrite names nlinks (foundlinks + 1)

/-- `pgfile_check`. The mounted devices are known by their roots. -/
def pgfileCheck (mounts : ℕ → Option Inode) (fs : Fs) (file : Inode) (names : List Text) (checkoverwrite : Bool) : ℤ :=
  match mounts file.dev with
  | none => -exdev
  | some dirfd => checkNames fs dirfd file checkoverwrite (normalizeFileList names) 0 0

/-! ### Committing -/

/-- `dir2`: the directory of a name, behind the leading slashes. -/
def Fs.openDir (fs : Fs) (dirfd : Inode) (front : Text) : Option Inode :=
  if front = [] then some dirfd else fs.openat dirfd front.dropLast

/-- The calls that change names. -/
inductive Call where
  | rename (d : Inode) (old new : Text)
  | unlink (d : Inode) (name : Text)
  | rmdir (d : Inode) (name : Text)

def Fs.perform (fs : Fs) : Call → ℤ × Fs
  | .rename d old new => fs.renameat d old new
  | .unlink d name => fs.unlinkat d name false
  | .rmdir d name => fs.unlinkat d name true

/-- The counters of `pgfile_process`, and its calls, each with the file system it was made on. -/
structure Commit where
  fs : Fs
  totallinks : ℤ
  renamedok : ℤ
  reason : ℤ
  calls : List (Fs × Call)

namespace Commit

def start (fs : Fs) : Commit := ⟨fs, 0, 0, 0, []⟩

/-- One call: `errno`, and what is changed. -/
def perform (s : Commit) (c : Call) : ℤ × Commit :=
  ((s.fs.perform c).1, { s with fs := (s.fs.perform c).2, calls := s.calls ++ [(s.fs, c)] })

/-- A name could not be committed. -/
def fail (s : Commit) (errno : ℤ) : Commit :=
  { s with renamedok := s.renamedok - 1, reason := if s.reason = 0 then -errno else s.reason }

/-- The original file of a whiteout is removed. -/
def removeOriginal (s : Commit) (d : Inode) (newname : Text) : ℤ × Commit :=
  let r := s.perform (.unlink d newname)
  if r.1 = eisdir then r.2.perform (.rmdir d newname) else r

/-- A whiteout: first the original file, and if this succeeds the whiteout, too. -/
def removeFile (s : Commit) (d : Inode) (oldname newname : Text) : Commit :=
  let r := s.removeOriginal d newname
  if r.1 ≠ 0 ∧ r.1 ≠ enoent then r.2.fail r.1
  else
    let q := r.2.perform (.unlink d oldname)
    if q.1 ≠ 0 then q.2.fail q.1 else q.2

/-- A file of the playground; a whiteout beside it goes. -/
def renameFile (s : Commit) (d : Inode) (oldname newname : Text) : Commit :=
  let r := s.perform (.rename d oldname newname)
  let s := if r.1 ≠ 0 then r.2.fail r.1 else r.2
  (s.perform (.unlink d (oldname.set 5 'D'))).2

/-- The directory of a name is open. -/
def commitName (s : Commit) (d : Inode) (oldname : Text) : Commit :=
  let s := { s with renamedok := s.renamedok + 1 }
  match scanName oldname with
  -- such a name has probably been renamed earlier
  | none => s
  | some (ch1, ch2, newname) =>
    if ch2 ≠ '.' ∨ (ch1 ≠ '.' ∧ ch1 ≠ 'D') then s
    else if ch1 = 'D' then s.removeFile d oldname newname
    else s.renameFile d oldname newname

/-- One name in `pgfile_process`. -/
def processName (dirfd file : Inode) (s : Commit) (name : Text) : Commit :=
  let nlink := validateOneName s.fs dirfd file name
  if nlink = 0 then s
  else
    let (front, oldname, _) := splitLast (skipSlashes name)
    let s := { s with totallinks := nlink }
    match s.fs.openDir dirfd front with
    | none => s
    | some dir2 => s.commitName dir2 oldname

end Commit

/-- `pgfile_process`. -/
def pgfileProcess (mounts : ℕ → Option Inode) (fs : Fs) (file : Inode) (names : List Text) : ℤ × Commit :=
  match mounts file.dev with
  | none => (-exdev, Commit.start fs)
  | some dirfd =>
    let s := (normalizeFileList names).foldl (Commit.processName dirfd file) (Commit.start fs)
    let reason := if s.totallinks = 0 then -enoent else s.reason
    (if reason = 0 ∧ s.renamedok < s.totallinks then -ebusy else reason, s)

end Anoubis.Ui

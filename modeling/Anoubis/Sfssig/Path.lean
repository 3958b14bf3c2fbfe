import Anoubis.Proto.Server

/-! Paths of the sfssig tool (`utils.c`).

    `sfs_realpath` resolves the components of a path one after the other. A symbolic link is replaced by its target,
    and behind a component that is not there no further links are looked for:

        resolved │ left                /l → /d, /d/x is not there
        /        │ l/x/y
        /        │ d/x/y               the link, with what is left behind its target
        /d/x     │ y
        /d/x/y   │                                                                             -/

namespace Anoubis.Sfssig

open Anoubis.Connection (Bytes)

def slash : UInt8 := 47
def dot : UInt8 := 46

def pathMax : ℕ := 4096
def maxSymlinks : ℕ := 20

/-- What lstat and readlink give for a path. -/
inductive Kind where
  | reg
  | dir
  | link (target : Bytes)
  | other
  deriving DecidableEq

/-- The file system; lstat may fail, and so may getcwd. -/
structure Fs where
  lstat : Bytes → Option Kind
  cwd : Option Bytes

/-- `build_path`, for a path that is not empty. -/
def buildPath (path file : Bytes) : Bytes :=
  let res := if path.getLast? = some slash then path ++ file else path ++ slash :: file
  if 1 < res.length ∧ res.getLast? = some slash then res.dropLast else res

/-! ### `sfs_realpath` -/

/-- Strip the last component; the path ends behind a slash. -/
def stripLast (resolved : Bytes) : Bytes := (resolved.dropLast.reverse.dropWhile (· ≠ slash)).reverse

/-- A slash at the end. -/
def appendSlash (resolved : Bytes) : Option Bytes :=
  if resolved.getLast? = some slash then some resolved
  else if resolved.length + 1 ≥ pathMax then none
  else some (resolved ++ [slash])

/-- The loop ends with an error, at the end of the path, or at a symbolic link with the components behind it. -/
inductive Walked where
  | failed
  | done (resolved : Bytes)
  | link (resolved target : Bytes) (rest : List Bytes)
  deriving DecidableEq

/-- The loop of `sfs_realpath`, up to a symbolic link. -/
def walkTokens (fs : Fs) : List Bytes → Bytes → Bool → Walked
  | [], resolved, _ => .done resolved
  | token :: rest, resolved, lstatFail =>
    match appendSlash resolved with
    | none => .failed
    | some resolved =>
      if token = [] ∨ token = [dot] then walkTokens fs rest resolved lstatFail
      else if token = [dot, dot] then
        walkTokens fs rest (if 1 < resolved.length then stripLast resolved else resolved) lstatFail
      else
        let resolved := resolved ++ token
        if resolved.length ≥ pathMax then .failed
        else if lstatFail then walkTokens fs rest resolved true
        else match fs.lstat resolved with
          | none => walkTokens fs rest resolved true
          | some (.link target) => .link resolved (target.take (pathMax - 1)) rest
          | some _ => walkTokens fs rest resolved false

/-- The components of `left`. -/
def tokens (left : Bytes) : List Bytes := if left = [] then [] else left.splitOn slash

/-- The target of a link with what is left behind it. -/
def linkLeft (target : Bytes) (rest : List Bytes) : Option Bytes :=
  if rest = [] then some target
  else
    let symlink := if target.getLast? = some slash then some target
      else if target.length + 1 ≥ pathMax then none
      else some (target ++ [slash])
    symlink.bind fun symlink =>
      let left := symlink ++ [slash].intercalate rest
      if left.length ≥ pathMax then none else some left

/-- The directory from which a link is resolved. -/
def linkBase (resolved target : Bytes) : Bytes :=
  if target.head? = some slash then [slash] else if 1 < resolved.length then stripLast resolved else resolved

/-- `sfs_realpath` with so many links to come. -/
def resolveLinks (fs : Fs) : ℕ → Bytes → Bytes → Option Bytes
  | 0, left, resolved =>
    match walkTokens fs (tokens left) resolved false with
    | .done resolved => some resolved
    | _ => none
  | links + 1, left, resolved =>
    match walkTokens fs (tokens left) resolved false with
    | .done resolved => some resolved
    | .failed => none
    | .link resolved target rest =>
      (linkLeft target rest).bind fun left => resolveLinks fs links left (linkBase resolved target)

/-- `sfs_realpath`; NULL where the path is too long or has too many links. -/
def sfsRealpath (fs : Fs) (path : Bytes) : Option Bytes :=
  if path = [slash] then some [slash]
  else
    let start := if path.head? = some slash then some ([slash], path.tail) else fs.cwd.map fun cwd => (cwd, path)
    start.bind fun (resolved, left) =>
      if left.length ≥ pathMax ∨ resolved.length ≥ pathMax then none
      else (resolveLinks fs (maxSymlinks + 1) left resolved).map fun resolved =>
        if 1 < resolved.length ∧ resolved.getLast? = some slash then resolved.dropLast else resolved

end Anoubis.Sfssig

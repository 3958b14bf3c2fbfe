import Anoubis.Basic
import Anoubis.Lib.CString
import Mathlib.Data.List.AList

/-! Playgrounds and their management directories (`pe_playground.c`).

    For each playground the policy engine keeps a structure with counters in memory and a directory on
    disk. The directory has one name file for each labelled file, called after its device and inode.

        playgrounds --> struct playground (nrprocs, nrfiles)      memory, gone after a restart
                            │
        playground/<pgid>/  ├── UID, ...
                            └── <dev>:<ino>   "path\0path\0"      disk

    A slot is what exists under one ID. The functions work on the slot that `pe_playground_find` finds. -/

namespace Anoubis.Pe.Pg

open Anoubis.Lib Option

/-- Device and inode, the name of a name file. -/
structure Key where
  dev : ℕ
  ino : ℕ
  deriving DecidableEq

/-- A management directory: the user in the file `UID`, and the name files. -/
structure Dir where
  uid : Option ℕ
  files : AList (fun _ : Key => List UInt8)
  deriving DecidableEq

/-- `struct playground`. -/
structure Playground where
  founder : ℕ
  namefounder : ℕ
  didExec : Bool
  nrprocs : ℤ
  nrfiles : ℤ
  uid : ℕ
  scandev : ℕ
  scanino : ℕ
  deriving DecidableEq

structure Slot where
  pg : Option Playground
  dir : Option Dir
  deriving DecidableEq

/-- The process a function is called for. -/
structure Task where
  taskCookie : ℕ
  uid : ℕ
  deriving DecidableEq

/-- A call of `send_pgchange`: the operation and the user. -/
inductive PgChange where
  | create (uid : ℕ)
  | terminate (uid : ℕ)
  deriving DecidableEq

/-- What a function leaves: the slot, the notifications, and if it calls `pe_playground_save_last_pgid`. -/
structure Res where
  slot : Slot
  sent : List PgChange
  saved : Bool
  deriving DecidableEq

/-- How the calls on the directory go in `pe_playground_trykill`. The descriptor of the structure is good
    iff the directory exists. -/
structure DirOps where
  opendir : Bool
  /-- name files that `unlinkat` fails for -/
  stuck : List Key
  /-- `unlinkat` of `UID` -/
  uid : Bool
  /-- `unlinkat` of the other entries -/
  others : Bool
  rmdir : Bool
  deriving DecidableEq

def DirOps.fine : DirOps := ⟨true, [], true, true, true⟩

namespace Slot

/-! ### Structures -/

/-- `pe_playground_create`. -/
def create (doMkdir : Bool) (x : Slot) : Slot :=
  match x.pg with
  | some _ => x
  | none => {
    pg := some ⟨0, 0, false, 0, 0, uidDefault, 0, 0⟩
    dir := if doMkdir then some (x.dir.getD ⟨none, ∅⟩) else x.dir }

/-- The `readdir` loop of `pe_playground_trykill`, as far as name files are concerned. -/
def unlinkLoop (ops : DirOps) (files : AList (fun _ : Key => List UInt8)) :
    AList (fun _ : Key => List UInt8) :=
  files.keys.foldl (fun files k => if k ∈ ops.stuck then files else files.erase k) files

/-- `pe_playground_trykill`. -/
def trykill (ops : DirOps) (x : Slot) : Slot :=
  match x.pg with
  | none => x
  | some pg =>
    if pg.nrprocs ≠ 0 ∨ pg.nrfiles ≠ 0 then x
    else match x.dir with
    | none => x
    | some d =>
      if !ops.opendir then x
      else
        let d : Dir := ⟨if ops.uid then none else d.uid, unlinkLoop ops d.files⟩
        ⟨none, if ops.rmdir ∧ ops.others ∧ d.uid = none ∧ d.files.keys = [] then none else some d⟩

/-- `pe_playground_initproc`. -/
def initproc (proc : Task) (x : Slot) : Bool × Slot :=
  match x.pg with
  | none => (false, x)
  | some pg =>
    if pg.didExec then (false, x)
    else if pg.founder ≠ 0 ∧ pg.founder ≠ proc.taskCookie then (false, x)
    else (true, {
      pg := some { pg with founder := proc.taskCookie, uid := proc.uid }
      dir := x.dir.map fun d => { d with uid := some proc.uid } })

/-- The end of `pe_playground_postexec`: the process that was asked to rename the playground. -/
def renamed (proc : Task) (x : Slot) : Slot × List PgChange :=
  match x.pg with
  | none => (x, [])
  | some pg =>
    if pg.namefounder = proc.taskCookie then
      ({ x with pg := some { pg with namefounder := 0 } }, [.create pg.uid])
    else (x, [])

/-- `pe_playground_postexec`. -/
def postexec (proc : Task) (x : Slot) : Res :=
  let init := x.initproc proc
  match init.2.pg with
  | none => ⟨x, [], false⟩
  | some pg =>
    if init.1 then
      let r := renamed proc { init.2 with pg := some { pg with didExec := true } }
      ⟨r.1, .create pg.uid :: r.2, true⟩
    else
      let r := renamed proc init.2
      ⟨r.1, r.2, false⟩

/-- `pe_playground_add`. -/
def add (proc : Task) (x : Slot) : Slot :=
  let x := ((x.create true).initproc proc).2
  { x with pg := x.pg.map fun pg => { pg with nrprocs := pg.nrprocs + 1 } }

/-- `pe_playground_rename`. -/
def rename (proc : Task) (x : Slot) : Slot :=
  let x := x.create false
  { x with pg := x.pg.map fun pg => { pg with namefounder := proc.taskCookie } }

/-- `pe_playground_delete`. -/
def delete (ops : DirOps) (x : Slot) : Res :=
  match x.pg with
  | none => ⟨x, [], false⟩
  | some pg =>
    if pg.nrprocs > 0 then
      ⟨trykill ops { x with pg := some { pg with nrprocs := pg.nrprocs - 1 } },
        if pg.nrprocs - 1 = 0 then [.terminate pg.uid] else [], false⟩
    else ⟨x, [], false⟩

/-! ### Name files -/

/-- How the writes to a name file go. -/
structure Writes where
  /-- the NUL behind an unterminated name -/
  nul : Bool
  /-- what `write` puts into the file of the path, which is not all of it if it fails or is short -/
  path : ℕ
  close : Bool
  deriving DecidableEq

/-- One byte of the loop in `pe_playground_file_add`. The offset into the path is `none` while the loop
    skips to the next NUL; the result is `none` when the path is found. -/
def matchByte (path : CString) (pathoff : Option ℕ) (b : UInt8) : Option (Option ℕ) :=
  match pathoff with
  | none => some (if b = 0 then some 0 else none)
  | some off =>
    let c := ((cBytes path)[off]?).getD 0
    if b = c then if c = 0 then none else some (some (off + 1))
    else some (if b = 0 then some 0 else none)

/-- The loop over what is in the file. -/
def matchBytes (path : CString) : Option ℕ → List UInt8 → Option (Option ℕ)
  | pathoff, [] => some pathoff
  | pathoff, b :: bs => (matchByte path pathoff b).bind fun pathoff => matchBytes path pathoff bs

/-- `pe_playground_file_add` on what is in the file: the result and the new contents. -/
def fileAdd (path : CString) (w : Writes) (old : List UInt8) : ℤ × List UInt8 :=
  let newfile : ℤ := if old = [] then 1 else 0
  match matchBytes path (some 0) old with
  | none => (-1, old)
  | some pathoff =>
    if pathoff ≠ some 0 ∧ !w.nul then (-1, old)
    else
      let old := if pathoff ≠ some 0 then old ++ [0] else old
      let bytes := cBytes path
      (if bytes.length ≤ w.path ∧ w.close then newfile else -1, old ++ bytes.take w.path)

/-- `openat` with `O_CREAT`, and `pe_playground_file_add` on the file. -/
def dirFileAdd (name : Key) (path : CString) (w : Writes) (d : Dir) : ℤ × Dir :=
  let r := fileAdd path w ((d.files.lookup name).getD [])
  (r.1, { d with files := d.files.insert name r.2 })

/-- A name that `pe_playground_rename_dir_one_file` puts into a file of the directory. -/
structure Renamed where
  name : Key
  path : CString
  writes : Writes
  deriving DecidableEq

/-- `pe_playground_dir_rename`: the files of the device other than the directory itself get the names
    that were found in them. -/
def dirRename (dev ino : ℕ) : List Renamed → Dir → Dir
  | [], d => d
  | r :: rs, d =>
    if r.name.dev = dev ∧ r.name.ino ≠ ino ∧ r.name ∈ d.files then
      dirRename dev ino rs (dirFileAdd r.name r.path r.writes d).2
    else dirRename dev ino rs d

/-- `pe_playground_file_instantiate`; `found` is given if there is an old path. -/
def fileInstantiate (dev ino : ℕ) (path : CString) (found : Option (List Renamed)) (w : Writes) (x : Slot) :
    Slot :=
  if path = [] then x
  else
    let x := x.create true
    match x.dir with
    | none => x
    | some d =>
      let r := dirFileAdd ⟨dev, ino⟩ path w d
      if r.1 = 1 then
        ⟨x.pg.map fun pg => { pg with nrfiles := pg.nrfiles + 1 }, some r.2⟩
      else
        match found with
        | none => ⟨x.pg, some r.2⟩
        | some found => ⟨x.pg, some (dirRename dev ino found r.2)⟩

/-- `pe_playground_file_delete`; `unlinked` tells if `unlinkat` works on a file that exists. -/
def fileDelete (dev ino : ℕ) (unlinked : Bool) (ops : DirOps) (x : Slot) : Slot :=
  match x.pg, x.dir with
  | some pg, some d =>
    if unlinked ∧ ⟨dev, ino⟩ ∈ d.files then
      trykill ops ⟨some { pg with nrfiles := pg.nrfiles - 1 },
        some { d with files := d.files.erase ⟨dev, ino⟩ }⟩
    else x
  | _, _ => x

/-- `pe_playground_file_scanrequest`. -/
def fileScanrequest (dev ino : ℕ) (path : CString) (uid : ℕ) (w : Writes) (x : Slot) : ℤ × Slot :=
  if path = [] then (-(einval : ℤ), x)
  else
    let x := fileInstantiate dev ino path none w x
    match x.pg with
    | none => (-(esrch : ℤ), x)
    | some pg =>
      if uid ≠ 0 ∧ (pg.uid ≠ uid ∨ pg.uid = uidDefault) then (-(eperm : ℤ), x)
      else (0, { x with pg := some { pg with scandev := dev, scanino := ino } })

/-- `pe_playground_dispatch_unlink`: the error in the reply, and the slot. -/
def dispatchUnlink (authUid dev ino : ℕ) (unlinked : Bool) (ops : DirOps) (x : Slot) : ℕ × Slot :=
  match x.pg with
  | none => (esrch, x)
  | some pg =>
    if authUid ≠ 0 ∧ pg.uid ≠ authUid then (eperm, x)
    else (0, fileDelete dev ino unlinked ops x)

/-- `pe_playground_read`, on a directory that is there when the policy engine starts. -/
def read (ops : DirOps) (x : Slot) : Slot :=
  match x.dir with
  | none => x
  | some d =>
    let pg : Playground := match x.pg with
      | some pg => pg
      | none => ⟨0, 0, true, 0, 0, uidDefault, 0, 0⟩
    trykill ops ⟨some { pg with uid := d.uid.getD uidDefault,
                                nrfiles := pg.nrfiles + d.files.keys.length }, some d⟩


/-! ### Files and counters -/

def files (x : Slot) : AList (fun _ : Key => List UInt8) := (x.dir.map Dir.files).getD ∅

/-- The names of the name files. -/
def names (x : Slot) : List Key := x.files.keys

/-- The counters; an unknown playground counts nothing. -/
def nrfiles (x : Slot) : ℤ := (x.pg.map Playground.nrfiles).getD 0

def nrprocs (x : Slot) : ℤ := (x.pg.map Playground.nrprocs).getD 0

/-- Name files and counters are what they were. -/
structure Same (x x' : Slot) : Prop where
  files : x'.files = x.files
  nrfiles : x'.nrfiles = x.nrfiles
  nrprocs : x'.nrprocs = x.nrprocs

theorem Same.refl (x : Slot) : Same x x := ⟨rfl, rfl, rfl⟩

theorem Same.trans {x y z : Slot} (h : Same x y) (h' : Same y z) : Same x z :=
  ⟨h'.files.trans h.files, h'.nrfiles.trans h.nrfiles, h'.nrprocs.trans h.nrprocs⟩

theorem create_same (b : Bool) (x : Slot) : Same x (x.create b) := by
  rcases x with ⟨_ | pg, _ | d⟩ <;> cases b <;> exact ⟨rfl, rfl, rfl⟩

theorem create_known (b : Bool) (x : Slot) : (x.create b).pg ≠ none := by
  rcases x with ⟨_ | pg, d⟩ <;> exact some_ne_none _

variable (proc : Task)

theorem initproc_same (x : Slot) : Same x (x.initproc proc).2 := by
  rcases x with ⟨_ | pg, d⟩
  · exact Same.refl _
  · simp only [initproc]
    split
    · exact Same.refl _
    · split
      · exact Same.refl _
      · cases d <;> exact ⟨rfl, rfl, rfl⟩

theorem initproc_known {x : Slot} (h : x.pg ≠ none) : (x.initproc proc).2.pg ≠ none := by
  rcases x with ⟨_ | pg, d⟩
  · exact absurd rfl h
  · simp only [initproc]
    split
    · exact h
    · split
      · exact h
      · exact some_ne_none _

theorem renamed_same (x : Slot) : Same x (x.renamed proc).1 := by
  rcases x with ⟨_ | pg, d⟩
  · exact Same.refl _
  · simp only [renamed]
    split
    · exact ⟨rfl, rfl, rfl⟩
    · exact Same.refl _

theorem renamed_known {x : Slot} (h : x.pg ≠ none) : (x.renamed proc).1.pg ≠ none := by
  rcases x with ⟨_ | pg, d⟩
  · exact absurd rfl h
  · simp only [renamed]
    split
    · exact some_ne_none _
    · exact h

theorem postexec_same (x : Slot) : Same x (x.postexec proc).slot := by
  have hinit := initproc_same proc x
  rw [postexec]
  cases hpg : (x.initproc proc).2.pg with
  | none => exact Same.refl x
  | some pg =>
    have hexec : Same (x.initproc proc).2
        { (x.initproc proc).2 with pg := some { pg with didExec := true } } :=
      ⟨rfl, by simp [nrfiles, hpg], by simp [nrprocs, hpg]⟩
    dsimp only
    split
    · exact (hinit.trans hexec).trans (renamed_same _ _)
    · exact hinit.trans (renamed_same _ _)

theorem postexec_known {x : Slot} (h : x.pg ≠ none) : (x.postexec proc).slot.pg ≠ none := by
  have hinit := initproc_known proc h
  rw [postexec]
  cases hpg : (x.initproc proc).2.pg with
  | none => exact absurd hpg hinit
  | some pg =>
    dsimp only
    split
    · exact renamed_known _ (some_ne_none _)
    · exact renamed_known _ hinit

/-- One process more, everything else as before. -/
theorem add_spec (x : Slot) : (x.add proc).files = x.files ∧ (x.add proc).nrfiles = x.nrfiles ∧
    (x.add proc).nrprocs = x.nrprocs + 1 ∧ (x.add proc).pg ≠ none := by
  have h := (create_same true x).trans (initproc_same proc _)
  have hk := initproc_known proc (create_known true x)
  cases hpg : ((x.create true).initproc proc).2.pg with
  | none => exact absurd hpg hk
  | some pg =>
    have hf : x.nrfiles = pg.nrfiles := by rw [← h.nrfiles, nrfiles, hpg]; rfl
    have hp : x.nrprocs = pg.nrprocs := by rw [← h.nrprocs, nrprocs, hpg]; rfl
    refine ⟨h.files, ?_, ?_, ?_⟩
    · rw [hf, add, nrfiles, hpg]
      rfl
    · rw [hp, add, nrprocs, hpg]
      rfl
    · rw [add, hpg]
      exact some_ne_none _

theorem rename_same (x : Slot) : Same x (x.rename proc) := by
  refine (create_same false x).trans ?_
  rw [rename]
  cases hpg : (x.create false).pg with
  | none => exact ⟨rfl, by simp [nrfiles, hpg], by simp [nrprocs, hpg]⟩
  | some pg => exact ⟨rfl, by simp [nrfiles, hpg], by simp [nrprocs, hpg]⟩

theorem rename_known (x : Slot) : (x.rename proc).pg ≠ none := by
  have hk := create_known false x
  cases hpg : (x.create false).pg with
  | none => exact absurd hpg hk
  | some pg =>
    rw [rename, hpg]
    exact some_ne_none _

/-! ### Removing a playground -/

theorem unlinkLoop_nil (ops : DirOps) {files : AList (fun _ : Key => List UInt8)} (h : files.keys = []) :
    unlinkLoop ops files = files := by
  rw [unlinkLoop, h]
  rfl

theorem files_ite (c : Prop) [Decidable c] (d : Dir) : (⟨none, if c then none else some d⟩ : Slot).files = d.files ∨
      (⟨none, if c then none else some d⟩ : Slot).dir = none := by
  by_cases h : c
  · exact .inr (if_pos h)
  · rw [if_neg h]
    exact .inl rfl

/-- `pe_playground_trykill` does nothing, or the counters are zero and the directory can be opened. -/
theorem trykill_cases (ops : DirOps) (x : Slot) : x.trykill ops = x ∨
    (x.nrprocs = 0 ∧ x.nrfiles = 0 ∧ x.pg ≠ none ∧ (x.trykill ops).pg = none ∧
      ((x.trykill ops).files = unlinkLoop ops x.files ∨ (x.trykill ops).dir = none)) := by
  rcases x with ⟨_ | pg, d⟩
  · exact .inl rfl
  · simp only [trykill]
    split
    · exact .inl rfl
    · rename_i hzero
      rw [not_or, not_not, not_not] at hzero
      cases d with
      | none => exact .inl rfl
      | some d =>
        dsimp only
        split
        · exact .inl rfl
        · refine .inr ⟨hzero.1, hzero.2, some_ne_none _, rfl, ?_⟩
          exact files_ite _ _

theorem trykill_fine {pg : Playground} {d : Dir} (hp : pg.nrprocs = 0) (hf : pg.nrfiles = 0)
    (hd : d.files.keys = []) : trykill .fine ⟨some pg, some d⟩ = ⟨none, none⟩ := by
  have hz : ¬ (pg.nrprocs ≠ 0 ∨ pg.nrfiles ≠ 0) := by simp [hp, hf]
  simp only [trykill]
  rw [if_neg hz]
  simp [DirOps.fine, unlinkLoop_nil _ hd, hd]

end Slot

end Anoubis.Pe.Pg

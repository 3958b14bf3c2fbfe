import Anoubis.Apn.Types
import Anoubis.Lib.Run
import Anoubis.Lib.Update
import Mathlib.Data.Char
import Mathlib.Data.List.Lex
import Mathlib.Data.List.Sort
import Mathlib.Data.Int.Basic

/-! Software upgrades (`pe.c`, `pe_proc.c`, `pe_filetree.c`, `dispatch_upgrade`).

    A process that locks the upgrade file, or that executes a trigger, becomes an upgrade parent; its
    children inherit the upgrade mark. Checksummed files that marked processes write are collected in
    the upgrade tree. When the last parent ends, the tree is pruned and handed to the upgrade process;
    until that reports the end, a new parent is put on hold.

        lock, exec --> start --> counter > 0 --> unlock, exit, destroy --> prune, send --> finish
                   └─▶ hold  ◀──────────────────── counter = 0, tree allocated ◀──────────┘       -/

namespace Anoubis.Pe.Upgrade

open Anoubis.Apn Anoubis.Lib

/-! ### The file tree -/

/-- `struct pe_filetree_node`; the hash value is a function of the path. -/
structure Node where
  path : Text
  taskCookie : ℕ
  deriving DecidableEq

/-- `*str` of a (signed) `char`, widened to `unsigned long`. -/
def charULong (c : Char) : ℕ :=
  if c.toNat % 256 < 128 then c.toNat % 256 else 2 ^ 64 - 256 + c.toNat % 256

/-- One round of `hash_fn`. -/
def hashRound (ret : ℕ) (c : Char) : ℕ :=
  let ret := ((ret <<< 1) % 2 ^ 64) ^^^ charULong c
  (ret ^^^ (ret >>> 24)) % 2 ^ 24

/-- `hash_fn`. -/
def hashFn (str : Text) : ℕ := str.foldl hashRound 0 % 2 ^ 24

/-- `hashcmp(e1, e2) <= 0`: by hash value first, equal hash values by `strcmp`. -/
def hashcmpLe (e1 e2 : Node) : Bool :=
  if hashFn e1.path = hashFn e2.path then e1.path ≤ e2.path else hashFn e1.path < hashFn e2.path

/-- `struct pe_file_tree`: the nodes in the order of RB_MIN and RB_NEXT. -/
abbrev FileTree := List Node

/-- `pe_filetree_find`. -/
def peFiletreeFind (f : FileTree) (path : Text) : Option Node := f.find? (fun n => n.path = path)

/-- `pe_filetree_insert`: an existing node stays, but the cookie zero is put into it. -/
def peFiletreeInsert (f : FileTree) (path : Text) (cookie : ℕ) : FileTree :=
  match peFiletreeFind f path with
  | none => f.orderedInsert (fun e1 e2 => hashcmpLe e1 e2) ⟨path, cookie⟩
  | some _ =>
    if cookie = 0 then modifyFirst (fun n => n.path = path) (fun n => { n with taskCookie := 0 }) f
    else f

/-- The loop of `pe_upgrade_end`; `last` is `last_cookie`. -/
def prune (running : ℕ → Bool) : ℕ → FileTree → FileTree
  | _, [] => []
  | last, it :: next =>
    if it.taskCookie = 0 ∨ it.taskCookie = last then it :: prune running last next
    else if running it.taskCookie then prune running last next
    else it :: prune running it.taskCookie next

/-! ### Processes -/

/-- What upgrades read and change of a `struct pe_proc`. -/
structure Task where
  taskCookie : ℕ
  instances : ℤ
  threads : ℕ
  upgrade : Bool
  upgradeParent : Bool
  hold : Bool
  deriving DecidableEq

/-- `pe_proc_upgrade_addmark`. -/
def Task.addmark (p : Task) : Task := { p with upgrade := true, upgradeParent := true }

/-- `pe_proc_upgrade_clrmark`. -/
def Task.clrmark (p : Task) : Task := { p with upgrade := false, upgradeParent := false }

/-- `pe_proc_hold`. -/
def Task.setHold (p : Task) : Task := { p with hold := true }

/-- `pe_proc_alloc` and `pe_proc_track`. -/
def newTask (cookie : ℕ) : Task := ⟨cookie, 1, 0, false, false, false⟩

/-- The static variables of `pe.c` and `pe_proc.c`. `started` counts the messages of
    `send_upgrade_start`. -/
structure Globals where
  upgradeTree : Option FileTree
  upgradeCounter : ℤ
  upgradeOk : Bool
  haveTaskTracking : Bool
  started : ℕ
  deriving DecidableEq

structure State where
  tracker : List Task
  g : Globals
  deriving DecidableEq

/-- `pe_init`. -/
def State.init : State := ⟨[], ⟨none, 0, true, false, 0⟩⟩

/-- `proc->task_cookie == cookie`. -/
def hasCookie (cookie : ℕ) (p : Task) : Bool := p.taskCookie = cookie

/-- `pe_proc_get`. -/
def State.get (st : State) (cookie : ℕ) : Option Task := st.tracker.find? (hasCookie cookie)

/-- Change the process that `pe_proc_get` returns. -/
def State.modify (st : State) (cookie : ℕ) (f : Task → Task) : State :=
  { st with tracker := modifyFirst (hasCookie cookie) f st.tracker }

/-- `pe_proc_is_running`. -/
def State.isRunning (st : State) (cookie : ℕ) : Bool :=
  (st.get cookie).any (fun p => 0 < p.threads || !st.g.haveTaskTracking)

/-! ### Start and end -/

/-- `pe_upgrade_start`: the new globals, and what becomes of the process (if there is one). -/
def peUpgradeStart (g : Globals) (proc : Option Task) : Globals × (Task → Task) :=
  if proc.any (·.upgradeParent) then (g, id)
  else match g.upgradeTree with
    | none => ({ g with upgradeTree := some [], upgradeCounter := g.upgradeCounter + 1 }, Task.addmark)
    | some _ =>
      if g.upgradeCounter = 0 then (g, Task.setHold)
      else ({ g with upgradeCounter := g.upgradeCounter + 1 }, Task.addmark)

/-- `pe_upgrade_start(pe_proc_get(cookie))`. -/
def State.start (st : State) (cookie : ℕ) : State :=
  let (g, mark) := peUpgradeStart st.g (st.get cookie)
  ⟨(st.modify cookie mark).tracker, g⟩

/-- `pe_upgrade_end` behind `pe_proc_upgrade_clrmark(proc)`. -/
def endTail (st : State) (isparent : Bool) : State :=
  if !isparent then st
  else
    let counter := st.g.upgradeCounter - 1
    if 0 < counter then { st with g.upgradeCounter := counter }
    else
      { tracker := st.tracker.map Task.clrmark
        g := { st.g with
          upgradeCounter := counter
          upgradeTree := st.g.upgradeTree.map (prune st.isRunning 0)
          started := st.g.started + 1 } }

/-- `pe_upgrade_end(pe_proc_get(cookie))`. -/
def State.end (st : State) (cookie : ℕ) : State :=
  endTail (st.modify cookie Task.clrmark) ((st.get cookie).any (·.upgradeParent))

/-- `pe_proc_release`. -/
def peProcRelease : Globals → List Task → Globals × List Task
  | g, [] => (g, [])
  | g, p :: ps =>
    if p.hold then
      let p := { p with hold := false }
      let (g, mark) := peUpgradeStart g (some p)
      let (g, ps) := peProcRelease g ps
      (g, mark p :: ps)
    else
      let (g, ps) := peProcRelease g ps
      (g, p :: ps)

/-- `pe_upgrade_finish(); pe_proc_release();` in `dispatch_upgrade`. -/
def State.finish (st : State) : State :=
  let (g, tracker) := peProcRelease { st.g with upgradeTree := none } st.tracker
  ⟨tracker, g⟩

/-! ### Events -/

/-- ANOUBISD_UPGRADE_MODE_OFF and so on. -/
inductive Mode where
  | off
  | strictLock
  | looseLock
  | process
  deriving DecidableEq

/-- The part of `anoubisd_config` that concerns upgrades. -/
structure Config where
  upgradeMode : Mode
  upgradeTrigger : List Text
  deriving DecidableEq

/-- `reply` and `hold` of the answer to a path event. -/
structure PathReply where
  reply : ℕ
  hold : Bool
  deriving DecidableEq

/-- `pe_handle_sfspath` for ANOUBIS_PATH_OP_LOCK. -/
def lock (conf : Config) (st : State) (cookie msgUid : ℕ) : State × PathReply :=
  let answer (st : State) (reply : ℕ) := (st, ⟨reply, (st.get cookie).any (·.hold)⟩)
  if msgUid = 0 ∧ (conf.upgradeMode = .strictLock ∨ conf.upgradeMode = .looseLock) then
    if st.g.upgradeOk ∨ st.g.upgradeCounter ≠ 0 then answer (st.start cookie) 0
    else answer st eperm
  else answer st 0

/-- `pe_handle_sfspath` for ANOUBIS_PATH_OP_UNLOCK. -/
def unlock (conf : Config) (st : State) (cookie msgUid : ℕ) : State × PathReply :=
  let st' := if msgUid = 0 ∧ conf.upgradeMode = .strictLock then st.end cookie else st
  (st', ⟨0, (st'.get cookie).any (·.hold)⟩)

/-- `pe_proc_fork`. -/
def peProcFork (st : State) (child parentCookie : ℕ) : State :=
  { st with tracker := st.tracker ++
    [{ newTask child with upgrade := (st.get parentCookie).any (·.upgrade) }] }

/-- `pe_proc_exec`. -/
def peProcExec (conf : Config) (st : State) (cookie uid : ℕ) (pathhint : Option Text) : State :=
  let st := if (st.get cookie).isSome then st else { st with tracker := st.tracker ++ [newTask cookie] }
  if uid = 0 ∧ conf.upgradeMode = .process ∧ pathhint.any (· ∈ conf.upgradeTrigger) then
    st.start cookie
  else st

/-- `pe_proc_addinstance`. -/
def peProcAddinstance (st : State) (cookie : ℕ) : State :=
  st.modify cookie (fun p => { p with instances := p.instances + 1 })

/-- `pe_proc_exit`. -/
def peProcExit (st : State) (cookie : ℕ) : State :=
  match st.get cookie with
  | none => st
  | some p =>
    if p.instances - 1 ≠ 0 then st.modify cookie (fun p => { p with instances := p.instances - 1 })
    else endTail { st with tracker := st.tracker.eraseP (hasCookie cookie) } p.upgradeParent

/-- `have_task_tracking = 1`. -/
def State.tracking (st : State) : State := { st with g.haveTaskTracking := true }

/-- `pe_proc_add_thread`. -/
def peProcAddThread (st : State) (cookie : ℕ) : State :=
  st.tracking.modify cookie (fun p => { p with threads := p.threads + 1 })

/-- `pe_proc_remove_thread`. -/
def peProcRemoveThread (st : State) (cookie : ℕ) : State :=
  match st.get cookie with
  | none => st.tracking
  | some p =>
    if p.threads = 0 then st.tracking
    else
      let st := st.tracking.modify cookie (fun p => { p with threads := p.threads - 1 })
      if p.threads - 1 = 0 then st.end cookie else st

/-- What one event writes to the upgrade tree. -/
structure Write where
  path : Text
  cookie : ℕ
  parent : Bool
  deriving DecidableEq

/-- The cookie that `pe_handle_sfs` stores. -/
def Write.key (x : Write) : ℕ := if x.parent then 0 else x.cookie

/-- The first test of `pe_handle_sfs`: an upgrade process writes a file with a checksum
    (`sfs_haschecksum_chroot(path) > 0`). -/
def writes (st : State) (cookie : ℕ) (path : Option Text) (amask : ℕ) (haschecksum : Bool) :
    Option Write :=
  match st.get cookie, path with
  | some p, some path =>
    if p.upgrade ∧ amask &&& sbaWrite ≠ 0 ∧ haschecksum then some ⟨path, cookie, p.upgradeParent⟩ else none
  | _, _ => none

/-- `pe_filetree_insert(upgrade_tree, ...)`. -/
def insertWrite (f : Option FileTree) (x : Write) : Option FileTree :=
  f.map (fun f => peFiletreeInsert f x.path x.key)

/-- `pe_handle_sfs`, as far as the upgrade tree is concerned. The two flags are PE_UPGRADE_TOUCHED and
    PE_UPGRADE_WRITEOK. -/
def peHandleSfs (st : State) (cookie : ℕ) (path : Option Text) (amask : ℕ) (haschecksum : Bool) :
    State × Bool × Bool :=
  let isUpgrade := (st.get cookie).any (·.upgrade)
  match writes st cookie path amask haschecksum with
  | some x => ({ st with g.upgradeTree := insertWrite st.g.upgradeTree x }, true, isUpgrade)
  | none =>
    let touched := !(isUpgrade && amask &&& sbaWrite ≠ 0) &&
      path.any (fun path => st.g.upgradeTree.any (fun f => (peFiletreeFind f path).isSome))
    (st, touched, touched && isUpgrade)

/-- The events that reach upgrade handling. -/
inductive Event where
  | lock (cookie msgUid : ℕ)
  | unlock (cookie msgUid : ℕ)
  | fork (child parent : ℕ)
  | exec (cookie uid : ℕ) (pathhint : Option Text)
  | exit (cookie : ℕ)
  | replace (keep gone : ℕ)
  | create (cookie : ℕ)
  | destroy (cookie : ℕ)
  | openFile (cookie : ℕ) (path : Option Text) (amask : ℕ) (haschecksum : Bool)
  | finish
  | setUpgradeOk (value : Bool)
  deriving DecidableEq

/-- One event, under the configuration of that moment. -/
def step (st : State) : Config × Event → State
  | (conf, .lock cookie msgUid) => (lock conf st cookie msgUid).1
  | (conf, .unlock cookie msgUid) => (unlock conf st cookie msgUid).1
  | (_, .fork child parent) => peProcFork st child parent
  | (conf, .exec cookie uid pathhint) => peProcExec conf st cookie uid pathhint
  | (_, .exit cookie) => peProcExit st cookie
  | (_, .replace keep gone) => peProcExit (peProcAddinstance st keep) gone
  | (_, .create cookie) => peProcAddThread st cookie
  | (_, .destroy cookie) => peProcRemoveThread st cookie
  | (_, .openFile cookie path amask haschecksum) => (peHandleSfs st cookie path amask haschecksum).1
  | (_, .finish) => st.finish
  | (_, .setUpgradeOk value) => { st with g.upgradeOk := value }

/-- A run of the policy engine. -/
def run (st : State) (es : List (Config × Event)) : State := es.foldl step st

end Anoubis.Pe.Upgrade

import Anoubis.Pe.Playground
import Anoubis.Lib.Run
import Anoubis.Lib.Update

/-! Playgrounds under the events of the kernel (`pe_proc.c`, `pe.c`, `pe_playground.c`).

    The process tracker hears about processes and calls the functions of the playgrounds by ID; events
    about labelled files and unlink requests go to the playgrounds directly.

        event --> tracker --> pe_playground_add, _delete, _rename, _postexec --> slot of the pgid
              └──▶ pe_playground_file_instantiate, _file_delete, ...         ──▶ slot of the pgid

    What the tracker does depends on the tracker alone. Between two events each tracked process has one
    reference, so the last instance frees it. -/

namespace Anoubis.Pe.Pg

open Anoubis.Lib List

/-- `struct pe_proc`. -/
structure Proc where
  taskCookie : ℕ
  uid : ℕ
  pgid : ℕ
  threads : ℕ
  instances : ℤ
  deriving DecidableEq

def Proc.task (p : Proc) : Task := ⟨p.taskCookie, p.uid⟩

/-- All playgrounds, the ID in the last-pgid file (zero without the file) and the notifications with
    their playgrounds. -/
structure Pes where
  slots : AList (fun _ : ℕ => Slot)
  lastPgid : ℕ
  sent : List (PgChange × ℕ)

def Pes.init : Pes := ⟨∅, 0, []⟩

/-- `pe_playground_find`, and the directory of the ID. -/
def Pes.slot (s : Pes) (pgid : ℕ) : Slot := (s.slots.lookup pgid).getD ⟨none, none⟩

/-- A function works on the slot of one playground. -/
def Pes.put (s : Pes) (pgid : ℕ) (r : Res) : Pes :=
  { slots := s.slots.insert pgid r.slot
    lastPgid := if r.saved then pgid else s.lastPgid
    sent := s.sent ++ r.sent.map fun c => (c, pgid) }

/-! ### Calls -/

/-- A call of a function of `pe_playground.c` with its playground ID. -/
inductive Call where
  | add (pgid : ℕ) (proc : Task)
  | rename (pgid : ℕ) (proc : Task)
  | postexec (pgid : ℕ) (proc : Task)
  | delete (pgid : ℕ) (ops : DirOps)
  | instantiate (pgid dev ino : ℕ) (path : CString) (found : Option (List Slot.Renamed)) (w : Slot.Writes)
  | fileDelete (pgid dev ino : ℕ) (unlinked : Bool) (ops : DirOps)
  | scanrequest (pgid dev ino : ℕ) (path : CString) (uid : ℕ) (w : Slot.Writes)
  | unlink (authUid pgid dev ino : ℕ) (unlinked : Bool) (ops : DirOps)
  deriving DecidableEq

def Call.pgid : Call → ℕ
  | .add pgid _ | .rename pgid _ | .postexec pgid _ | .delete pgid _ | .instantiate pgid _ _ _ _ _
  | .fileDelete pgid _ _ _ _ | .scanrequest pgid _ _ _ _ _ | .unlink _ pgid _ _ _ _ => pgid

/-- What a call does with the slot of its playground. -/
def Call.run : Call → Slot → Res
  | .add _ proc, x => ⟨x.add proc, [], false⟩
  | .rename _ proc, x => ⟨x.rename proc, [], false⟩
  | .postexec _ proc, x => x.postexec proc
  | .delete _ ops, x => x.delete ops
  | .instantiate _ dev ino path found w, x => ⟨x.fileInstantiate dev ino path found w, [], false⟩
  | .fileDelete _ dev ino unlinked ops, x => ⟨x.fileDelete dev ino unlinked ops, [], false⟩
  | .scanrequest _ dev ino path uid w, x => ⟨(x.fileScanrequest dev ino path uid w).2, [], false⟩
  | .unlink authUid _ dev ino unlinked ops, x => ⟨(x.dispatchUnlink authUid dev ino unlinked ops).2, [], false⟩

def Pes.call (s : Pes) (c : Call) : Pes := s.put c.pgid (c.run (s.slot c.pgid))

/-- `pe_playground_init` of a policy engine that starts over. -/
def Pes.restart (ops : ℕ → DirOps) (s : Pes) : Pes :=
  s.slots.keys.foldl (fun s pgid => s.put pgid ⟨(⟨none, (s.slot pgid).dir⟩ : Slot).read (ops pgid), [], false⟩) s

/-! ### Tracking -/

abbrev Tracker := List Proc

/-- `pe_proc_get`. -/
def peProcGet (t : Tracker) (cookie : ℕ) : Option Proc := t.find? (·.taskCookie = cookie)

def onProc (cookie : ℕ) (f : Proc → Proc) (t : Tracker) : Tracker := modifyFirst (·.taskCookie = cookie) f t

/-- The last `pe_proc_put`. -/
def peProcPut (ops : DirOps) (p : Proc) : List Call :=
  if p.pgid ≠ 0 ∧ p.threads ≠ 0 then [.delete p.pgid ops] else []

/-- `pe_proc_set_playgroundid`. -/
def peProcSetPlaygroundid (ops : DirOps) (p : Proc) (pgid : ℕ) : Proc × List Call :=
  if p.pgid ≠ pgid then
    let del := if p.pgid ≠ 0 ∧ p.threads ≠ 0 then [.delete pgid ops] else []
    let p := { p with pgid := pgid }
    (p, del ++ if p.pgid ≠ 0 ∧ p.threads ≠ 0 then [.add pgid p.task] else [])
  else if p.pgid ≠ 0 then (p, [.rename pgid p.task])
  else (p, [])

/-- `pe_proc_alloc` and `pe_proc_track`. -/
def peProcAlloc (uid cookie pgid : ℕ) : Proc := (peProcSetPlaygroundid .fine ⟨cookie, uid, 0, 0, 1⟩ pgid).1

/-- `pe_proc_fork`. -/
def peProcFork (uid child pgid : ℕ) (t : Tracker) : Tracker × List Call :=
  (t ++ [peProcAlloc uid child pgid], [])

/-- `pe_proc_addinstance`. -/
def peProcAddinstance (cookie : ℕ) (t : Tracker) : Tracker :=
  onProc cookie (fun p => { p with instances := p.instances + 1 }) t

/-- `pe_proc_exit`. -/
def peProcExit (ops : DirOps) (cookie : ℕ) (t : Tracker) : Tracker × List Call :=
  match peProcGet t cookie with
  | none => (t, [])
  | some p =>
    if p.instances - 1 ≠ 0 then (onProc cookie (fun p => { p with instances := p.instances - 1 }) t, [])
    else (t.eraseP (·.taskCookie = cookie), peProcPut ops p)

/-- `pe_proc_add_thread`. -/
def peProcAddThread (cookie : ℕ) (t : Tracker) : Tracker × List Call :=
  match peProcGet t cookie with
  | none => (t, [])
  | some p =>
    (onProc cookie (fun p => { p with threads := p.threads + 1 }) t,
      if p.threads = 0 ∧ p.pgid ≠ 0 then [.add p.pgid p.task] else [])

/-- `pe_proc_remove_thread`. -/
def peProcRemoveThread (ops : DirOps) (cookie : ℕ) (t : Tracker) : Tracker × List Call :=
  match peProcGet t cookie with
  | none => (t, [])
  | some p =>
    if p.threads > 0 then
      (onProc cookie (fun p => { p with threads := p.threads - 1 }) t,
        if p.threads - 1 = 0 ∧ p.pgid ≠ 0 then [.delete p.pgid ops] else [])
    else (t, [])

/-- `pe_proc_exec`; the new user is set behind `pe_playground_postexec`. -/
def peProcExec (cookie uid pgid : ℕ) (t : Tracker) : Tracker × List Call :=
  let t := if peProcGet t cookie = none then t ++ [peProcAlloc uid cookie pgid] else t
  match peProcGet t cookie with
  | none => (t, [])
  | some p =>
    (if uid ≠ uidDefault then onProc cookie (fun p => { p with uid := uid }) t else t,
      if p.pgid ≠ 0 then [.postexec p.pgid p.task] else [])

/-- `pe_handle_playgroundproc`. -/
def peHandlePlaygroundproc (ops : DirOps) (cookie pgid : ℕ) (t : Tracker) : Tracker × List Call :=
  match peProcGet t cookie with
  | none => (t, [])
  | some p =>
    let r := peProcSetPlaygroundid ops p pgid
    (onProc cookie (fun _ => r.1) t, r.2)

/-! ### Events -/

/-- `pe_handle_playgroundfile` for `ANOUBIS_PGFILE_INSTANTIATE`: the path and, behind it, the old path in
    the payload of the event. -/
def peHandleInstantiate (pgid dev ino : ℕ) (payload : List UInt8) (found : List Slot.Renamed)
    (w : Slot.Writes) : List Call :=
  let payload := payload.dropLast ++ [0]
  let path := cString payload
  if path = [] then []
  else
    let old := path.length < payload.length - 1 ∧ payload[path.length + 1]? ≠ some 0
    [.instantiate pgid dev ino path (if old then some found else none) w]

/-- An event, with how the calls on files and directories go. A restart loses the memory of the policy
    engine. -/
inductive Event where
  | fork (uid child pgid : ℕ)
  | exec (cookie uid pgid : ℕ)
  | exit (cookie : ℕ) (ops : DirOps)
  | replace (cookie victim : ℕ) (ops : DirOps)
  | createThread (cookie : ℕ)
  | destroyThread (cookie : ℕ) (ops : DirOps)
  | playgroundProc (cookie pgid : ℕ) (ops : DirOps)
  | fileInstantiate (pgid dev ino : ℕ) (payload : List UInt8) (found : List Slot.Renamed) (w : Slot.Writes)
  | fileDelete (pgid dev ino : ℕ) (unlinked : Bool) (ops : DirOps)
  | fileScan (pgid dev ino : ℕ) (payload : List UInt8) (msgUid : ℕ) (w : Slot.Writes)
  | unlinkRequest (authUid pgid dev ino : ℕ) (unlinked : Bool) (ops : DirOps)
  | restart (ops : ℕ → DirOps)

/-- What an event does to the tracker, and the calls it makes. -/
def handle : Event → Tracker → Tracker × List Call
  | .fork uid child pgid, t => peProcFork uid child pgid t
  | .exec cookie uid pgid, t => peProcExec cookie uid pgid t
  | .exit cookie ops, t => peProcExit ops cookie t
  | .replace cookie victim ops, t => peProcExit ops victim (peProcAddinstance cookie t)
  | .createThread cookie, t => peProcAddThread cookie t
  | .destroyThread cookie ops, t => peProcRemoveThread ops cookie t
  | .playgroundProc cookie pgid ops, t => peHandlePlaygroundproc ops cookie pgid t
  | .fileInstantiate pgid dev ino payload found w, t => (t, peHandleInstantiate pgid dev ino payload found w)
  | .fileDelete pgid dev ino unlinked ops, t => (t, [.fileDelete pgid dev ino unlinked ops])
  | .fileScan pgid dev ino payload msgUid w, t =>
    (t, [.scanrequest pgid dev ino (cString (payload.dropLast ++ [0])) msgUid w])
  | .unlinkRequest authUid pgid dev ino unlinked ops, t => (t, [.unlink authUid pgid dev ino unlinked ops])
  | .restart _, _ => ([], [])

structure Engine where
  tracker : Tracker
  pes : Pes

def Engine.init : Engine := ⟨[], .init⟩

def step (s : Engine) (e : Event) : Engine :=
  let r := handle e s.tracker
  match e with
  | .restart ops => ⟨r.1, s.pes.restart ops⟩
  | _ => ⟨r.1, r.2.foldl Pes.call s.pes⟩

def Event.Restarts : Event → Prop
  | .restart _ => True
  | _ => False

theorem step_tracker (s : Engine) (e : Event) : (step s e).tracker = (handle e s.tracker).1 := by
  cases e <;> rfl

theorem step_pes {e : Event} (he : ¬ e.Restarts) (s : Engine) :
    (step s e).pes = (handle e s.tracker).2.foldl Pes.call s.pes := by
  cases e with
  | restart ops => exact absurd trivial he
  | _ => rfl

/-! ### Slots behind a step -/

theorem Pes.slot_put (s : Pes) (pgid : ℕ) (r : Res) (q : ℕ) :
    (s.put pgid r).slot q = if q = pgid then r.slot else s.slot q := by
  by_cases h : q = pgid
  · rw [if_pos h, h, Pes.slot, Pes.put, AList.lookup_insert]
    rfl
  · rw [if_neg h, Pes.slot, Pes.put, AList.lookup_insert_ne h]
    rfl

theorem Pes.slot_call (s : Pes) (c : Call) (q : ℕ) :
    (s.call c).slot q = if q = c.pgid then (c.run (s.slot q)).slot else s.slot q := by
  rw [Pes.call, Pes.slot_put]
  by_cases h : q = c.pgid
  · rw [if_pos h, if_pos h, h]
  · rw [if_neg h, if_neg h]

variable {c : Call} {q : ℕ} {P : Call → Prop}

theorem Pes.slot_call_self (s : Pes) (h : c.pgid = q) :
    (s.call c).slot q = (c.run (s.slot q)).slot := by rw [Pes.slot_call, if_pos h.symm]

theorem Pes.slot_call_ne (s : Pes) (h : c.pgid ≠ q) : (s.call c).slot q = s.slot q := by
  rw [Pes.slot_call, if_neg (Ne.symm h)]

theorem slot_foldl_put (f : ℕ → Slot → Slot) {pgids : List ℕ} (hn : pgids.Nodup) (s : Pes) (q : ℕ) :
    (pgids.foldl (fun s pgid => s.put pgid ⟨f pgid (s.slot pgid), [], false⟩) s).slot q =
      if q ∈ pgids then f q (s.slot q) else s.slot q := by
  induction pgids generalizing s with
  | nil => rfl
  | cons p ps ih =>
    rw [nodup_cons] at hn
    rw [foldl_cons, ih hn.2, Pes.slot_put]
    by_cases hq : q = p
    · subst hq
      rw [if_neg hn.1, if_pos rfl, if_pos mem_cons_self]
    · rw [if_neg hq]
      simp only [mem_cons, hq, false_or]

/-- Each directory is read on its own. -/
theorem Pes.slot_restart (ops : ℕ → DirOps) (s : Pes) (q : ℕ) :
    (s.restart ops).slot q = (⟨none, (s.slot q).dir⟩ : Slot).read (ops q) := by
  have h := slot_foldl_put (fun pgid x => (⟨none, x.dir⟩ : Slot).read (ops pgid)) s.slots.keys_nodup s q
  rw [Pes.restart, h]
  split
  · rfl
  · rename_i hq
    have hnone : s.slot q = ⟨none, none⟩ := by
      rw [Pes.slot, AList.lookup_eq_none.mpr (fun hm => hq (AList.mem_keys.mp hm))]
      rfl
    rw [hnone]
    rfl

/-- A call of the process tracker, with the directory operations of the event. -/
def Call.FromTracker (ops : DirOps) : Call → Prop
  | .add _ _ | .rename _ _ | .postexec _ _ => True
  | .delete _ ops' => ops' = ops
  | _ => False

/-- At most one call, or a process that changes its playground. -/
inductive Calls (P : Call → Prop) : List Call → Prop
  | none : Calls P []
  | one (c : Call) (h : P c) : Calls P [c]
  | move (pgid : ℕ) (ops : DirOps) (proc : Task) (hd : P (.delete pgid ops)) (ha : P (.add pgid proc)) :
      Calls P [.delete pgid ops, .add pgid proc]

theorem Calls.mem {cs : List Call} (h : Calls P cs) (hc : c ∈ cs) : P c := by
  cases h with
  | none => exact absurd hc not_mem_nil
  | one c' h =>
    rw [mem_singleton.mp hc]
    exact h
  | move pgid ops proc hd ha =>
    simp only [mem_cons, not_mem_nil, or_false] at hc
    rcases hc with rfl | rfl
    · exact hd
    · exact ha

theorem calls_ite (b : Prop) [Decidable b] (h : P c) : Calls P (if b then [c] else []) := by
  by_cases hb : b
  · rw [if_pos hb]
    exact .one c h
  · rw [if_neg hb]
    exact .none

theorem calls_setPlaygroundid (ops : DirOps) (p : Proc) (pgid : ℕ) :
    Calls (·.FromTracker ops) (peProcSetPlaygroundid ops p pgid).2 := by
  rw [peProcSetPlaygroundid]
  split
  · by_cases hdel : p.pgid ≠ 0 ∧ p.threads ≠ 0
    · dsimp only
      rw [if_pos hdel]
      split
      · exact .move pgid ops _ rfl trivial
      · exact .one _ rfl
    · dsimp only
      rw [if_neg hdel]
      exact calls_ite _ trivial
  · split
    · exact .one _ trivial
    · exact .none

theorem calls_exit (ops : DirOps) (cookie : ℕ) (t : Tracker) :
    Calls (·.FromTracker ops) (peProcExit ops cookie t).2 := by
  rw [peProcExit]
  split
  · exact .none
  · split
    · exact .none
    · exact calls_ite _ rfl

/-- The directory operations for a process that leaves. -/
def Event.ops : Event → DirOps
  | .exit _ ops | .replace _ _ ops | .destroyThread _ ops | .playgroundProc _ _ ops => ops
  | _ => .fine

/-- The calls an event can make. -/
def Event.Makes (e : Event) (c : Call) : Prop :=
  match e with
  | .fileInstantiate _ _ _ _ _ _ | .fileDelete _ _ _ _ _ | .fileScan _ _ _ _ _ _ | .unlinkRequest _ _ _ _ _ _ =>
    c ∈ (handle e []).2
  | _ => c.FromTracker e.ops

theorem handle_calls (e : Event) (t : Tracker) : Calls e.Makes (handle e t).2 := by
  cases e with
  | fork uid child pgid => exact .none
  | exec cookie uid pgid =>
    rw [handle, peProcExec]
    split
    · exact .none
    · exact calls_ite _ trivial
  | exit cookie ops => exact calls_exit ops cookie t
  | replace cookie victim ops => exact calls_exit ops victim _
  | createThread cookie =>
    rw [handle, peProcAddThread]
    split
    · exact .none
    · exact calls_ite _ trivial
  | destroyThread cookie ops =>
    rw [handle, peProcRemoveThread]
    split
    · exact .none
    · split
      · exact calls_ite _ rfl
      · exact .none
  | playgroundProc cookie pgid ops =>
    rw [handle, peHandlePlaygroundproc]
    split
    · exact .none
    · exact calls_setPlaygroundid ops _ pgid
  | fileInstantiate pgid dev ino payload found w =>
    have hmem : ∀ c ∈ peHandleInstantiate pgid dev ino payload found w,
        (Event.fileInstantiate pgid dev ino payload found w).Makes c := fun _ h => h
    rw [handle]
    rw [peHandleInstantiate] at hmem ⊢
    dsimp only at hmem ⊢
    split
    · exact .none
    · rename_i hp
      rw [if_neg hp] at hmem
      exact .one _ (hmem _ (mem_singleton_self _))
  | fileDelete pgid dev ino unlinked ops => exact .one _ (mem_singleton_self _)
  | fileScan pgid dev ino payload msgUid w => exact .one _ (mem_singleton_self _)
  | unlinkRequest authUid pgid dev ino unlinked ops => exact .one _ (mem_singleton_self _)
  | restart ops => exact .none

end Anoubis.Pe.Pg

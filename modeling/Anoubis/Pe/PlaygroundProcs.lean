import Anoubis.Pe.PlaygroundRuns
import Mathlib.Data.List.Count

/-! Accounting for the processes of playgrounds (`pe_proc.c`, `pe_playground.c`).

    A process counts in its playground while it has threads. The tracker reports the first thread, the last
    thread and the end of a process, and it reports a change of the playground; there
    `pe_proc_set_playgroundid` takes the process from the new playground instead of the old one:

        process (threads > 0)   old --> new       delete new, add new
                                old --> none      delete 0                -/

namespace Anoubis.Pe.Pg

open Option

open Anoubis.Lib List

/-! ### The counter -/

namespace Slot

theorem trykill_nrprocs (ops : DirOps) (x : Slot) : (x.trykill ops).nrprocs = x.nrprocs := by
  rcases trykill_cases ops x with h | ⟨hp, _, _, hpg, _⟩
  · rw [h]
  · rw [hp, nrprocs, hpg]
    rfl

theorem delete_nrprocs (ops : DirOps) {x : Slot} (h : 0 < x.nrprocs) :
    (x.delete ops).slot.nrprocs = x.nrprocs - 1 := by
  rcases x with ⟨_ | pg, d⟩
  · exact absurd h (lt_irrefl (0 : ℤ))
  · have hpos : pg.nrprocs > 0 := h
    rw [delete]
    dsimp only
    rw [if_pos hpos, trykill_nrprocs]
    rfl

theorem fileDelete_nrprocs (dev ino : ℕ) (unlinked : Bool) (ops : DirOps) (x : Slot) :
    (x.fileDelete dev ino unlinked ops).nrprocs = x.nrprocs := by
  rcases x with ⟨_ | pg, _ | d⟩
  · rfl
  · rfl
  · rfl
  · rw [fileDelete]
    dsimp only
    split
    · rw [trykill_nrprocs]
      rfl
    · rfl

theorem dispatchUnlink_nrprocs (authUid dev ino : ℕ) (unlinked : Bool) (ops : DirOps) (x : Slot) :
    (x.dispatchUnlink authUid dev ino unlinked ops).2.nrprocs = x.nrprocs := by
  have h := fileDelete_nrprocs dev ino unlinked ops x
  rw [dispatchUnlink]
  cases x.pg with
  | none => rfl
  | some pg =>
    dsimp only
    split
    · rfl
    · exact h

/-- The notification for the last process. -/
theorem delete_sent (ops : DirOps) {x : Slot} (h : 0 < x.nrprocs) :
    ∃ uid, (x.delete ops).sent = if x.nrprocs = 1 then [.terminate uid] else [] := by
  rcases x with ⟨_ | pg, d⟩
  · exact absurd h (lt_irrefl (0 : ℤ))
  · have hpos : pg.nrprocs > 0 := h
    refine ⟨pg.uid, ?_⟩
    rw [delete]
    dsimp only
    rw [if_pos hpos]
    have hiff : pg.nrprocs - 1 = 0 ↔ (⟨some pg, d⟩ : Slot).nrprocs = 1 := by
      rw [nrprocs, map_some, getD_some]
      omega
    by_cases hone : pg.nrprocs - 1 = 0
    · rw [if_pos hone, if_pos (hiff.mp hone)]
    · rw [if_neg hone, if_neg (fun hz => hone (hiff.mpr hz))]

theorem renamed_sent (proc : Task) (x : Slot) : ∀ c ∈ (x.renamed proc).2, ∀ uid, c ≠ .terminate uid := by
  rcases x with ⟨_ | pg, d⟩
  · exact fun c hc => absurd hc not_mem_nil
  · rw [renamed]
    dsimp only
    split
    · rintro c hc uid rfl
      cases mem_singleton.mp hc
    · exact fun c hc => absurd hc not_mem_nil

theorem postexec_sent (proc : Task) (x : Slot) : ∀ c ∈ (x.postexec proc).sent, ∀ uid, c ≠ .terminate uid := by
  rw [postexec]
  dsimp only
  split
  · exact fun c hc => absurd hc not_mem_nil
  · split
    · intro c hc uid
      rcases mem_cons.mp hc with rfl | hc
      · exact fun h => (by cases h)
      · exact renamed_sent proc _ c hc uid
    · exact renamed_sent proc _

end Slot

/-- A call that leaves the processes of its playground alone. -/
def Call.Quiet : Call → Prop
  | .add _ _ | .delete _ _ => False
  | _ => True

theorem Call.Quiet.nrprocs {c : Call} (h : c.Quiet) (x : Slot) : (c.run x).slot.nrprocs = x.nrprocs := by
  cases c with
  | add pgid proc => exact absurd h id
  | delete pgid ops => exact absurd h id
  | rename pgid proc => exact (Slot.rename_same proc x).nrprocs
  | postexec pgid proc => exact (Slot.postexec_same proc x).nrprocs
  | instantiate pgid dev ino path found w => exact (Slot.fileInstantiate_spec dev ino path found w x).nrprocs
  | fileDelete pgid dev ino unlinked ops => exact Slot.fileDelete_nrprocs dev ino unlinked ops x
  | scanrequest pgid dev ino path uid w => exact (Slot.fileScanrequest_spec dev ino path uid w x).nrprocs
  | unlink authUid pgid dev ino unlinked ops => exact Slot.dispatchUnlink_nrprocs authUid dev ino unlinked ops x

theorem Call.Quiet.sent {c : Call} (h : c.Quiet) (x : Slot) : ∀ n ∈ (c.run x).sent, ∀ uid, n ≠ .terminate uid := by
  cases c with
  | add pgid proc => exact absurd h id
  | delete pgid ops => exact absurd h id
  | postexec pgid proc => exact Slot.postexec_sent proc x
  | _ => exact fun c hc => absurd hc not_mem_nil

/-! ### The processes -/

/-- A process of the playground that has threads. -/
def Proc.In (pgid : ℕ) (p : Proc) : Bool := p.pgid = pgid ∧ p.threads ≠ 0

/-- The number of tracked processes with this pgid and at least one thread. -/
def members (t : Tracker) (pgid : ℕ) : ℕ := t.countP (Proc.In pgid)

variable {p : Proc} {s : Engine} {e : Event}

theorem members_onProc {t : Tracker} {cookie : ℕ} (h : peProcGet t cookie = some p) (f : Proc → Proc) (q : ℕ) :
    members (onProc cookie f t) q + (if p.In q then 1 else 0) = members t q + if (f p).In q then 1 else 0 := by
  obtain ⟨rest, hl, hm⟩ := exists_modifyFirst h f
  rw [members, members, onProc, hm.countP_eq, hl.countP_eq, countP_cons, countP_cons]
  omega

/-- A change that keeps pgid and threads. -/
theorem members_onProc_same (cookie : ℕ) (f : Proc → Proc) (hf : ∀ p q, (f p).In q = p.In q) (t : Tracker)
    (q : ℕ) : members (onProc cookie f t) q = members t q := by
  cases h : peProcGet t cookie with
  | none => rw [onProc, modifyFirst_eq_self h]
  | some p =>
    have hm := members_onProc h f q
    rw [hf p q] at hm
    exact Nat.add_right_cancel hm

theorem members_eraseP {t : Tracker} {cookie : ℕ} (h : peProcGet t cookie = some p) (q : ℕ) :
    members t q = members (t.eraseP (·.taskCookie = cookie)) q + if p.In q then 1 else 0 := by
  rw [members, members, (exists_eraseP h).countP_eq, countP_cons]

theorem members_track (t : Tracker) (uid cookie pgid q : ℕ) :
    members (t ++ [peProcAlloc uid cookie pgid]) q = members t q := by
  have hin : (peProcAlloc uid cookie pgid).In q = false := by
    rw [peProcAlloc, peProcSetPlaygroundid]
    split
    · simp [Proc.In]
    · split <;> simp [Proc.In]
  rw [members, members, countP_append, countP_singleton, hin]
  rfl

/-- What an event does to the processes of the playgrounds, with the call that goes with it. -/
inductive Effect (t t' : Tracker) : List Call → Prop
  | quiet (cs : List Call) (hc : ∀ c ∈ cs, c.Quiet) (hm : ∀ q ≠ 0, members t' q = members t q) : Effect t t' cs
  | arrive (pgid : ℕ) (proc : Task) (h0 : pgid ≠ 0)
      (hm : ∀ q ≠ 0, members t' q = members t q + if q = pgid then 1 else 0) : Effect t t' [.add pgid proc]
  | leave (pgid : ℕ) (ops : DirOps) (h0 : pgid ≠ 0)
      (hm : ∀ q ≠ 0, members t q = members t' q + if q = pgid then 1 else 0) : Effect t t' [.delete pgid ops]

theorem effect_refl (t : Tracker) : Effect t t [] :=
  .quiet [] (fun _ hc => absurd hc not_mem_nil) fun _ _ => rfl

/-- `proc->pgid && proc->threads` -/
theorem in_iff {q : ℕ} (hq : q ≠ 0) (ht : p.threads ≠ 0) : p.In q = true ↔ q = p.pgid ∧ p.pgid ≠ 0 := by
  rw [Proc.In, decide_eq_true_iff]
  constructor
  · rintro ⟨rfl, _⟩
    exact ⟨rfl, hq⟩
  · rintro ⟨rfl, _⟩
    exact ⟨rfl, ht⟩

/-- A process that counted nowhere and now counts in its playground. -/
theorem members_in (r : Proc) {m m' q : ℕ} (hq : q ≠ 0) (ht : r.threads ≠ 0) (h0 : r.pgid ≠ 0)
    (hout : p.In q = false) (hm : m' + (if p.In q then 1 else 0) = m + if r.In q then 1 else 0) :
    m' = m + if q = r.pgid then 1 else 0 := by
  have hin : r.In q = true ↔ q = r.pgid := (in_iff hq ht).trans (and_iff_left h0)
  rw [hout] at hm
  refine hm.trans ?_
  congr 1
  exact if_congr hin rfl rfl

theorem effect_exit (ops : DirOps) (cookie : ℕ) (t : Tracker) :
    Effect t (peProcExit ops cookie t).1 (peProcExit ops cookie t).2 := by
  rw [peProcExit]
  cases hp : peProcGet t cookie with
  | none => exact effect_refl t
  | some p =>
    dsimp only
    split
    · exact .quiet [] (fun _ hc => absurd hc not_mem_nil) fun q _ =>
        members_onProc_same cookie (fun p => { p with instances := p.instances - 1 }) (fun _ _ => rfl) t q
    · rw [peProcPut]
      have hm := members_eraseP hp
      split
      · rename_i hin
        refine .leave p.pgid ops hin.1 fun q hq => ?_
        rw [hm q]
        congr 1
        refine if_congr ?_ rfl rfl
        rw [in_iff hq hin.2]
        exact and_iff_left hin.1
      · rename_i hin
        refine .quiet [] (fun _ hc => absurd hc not_mem_nil) fun q hq => ?_
        rw [hm q, if_neg, add_zero]
        rw [Proc.In, decide_eq_true_iff]
        rintro ⟨rfl, ht⟩
        exact hin ⟨hq, ht⟩

/-- The number of threads matters only if it gets zero, or was. -/
theorem in_threads {p : Proc} {q n : ℕ} (h : p.pgid = q → (n = 0 ↔ p.threads = 0)) :
    ({ p with threads := n } : Proc).In q = p.In q := by
  rw [Proc.In, Proc.In]
  by_cases hpg : p.pgid = q
  · simp [h hpg]
  · simp [hpg]

theorem effect_addThread (cookie : ℕ) (t : Tracker) :
    Effect t (peProcAddThread cookie t).1 (peProcAddThread cookie t).2 := by
  rw [peProcAddThread]
  cases hp : peProcGet t cookie with
  | none => exact effect_refl t
  | some p =>
    dsimp only
    have hm := members_onProc hp fun p => { p with threads := p.threads + 1 }
    split
    · rename_i hin
      refine .arrive p.pgid p.task hin.2 fun q hq => ?_
      have hq' := hm q
      have hout : p.In q = false := by simp [Proc.In, hin.1]
      exact members_in { p with threads := p.threads + 1 } hq (Nat.succ_ne_zero _) hin.2 hout hq'
    · rename_i hin
      refine .quiet [] (fun _ hc => absurd hc not_mem_nil) fun q hq => ?_
      have hsame := in_threads (n := p.threads + 1) fun hpg => by
        have ht : p.threads ≠ 0 := fun ht => hin ⟨ht, hpg ▸ hq⟩
        omega
      have hq' := hm q
      rw [hsame] at hq'
      exact Nat.add_right_cancel hq'

theorem effect_removeThread (ops : DirOps) (cookie : ℕ) (t : Tracker) :
    Effect t (peProcRemoveThread ops cookie t).1 (peProcRemoveThread ops cookie t).2 := by
  rw [peProcRemoveThread]
  cases hp : peProcGet t cookie with
  | none => exact effect_refl t
  | some p =>
    dsimp only
    have hm := members_onProc hp fun p => { p with threads := p.threads - 1 }
    split
    · rename_i hpos
      split
      · rename_i hin
        refine .leave p.pgid ops hin.2 fun q hq => ?_
        have hq' := hm q
        have hout : (⟨p.taskCookie, p.uid, p.pgid, p.threads - 1, p.instances⟩ : Proc).In q = false := by
          simp [Proc.In, hin.1]
        exact members_in p hq (Nat.ne_of_gt hpos) hin.2 hout hq'.symm
      · rename_i hin
        refine .quiet [] (fun _ hc => absurd hc not_mem_nil) fun q hq => ?_
        have hsame := in_threads (n := p.threads - 1) fun hpg => by
          have ht : p.threads - 1 ≠ 0 := fun ht => hin ⟨ht, hpg ▸ hq⟩
          omega
        have hq' := hm q
        rw [hsame] at hq'
        exact Nat.add_right_cancel hq'
    · exact effect_refl t

theorem effect_exec (cookie uid pgid : ℕ) (t : Tracker) :
    Effect t (peProcExec cookie uid pgid t).1 (peProcExec cookie uid pgid t).2 := by
  have htrack : ∀ q, members (if peProcGet t cookie = none then t ++ [peProcAlloc uid cookie pgid] else t) q =
      members t q := by
    intro q
    split
    · exact members_track t uid cookie pgid q
    · rfl
  rw [peProcExec]
  generalize (if peProcGet t cookie = none then t ++ [peProcAlloc uid cookie pgid] else t) = t' at htrack
  cases peProcGet t' cookie with
  | none => exact .quiet [] (fun _ hc => absurd hc not_mem_nil) fun q _ => htrack q
  | some p =>
    dsimp only
    refine .quiet _ (fun c hc => ?_) fun q _ => ?_
    · split at hc
      · rw [mem_singleton.mp hc]
        trivial
      · exact absurd hc not_mem_nil
    · split
      · exact (members_onProc_same cookie (fun p => { p with uid := uid }) (fun _ _ => rfl) _ q).trans (htrack q)
      · exact htrack q

/-- No process with threads changes from one playground to another one or to none. -/
def NoMove (s : Engine) : Event → Prop
  | .playgroundProc cookie pgid _ =>
    ∀ p, peProcGet s.tracker cookie = some p → p.pgid ≠ 0 → p.threads ≠ 0 → p.pgid = pgid
  | _ => True

theorem effect_playgroundProc (ops : DirOps) (cookie pgid : ℕ) (t : Tracker)
    (h : ∀ p, peProcGet t cookie = some p → p.pgid ≠ 0 → p.threads ≠ 0 → p.pgid = pgid) :
    Effect t (peHandlePlaygroundproc ops cookie pgid t).1 (peHandlePlaygroundproc ops cookie pgid t).2 := by
  rw [peHandlePlaygroundproc]
  cases hp : peProcGet t cookie with
  | none => exact effect_refl t
  | some p =>
    dsimp only
    rw [peProcSetPlaygroundid]
    have hm := fun r => members_onProc hp fun _ => r
    split
    · rename_i hne
      have hold : ¬ (p.pgid ≠ 0 ∧ p.threads ≠ 0) := fun hin => hne (h p hp hin.1 hin.2)
      have hout : ∀ q ≠ 0, p.In q = false := by
        intro q hq
        rw [Proc.In, decide_eq_false_iff_not]
        rintro ⟨rfl, ht⟩
        exact hold ⟨hq, ht⟩
      dsimp only
      rw [if_neg hold, nil_append]
      split
      · rename_i hin
        refine .arrive pgid _ hin.1 fun q hq => ?_
        exact members_in { p with pgid := pgid } hq hin.2 hin.1 (hout q hq) (hm { p with pgid := pgid } q)
      · rename_i hin
        refine .quiet [] (fun _ hc => absurd hc not_mem_nil) fun q hq => ?_
        have hq' := hm { p with pgid := pgid } q
        have hout' : ({ p with pgid := pgid } : Proc).In q = false := by
          rw [Proc.In, decide_eq_false_iff_not]
          rintro ⟨rfl, ht⟩
          exact hin ⟨hq, ht⟩
        rw [hout q hq, hout'] at hq'
        exact Nat.add_right_cancel hq'
    · have hself : ∀ q, members (onProc cookie (fun _ => p) t) q = members t q :=
        fun q => Nat.add_right_cancel (hm p q)
      split
      · refine .quiet _ (fun c hc => ?_) fun q _ => hself q
        rw [mem_singleton.mp hc]
        trivial
      · exact .quiet [] (fun _ hc => absurd hc not_mem_nil) fun q _ => hself q

/-! ### Runs -/

def PgChange.isTerminate : PgChange → Bool
  | .create _ => false
  | .terminate _ => true

/-- The TERMINATE notifications for a playground among what was sent. -/
def terminates (sent : List (PgChange × ℕ)) (pgid : ℕ) : ℕ := sent.countP fun n => n.2 = pgid ∧ n.1.isTerminate

/-- The counters of the processes are right behind an event, and TERMINATE is sent once when the last
    process goes and not otherwise. A restart forgets the processes. -/
structure Tallied (s : Engine) (e : Event) (s' : Engine) : Prop where
  nrprocs : ∀ pgid ≠ 0, ∀ pg, (s'.pes.slot pgid).pg = some pg → pg.nrprocs = members s'.tracker pgid
  known : ∀ pgid ≠ 0, members s'.tracker pgid ≠ 0 → (s'.pes.slot pgid).pg ≠ none
  terminate : ¬ e.Restarts → ∀ pgid ≠ 0, terminates s'.pes.sent pgid =
    terminates s.pes.sent pgid + if members s.tracker pgid ≠ 0 ∧ members s'.tracker pgid = 0 then 1 else 0

/-- All counters are right. -/
def InTally (s : Engine) : Prop := ∀ pgid ≠ 0, (s.pes.slot pgid).nrprocs = members s.tracker pgid

theorem inTally_init : InTally .init := fun _ _ => rfl

theorem terminates_append (sent sent' : List (PgChange × ℕ)) (pgid : ℕ) :
    terminates (sent ++ sent') pgid = terminates sent pgid + terminates sent' pgid := countP_append

theorem terminates_call (s : Pes) (c : Call) (pgid : ℕ) : terminates (s.call c).sent pgid =
    terminates s.sent pgid + if pgid = c.pgid then (c.run (s.slot c.pgid)).sent.countP PgChange.isTerminate else 0 := by
  have hsent : (s.call c).sent = s.sent ++ (c.run (s.slot c.pgid)).sent.map fun n => (n, c.pgid) := rfl
  rw [hsent, terminates_append, terminates, terminates, countP_map]
  congr 1
  by_cases h : pgid = c.pgid
  · rw [if_pos h]
    refine countP_congr fun n _ => ?_
    simp [h]
  · rw [if_neg h, countP_eq_zero]
    intro n _
    simp [Ne.symm h]

theorem Call.Quiet.terminates {c : Call} (h : c.Quiet) (s : Pes) (pgid : ℕ) :
    terminates (s.call c).sent pgid = terminates s.sent pgid := by
  have hnone : (c.run (s.slot c.pgid)).sent.countP PgChange.isTerminate = 0 := by
    rw [countP_eq_zero]
    intro n hn
    cases n with
    | create uid => exact Bool.false_ne_true
    | terminate uid => exact absurd rfl (h.sent _ _ hn uid)
  rw [terminates_call, hnone, ite_self, add_zero]

/-- An event without a move keeps the counters right, with the notification for the last process. -/
theorem tally_effect {P : Call → Prop} {cs : List Call} (hshape : Calls P cs) {t t' : Tracker}
    (h : Effect t t' cs) {s : Pes} (hs : ∀ q ≠ 0, (s.slot q).nrprocs = members t q) :
    ∀ q ≠ 0, ((cs.foldl Pes.call s).slot q).nrprocs = members t' q ∧ terminates (cs.foldl Pes.call s).sent q =
        terminates s.sent q + if members t q ≠ 0 ∧ members t' q = 0 then 1 else 0 := by
  intro q hq
  cases h with
  | quiet _ hc hm =>
    have hsame : ¬ (members t q ≠ 0 ∧ members t' q = 0) := by
      rw [hm q hq]
      exact fun h => h.1 h.2
    rw [hm q hq, if_neg (hm q hq ▸ hsame), ← hs q hq, add_zero]
    cases hshape with
    | none => exact ⟨rfl, rfl⟩
    | one c _ =>
      have hquiet := hc c (mem_singleton_self c)
      rw [foldl_cons, foldl_nil]
      refine ⟨?_, hquiet.terminates s q⟩
      rw [Pes.slot_call]
      split
      · exact hquiet.nrprocs _
      · rfl
    | move pgid ops proc _ _ => exact absurd (hc _ mem_cons_self) id
  | arrive pgid proc h0 hm =>
    have hmq := hm q hq
    have hrun : (Call.add pgid proc).pgid = pgid := rfl
    have hquiet : ((Call.add pgid proc).run (s.slot pgid)).sent.countP PgChange.isTerminate = 0 := rfl
    rw [foldl_cons, foldl_nil, Pes.slot_call, terminates_call, hrun, hquiet, ite_self]
    by_cases hpq : q = pgid
    · rw [if_pos hpq] at hmq
      have hadd : ((Call.add pgid proc).run (s.slot q)).slot.nrprocs = (s.slot q).nrprocs + 1 :=
        (Slot.add_spec proc (s.slot q)).2.2.1
      rw [if_pos hpq, if_neg (by omega), hadd, hs q hq, hmq]
      exact ⟨rfl, rfl⟩
    · rw [if_neg hpq] at hmq
      rw [if_neg hpq, if_neg (by omega), hs q hq, hmq]
      exact ⟨rfl, rfl⟩
  | leave pgid ops h0 hm =>
    rw [foldl_cons, foldl_nil, Pes.slot_call, terminates_call]
    have hrun : (Call.delete pgid ops).pgid = pgid := rfl
    rw [hrun]
    have hmq := hm q hq
    by_cases hpq : q = pgid
    · subst hpq
      rw [if_pos rfl] at hmq
      have hnr := hs q hq
      have hpos : 0 < (s.slot q).nrprocs := by omega
      have hdel : ((Call.delete q ops).run (s.slot q)).slot.nrprocs = (s.slot q).nrprocs - 1 :=
        Slot.delete_nrprocs ops hpos
      obtain ⟨uid, hsent⟩ := Slot.delete_sent ops hpos
      have hsent : ((Call.delete q ops).run (s.slot q)).sent =
          if (s.slot q).nrprocs = 1 then [.terminate uid] else [] := hsent
      rw [if_pos rfl, if_pos rfl, hdel, hsent]
      refine ⟨by omega, ?_⟩
      congr 1
      by_cases hone : (s.slot q).nrprocs = 1
      · rw [if_pos hone, if_pos (by omega)]
        rfl
      · rw [if_neg hone, if_neg (by omega)]
        rfl
    · rw [if_neg hpq] at hmq
      rw [if_neg hpq, if_neg hpq, if_neg (by omega), hs q hq]
      exact ⟨by omega, rfl⟩

theorem handle_effect (h : NoMove s e) (he : ¬ e.Restarts) :
    Effect s.tracker (handle e s.tracker).1 (handle e s.tracker).2 := by
  have hfile : ∀ c : Call, c.Quiet → Effect s.tracker s.tracker [c] := by
    intro c hc
    refine .quiet [c] (fun c' hc' => ?_) fun _ _ => rfl
    rw [mem_singleton.mp hc']
    exact hc
  cases e with
  | fork uid child pgid =>
    exact .quiet [] (fun _ hc => absurd hc not_mem_nil) fun q _ => members_track s.tracker uid child pgid q
  | exec cookie uid pgid => exact effect_exec cookie uid pgid s.tracker
  | exit cookie ops => exact effect_exit ops cookie s.tracker
  | replace cookie victim ops =>
    have hadd : ∀ q, members (peProcAddinstance cookie s.tracker) q = members s.tracker q :=
      members_onProc_same cookie (fun p => { p with instances := p.instances + 1 }) (fun _ _ => rfl) s.tracker
    have hexit := effect_exit ops victim (peProcAddinstance cookie s.tracker)
    rw [handle]
    generalize peProcExit ops victim (peProcAddinstance cookie s.tracker) = r at hexit
    rcases r with ⟨t', cs⟩
    cases hexit with
    | quiet _ hc hm => exact .quiet cs hc fun q hq => (hm q hq).trans (hadd q)
    | arrive pgid proc h0 hm => exact .arrive pgid proc h0 fun q hq => by rw [hm q hq, hadd q]
    | leave pgid ops' h0 hm => exact .leave pgid ops' h0 fun q hq => by rw [← hadd q, hm q hq]
  | createThread cookie => exact effect_addThread cookie s.tracker
  | destroyThread cookie ops => exact effect_removeThread ops cookie s.tracker
  | playgroundProc cookie pgid ops => exact effect_playgroundProc ops cookie pgid s.tracker h
  | fileInstantiate pgid dev ino payload found w =>
    rw [handle, peHandleInstantiate]
    dsimp only
    split
    · exact effect_refl s.tracker
    · exact hfile _ trivial
  | fileDelete pgid dev ino unlinked ops => exact hfile _ trivial
  | fileScan pgid dev ino payload msgUid w => exact hfile _ trivial
  | unlinkRequest authUid pgid dev ino unlinked ops => exact hfile _ trivial
  | restart ops => exact absurd trivial he

theorem read_nrprocs (ops : DirOps) (d : Option Dir) : ((⟨none, d⟩ : Slot).read ops).nrprocs = 0 := by
  cases d with
  | none => rfl
  | some d =>
    rw [Slot.read]
    dsimp only
    rw [Slot.trykill_nrprocs]
    rfl

theorem inTally_step (h : InTally s) (hn : NoMove s e) : InTally (step s e) := by
  intro q hq
  by_cases he : e.Restarts
  · cases e with
    | restart ops =>
      change ((s.pes.restart ops).slot q).nrprocs = 0
      rw [Pes.slot_restart, read_nrprocs]
    | _ => exact absurd he id
  · rw [step_pes he, step_tracker]
    exact (tally_effect (handle_calls e s.tracker) (handle_effect hn he) h q hq).1

theorem tallied_step (h : InTally s) (hn : NoMove s e) : Tallied s e (step s e) where
  nrprocs := by
    intro q hq pg hpg
    rw [← inTally_step h hn q hq, Slot.nrprocs, hpg]
    rfl
  known := by
    intro q hq hm hpg
    have hnr := inTally_step h hn q hq
    rw [Slot.nrprocs, hpg] at hnr
    exact hm (Int.natCast_eq_zero.mp hnr.symm)
  terminate := by
    intro he q hq
    rw [step_pes he, step_tracker]
    exact (tally_effect (handle_calls e s.tracker) (handle_effect hn he) h q hq).2

/-- A process that moves is still counted where it was. -/
theorem noMove_of_tallied (h : InTally s) (ht : Tallied s e (step s e)) : NoMove s e := by
  cases e with
  | playgroundProc cookie pgid ops =>
    intro p hp h0 hthreads
    by_contra hne
    have hin : p.In p.pgid = true := (in_iff h0 hthreads).mpr ⟨rfl, h0⟩
    have htracker : (step s (.playgroundProc cookie pgid ops)).tracker =
        onProc cookie (fun _ => { p with pgid := pgid }) s.tracker := by
      rw [step_tracker, handle, peHandlePlaygroundproc, hp]
      dsimp only
      rw [peProcSetPlaygroundid, if_pos hne]
    have hm := members_onProc hp (fun _ => { p with pgid := pgid }) p.pgid
    have hout : ({ p with pgid := pgid } : Proc).In p.pgid = false := by
      simp [Proc.In, Ne.symm hne]
    rw [hin, if_pos rfl, hout, if_neg Bool.false_ne_true, ← htracker] at hm
    -- the calls are about the new playground
    have hslot : (step s (.playgroundProc cookie pgid ops)).pes.slot p.pgid = s.pes.slot p.pgid := by
      have hnot : ∀ c ∈ (handle (.playgroundProc cookie pgid ops) s.tracker).2, c.pgid ≠ p.pgid := by
        intro c hc
        rw [handle, peHandlePlaygroundproc, hp] at hc
        dsimp only at hc
        rw [peProcSetPlaygroundid, if_pos hne] at hc
        rcases mem_append.mp hc with hc | hc
        · split at hc
          · rw [mem_singleton.mp hc]
            exact Ne.symm hne
          · exact absurd hc not_mem_nil
        · split at hc
          · rw [mem_singleton.mp hc]
            exact Ne.symm hne
          · exact absurd hc not_mem_nil
      cases step_changed (e := .playgroundProc cookie pgid ops) id s p.pgid with
      | frame hx => exact hx
      | one c hc hpc => exact absurd hpc (hnot c (by rw [hc]; exact mem_singleton_self c))
      | move ops' proc hc => exact absurd rfl (hnot (.delete p.pgid ops') (by rw [hc]; exact mem_cons_self))
    have hold := h p.pgid h0
    have hknown : (s.pes.slot p.pgid).pg ≠ none := by
      intro hn
      rw [Slot.nrprocs, hn, map_none, getD_none] at hold
      omega
    obtain ⟨pg, hpg⟩ := ne_none_iff_exists'.mp hknown
    have hnr := ht.nrprocs p.pgid h0 pg (by rw [hslot, hpg])
    rw [Slot.nrprocs, hpg, map_some, getD_some] at hold
    omega
  | _ => trivial

/-- In a run the counters are right behind every event, and TERMINATE is sent exactly when the last process
    goes away, if and only if no process with threads changes from a playground to another one or to none. -/
theorem playground_procs_accounted (es : List Event) :
    Along (fun s e => some (step s e)) (fun s e => Tallied s e (step s e)) .init es ↔
      Along (fun s e => some (step s e)) NoMove .init es := by
  refine along_iff (I := InTally) (fun s e h => ⟨noMove_of_tallied h, tallied_step h⟩)
    (fun s e s' h ht hs => ?_) inTally_init es
  rw [← Option.some.inj hs]
  exact inTally_step h (noMove_of_tallied h ht)

/-- A process with one thread moves from playground 5 to playground 6 and ends there. Playground 5 keeps it,
    and nobody is told of the end of playground 5. -/
def moving : List Event :=
  [.fork 1000 7 5, .createThread 7, .playgroundProc 7 6 .fine, .destroyThread 7 .fine]

theorem moved_process_counted_twice :
    ((moving.foldl step .init).pes.slot 5).nrprocs = 1 ∧ members (moving.foldl step .init).tracker 5 = 0 ∧
      (moving.foldl step .init).pes.sent = [(.terminate 1000, 6)] ∧
      ¬ Along (fun s e => some (step s e)) (fun s e => Tallied s e (step s e)) .init moving := by
  refine ⟨by decide +kernel, by decide +kernel, by decide +kernel, fun h => ?_⟩
  have hlast := ((h.2 _ rfl).2 _ rfl).2 _ rfl
  have hnr := hlast.1.nrprocs 5 (by decide) _ rfl
  revert hnr
  decide +kernel

end Anoubis.Pe.Pg

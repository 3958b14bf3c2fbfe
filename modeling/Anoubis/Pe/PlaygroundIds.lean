import Anoubis.Pe.PlaygroundEvents

/-! The highest playground ID (`pe_playground.c`).

    The kernel hands out the IDs of playgrounds. When the daemon starts it tells the kernel where to go on:
    above the highest ID in the directory, and above the ID in the last-pgid file, which keeps it when the
    directory of a playground has been removed.

        first exec of the founder ──▶ last-pgid file ──┐
        management directories    ─────────────────────┴─▶ start: ANOUBIS_SET_LASTPGID ──▶ kernel ──▶ new IDs

    The file takes the ID of the last such exec, not the highest one. -/

namespace Anoubis.Pe.Pg

open Option

open Anoubis.Lib List

/-- `pe_playground_initpgid`: the ID for the kernel, zero for none. The directories in `gone` are removed by
    `pe_playground_init` while the master process reads the directory. -/
def peInitpgid (gone : List ℕ) (s : Pes) : ℕ :=
  let maxpgid := s.slots.keys.foldl
    (fun maxpgid pgid => if (s.slot pgid).dir ≠ none ∧ pgid ∉ gone ∧ pgid > maxpgid then pgid else maxpgid) 0
  if s.lastPgid > maxpgid then s.lastPgid else maxpgid

/-- The machine: the policy engine, if it runs, the last ID in the kernel, the IDs handed out since the
    machine was booted, and the IDs of all playgrounds that an exec was ever seen in. -/
structure System where
  engine : Engine
  running : Bool
  lastpgid : ℕ
  handed : List ℕ
  execs : List ℕ

def System.init : System := ⟨.init, false, 0, [], []⟩

inductive SysEvent where
  /-- the kernel makes a playground -/
  | create (pgid : ℕ)
  /-- an event for the policy engine -/
  | event (e : Event)
  /-- the daemon starts, again or for the first time -/
  | start (gone : List ℕ) (ops : ℕ → DirOps)
  /-- the machine is booted -/
  | boot

/-- The playground IDs that processes have come from the kernel. -/
def Possible (handed : List ℕ) : Event → Prop
  | .fork _ _ pgid | .exec _ _ pgid | .playgroundProc _ pgid _ => pgid = 0 ∨ pgid ∈ handed
  | .restart _ => False
  | _ => True

instance (handed : List ℕ) (e : Event) : Decidable (Possible handed e) :=
  match e with
  | .fork _ _ pgid | .exec _ _ pgid | .playgroundProc _ pgid _ =>
    inferInstanceAs (Decidable (pgid = 0 ∨ pgid ∈ handed))
  | .restart _ => isFalse id
  | .exit _ _ | .replace _ _ _ | .createThread _ | .destroyThread _ _ | .fileInstantiate _ _ _ _ _ _
  | .fileDelete _ _ _ _ _ | .fileScan _ _ _ _ _ _ | .unlinkRequest _ _ _ _ _ _ => isTrue trivial

/-- The playground of an exec. -/
def execsOf (cs : List Call) : List ℕ :=
  cs.filterMap fun c => match c with
    | .postexec pgid _ => some pgid
    | _ => none

def sysStep (s : System) : SysEvent → Option System
  | .create pgid =>
    if s.lastpgid < pgid then some { s with lastpgid := pgid, handed := pgid :: s.handed } else none
  | .event e =>
    if s.running ∧ Possible s.handed e then
      some { s with engine := step s.engine e, execs := s.execs ++ execsOf (handle e s.engine.tracker).2 }
    else none
  | .start gone ops =>
    let engine := step s.engine (.restart ops)
    if ∀ pgid ∈ gone, (engine.pes.slot pgid).dir = none then
      some { s with engine := engine, running := true, lastpgid := max s.lastpgid (peInitpgid gone s.engine.pes) }
    else none
  | .boot => some { s with running := false, lastpgid := 0, handed := [] }

/-! ### The mark -/

/-- The exec that `pe_playground_postexec` saves the ID for: the first one of the founder of a known
    playground. -/
def Slot.Saves (x : Slot) (proc : Task) : Prop :=
  ∃ pg, x.pg = some pg ∧ pg.didExec = false ∧ (pg.founder = 0 ∨ pg.founder = proc.taskCookie)

theorem Slot.postexec_saved (x : Slot) (proc : Task) : (x.postexec proc).saved = true ↔ x.Saves proc := by
  rcases x with ⟨_ | pg, d⟩
  · refine iff_of_false (fun h => Bool.false_ne_true h) ?_
    rintro ⟨pg, h, _⟩
    cases h
  · have hsaves : (⟨some pg, d⟩ : Slot).Saves proc ↔
        pg.didExec = false ∧ (pg.founder = 0 ∨ pg.founder = proc.taskCookie) := by
      constructor
      · rintro ⟨_, h, hs⟩
        rw [some.inj h]
        exact hs
      · exact fun hs => ⟨pg, rfl, hs⟩
    rw [hsaves]
    by_cases hd : pg.didExec = true
    · have hinit : (⟨some pg, d⟩ : Slot).initproc proc = (false, ⟨some pg, d⟩) := by
        rw [initproc]
        dsimp only
        rw [if_pos hd]
      rw [postexec, hinit]
      exact iff_of_false Bool.false_ne_true fun h => Bool.false_ne_true (h.1.symm.trans hd)
    · by_cases hf : pg.founder ≠ 0 ∧ pg.founder ≠ proc.taskCookie
      · have hinit : (⟨some pg, d⟩ : Slot).initproc proc = (false, ⟨some pg, d⟩) := by
          rw [initproc]
          dsimp only
          rw [if_neg hd, if_pos hf]
        rw [postexec, hinit]
        exact iff_of_false Bool.false_ne_true fun h => h.2.elim hf.1 hf.2
      · have hinit : ((⟨some pg, d⟩ : Slot).initproc proc).1 = true ∧
            ((⟨some pg, d⟩ : Slot).initproc proc).2.pg ≠ none := by
          rw [initproc]
          dsimp only
          rw [if_neg hd, if_neg hf]
          exact ⟨rfl, some_ne_none _⟩
        obtain ⟨pg', hpg'⟩ := ne_none_iff_exists'.mp hinit.2
        rw [postexec]
        dsimp only
        rw [hpg']
        dsimp only
        rw [if_pos hinit.1]
        exact iff_of_true rfl ⟨Bool.eq_false_iff.mpr hd, by omega⟩

instance (x : Slot) (proc : Task) : Decidable (x.Saves proc) := decidable_of_iff _ (x.postexec_saved proc)

/-- An exec is recorded: its ID is saved and not below the one in the file, or it is not saved and not above
    it. -/
def ExecRecorded (s : Pes) : Call → Prop
  | .postexec pgid proc =>
    ((s.slot pgid).Saves proc → s.lastPgid ≤ pgid) ∧ (¬ (s.slot pgid).Saves proc → pgid ≤ s.lastPgid)
  | _ => True

instance (s : Pes) (c : Call) : Decidable (ExecRecorded s c) :=
  match c with
  | .postexec pgid proc => inferInstanceAs (Decidable
      (((s.slot pgid).Saves proc → s.lastPgid ≤ pgid) ∧ (¬ (s.slot pgid).Saves proc → pgid ≤ s.lastPgid)))
  | .add _ _ | .rename _ _ | .delete _ _ | .instantiate _ _ _ _ _ _ | .fileDelete _ _ _ _ _
  | .scanrequest _ _ _ _ _ _ | .unlink _ _ _ _ _ _ => isTrue trivial

theorem execRecorded_other (s : Pes) {c : Call} (h : ∀ pgid proc, c ≠ .postexec pgid proc) : ExecRecorded s c := by
  cases c with
  | postexec pgid proc => exact absurd rfl (h pgid proc)
  | _ => trivial

/-- The file has the highest ID that an exec was seen in. -/
structure Marked (lastPgid : ℕ) (execs : List ℕ) : Prop where
  above : ∀ pgid ∈ execs, pgid ≤ lastPgid
  seen : lastPgid = 0 ∨ lastPgid ∈ execs

theorem delete_saved (ops : DirOps) (x : Slot) : (x.delete ops).saved = false := by
  rw [Slot.delete]
  split
  · rfl
  · split <;> rfl

theorem lastPgid_call (s : Pes) (c : Call) :
    (s.call c).lastPgid = if (c.run (s.slot c.pgid)).saved then c.pgid else s.lastPgid := rfl

/-- What a call without an exec leaves in the file. -/
theorem lastPgid_call_other (s : Pes) {c : Call} (h : ∀ pgid proc, c ≠ .postexec pgid proc) :
    (s.call c).lastPgid = s.lastPgid := by
  have hsaved : (c.run (s.slot c.pgid)).saved = false := by
    cases c with
    | postexec pgid proc => exact absurd rfl (h pgid proc)
    | delete pgid ops => exact delete_saved ops _
    | _ => rfl
  rw [lastPgid_call, hsaved]
  rfl

theorem execsOf_other {c : Call} (h : ∀ pgid proc, c ≠ .postexec pgid proc) : execsOf [c] = [] := by
  cases c with
  | postexec pgid proc => exact absurd rfl (h pgid proc)
  | _ => rfl

/-- One exec: the ID that is saved is the highest one, or it was seen before or is lower. -/
theorem marked_exec {s : Pes} {execs : List ℕ} (h : Marked s.lastPgid execs) (pgid : ℕ) (proc : Task) :
    ((∀ c ∈ [Call.postexec pgid proc], ExecRecorded s c) ↔
      ∀ q ∈ execs ++ [pgid], q ≤ (s.call (.postexec pgid proc)).lastPgid) ∧
    ((∀ c ∈ [Call.postexec pgid proc], ExecRecorded s c) →
      Marked (s.call (.postexec pgid proc)).lastPgid (execs ++ [pgid])) := by
  have hlast : (s.call (.postexec pgid proc)).lastPgid =
      if ((s.slot pgid).postexec proc).saved then pgid else s.lastPgid := rfl
  rw [forall_mem_singleton, ExecRecorded, hlast]
  by_cases hs : (s.slot pgid).Saves proc
  · rw [if_pos ((Slot.postexec_saved _ proc).mpr hs)]
    have habove : s.lastPgid ≤ pgid → ∀ q ∈ execs ++ [pgid], q ≤ pgid := by
      intro hle q hq
      rcases mem_append.mp hq with hq | hq
      · exact (h.above q hq).trans hle
      · exact (mem_singleton.mp hq).le
    refine ⟨⟨fun hr => habove (hr.1 hs), fun hall => ⟨fun _ => ?_, fun hn => absurd hs hn⟩⟩, fun hr => ?_⟩
    · rcases h.seen with h0 | hmem
      · omega
      · exact hall _ (mem_append_left _ hmem)
    · exact ⟨habove (hr.1 hs), .inr (mem_append_right _ (mem_singleton_self pgid))⟩
  · rw [if_neg fun hsv => hs ((Slot.postexec_saved _ proc).mp hsv)]
    have habove : pgid ≤ s.lastPgid → ∀ q ∈ execs ++ [pgid], q ≤ s.lastPgid := by
      intro hle q hq
      rcases mem_append.mp hq with hq | hq
      · exact h.above q hq
      · rw [mem_singleton.mp hq]
        exact hle
    refine ⟨⟨fun hr => habove (hr.2 hs), fun hall => ⟨fun hn => absurd hn hs, fun _ => ?_⟩⟩, fun hr => ?_⟩
    · exact hall pgid (mem_append_right _ (mem_singleton_self pgid))
    · exact ⟨habove (hr.2 hs), h.seen.imp_right fun hm => mem_append_left _ hm⟩

/-- The mark stays the highest ID iff the execs are recorded. -/
theorem marked_calls {P : Call → Prop} {cs : List Call} (hshape : Calls P cs) {s : Pes} {execs : List ℕ}
    (h : Marked s.lastPgid execs) : ((∀ c ∈ cs, ExecRecorded s c) ↔
      ∀ pgid ∈ execs ++ execsOf cs, pgid ≤ (cs.foldl Pes.call s).lastPgid) ∧
    ((∀ c ∈ cs, ExecRecorded s c) → Marked (cs.foldl Pes.call s).lastPgid (execs ++ execsOf cs)) := by
  -- without an exec nothing happens to the file
  have hother : ∀ s' : Pes, s'.lastPgid = s.lastPgid → execsOf cs = [] → (∀ c ∈ cs, ExecRecorded s c) →
      ((∀ c ∈ cs, ExecRecorded s c) ↔ ∀ pgid ∈ execs ++ execsOf cs, pgid ≤ s'.lastPgid) ∧
      ((∀ c ∈ cs, ExecRecorded s c) → Marked s'.lastPgid (execs ++ execsOf cs)) := by
    intro s' hl he hno
    rw [hl, he, append_nil]
    exact ⟨iff_of_true hno h.above, fun _ => h⟩
  cases hshape with
  | none => exact hother _ rfl rfl fun _ hc => absurd hc not_mem_nil
  | move pgid ops proc _ _ =>
    refine hother _ ?_ rfl fun c hc => ?_
    · have hdel : (s.call (.delete pgid ops)).lastPgid = s.lastPgid :=
        lastPgid_call_other s fun _ _ => Call.noConfusion
      have hadd : ((s.call (.delete pgid ops)).call (.add pgid proc)).lastPgid = (s.call (.delete pgid ops)).lastPgid :=
        lastPgid_call_other _ fun _ _ => Call.noConfusion
      exact hadd.trans hdel
    · simp only [mem_cons, not_mem_nil, or_false] at hc
      rcases hc with rfl | rfl <;> trivial
  | one c _ =>
    by_cases hc : ∀ pgid proc, c ≠ .postexec pgid proc
    · refine hother _ (lastPgid_call_other s hc) (execsOf_other hc) fun c' hc' => ?_
      rw [mem_singleton.mp hc']
      exact execRecorded_other s hc
    · simp only [not_forall, not_not] at hc
      obtain ⟨pgid, proc, rfl⟩ := hc
      exact marked_exec h pgid proc

/-! ### Runs -/

/-- Every exec of the event is recorded. -/
def Recorded (s : System) : SysEvent → Prop
  | .event e =>
    s.running ∧ Possible s.handed e → ∀ c ∈ (handle e s.engine.tracker).2, ExecRecorded s.engine.pes c
  | _ => True

instance (s : System) (e : SysEvent) : Decidable (Recorded s e) :=
  match e with
  | .event e => inferInstanceAs (Decidable
      (s.running ∧ Possible s.handed e → ∀ c ∈ (handle e s.engine.tracker).2, ExecRecorded s.engine.pes c))
  | .create _ | .start _ _ | .boot => isTrue trivial

/-- The ID in the file is not below that of any playground that an exec was seen in. -/
def MarkAbove (s : System) : Prop := ∀ pgid ∈ s.execs, pgid ≤ s.engine.pes.lastPgid

/-- A start passes no ID below that of a playground that an exec was seen in. -/
def StartsAbove (s : System) : SysEvent → Prop
  | .start gone _ => ∀ pgid ∈ s.execs, pgid ≤ peInitpgid gone s.engine.pes
  | _ => True

instance (s : System) (e : SysEvent) : Decidable (StartsAbove s e) :=
  match e with
  | .start gone _ => inferInstanceAs (Decidable (∀ pgid ∈ s.execs, pgid ≤ peInitpgid gone s.engine.pes))
  | .create _ | .event _ | .boot => isTrue trivial

theorem lastPgid_le_initpgid (gone : List ℕ) (s : Pes) : s.lastPgid ≤ peInitpgid gone s := by
  rw [peInitpgid]
  split
  · exact le_refl _
  · rename_i h
    exact not_lt.mp h

theorem lastPgid_restart (ops : ℕ → DirOps) (s : Pes) : (s.restart ops).lastPgid = s.lastPgid := by
  have h : ∀ (pgids : List ℕ) (s : Pes), (pgids.foldl (fun s pgid =>
      s.put pgid ⟨(⟨none, (s.slot pgid).dir⟩ : Slot).read (ops pgid), [], false⟩) s).lastPgid = s.lastPgid := by
    intro pgids
    induction pgids with
    | nil => exact fun _ => rfl
    | cons p ps ih =>
      intro s
      rw [foldl_cons, ih]
      rfl
  exact h s.slots.keys s

variable {s s' : System} {e : SysEvent}

theorem step_event {e : Event} (h : sysStep s (.event e) = some s') : (s.running ∧ Possible s.handed e) ∧
    s'.engine.pes = (handle e s.engine.tracker).2.foldl Pes.call s.engine.pes ∧
    s'.execs = s.execs ++ execsOf (handle e s.engine.tracker).2 := by
  rw [sysStep] at h
  split at h
  · rename_i hp
    rw [← some.inj h]
    have he : ¬ e.Restarts := by
      cases e with
      | restart ops => exact absurd hp.2 id
      | _ => exact id
    exact ⟨hp, step_pes he s.engine, rfl⟩
  · cases h

/-- What a system does that is not an event for the policy engine leaves the file alone. -/
theorem step_mark (he : ∀ e', e ≠ .event e') (h : sysStep s e = some s') :
    s'.engine.pes.lastPgid = s.engine.pes.lastPgid ∧ s'.execs = s.execs := by
  cases e with
  | event e' => exact absurd rfl (he e')
  | create pgid =>
    rw [sysStep] at h
    split at h
    · rw [← some.inj h]
      exact ⟨rfl, rfl⟩
    · cases h
  | start gone ops =>
    rw [sysStep] at h
    split at h
    · rw [← some.inj h]
      exact ⟨lastPgid_restart ops s.engine.pes, rfl⟩
    · cases h
  | boot =>
    rw [← some.inj h]
    exact ⟨rfl, rfl⟩

/-- One step: the mark stays the highest ID iff the execs are recorded. -/
theorem marked_step (h : Marked s.engine.pes.lastPgid s.execs) (hs : sysStep s e = some s') :
    (Recorded s e ↔ MarkAbove s') ∧ (Recorded s e → Marked s'.engine.pes.lastPgid s'.execs) := by
  by_cases he : ∀ e', e ≠ .event e'
  · obtain ⟨hl, hx⟩ := step_mark he hs
    have hrec : Recorded s e := by
      cases e with
      | event e' => exact absurd rfl (he e')
      | _ => trivial
    rw [MarkAbove, hl, hx]
    exact ⟨iff_of_true hrec h.above, fun _ => h⟩
  · simp only [not_forall, not_not] at he
    obtain ⟨e', rfl⟩ := he
    obtain ⟨hp, hpes, hx⟩ := step_event hs
    rw [MarkAbove, hpes, hx, Recorded, forall_prop_of_true hp]
    exact marked_calls (handle_calls e' s.engine.tracker) h

theorem marked_init : Marked System.init.engine.pes.lastPgid System.init.execs :=
  ⟨fun _ h => absurd h not_mem_nil, .inl rfl⟩

theorem marked_keep (h : Marked s.engine.pes.lastPgid s.execs) (hr : Recorded s e) (hs : sysStep s e = some s') :
    Marked s'.engine.pes.lastPgid s'.execs :=
  (marked_step h hs).2 hr

theorem recorded_iff (h : Marked s.engine.pes.lastPgid s.execs) (e : SysEvent) :
    Recorded s e ↔ ∀ s', sysStep s e = some s' → MarkAbove s' := by
  constructor
  · exact fun hr s' hs => (marked_step h hs).1.mp hr
  · intro hm
    cases hs : sysStep s e with
    | some s' => exact (marked_step h hs).1.mpr (hm s' hs)
    | none =>
      cases e with
      | event e' =>
        rintro hp
        rw [sysStep, if_pos hp] at hs
        cases hs
      | _ => trivial

theorem startsAbove_of_marked (h : Marked s.engine.pes.lastPgid s.execs) (e : SysEvent) : StartsAbove s e := by
  cases e with
  | start gone ops => exact fun pgid hp => (h.above pgid hp).trans (lastPgid_le_initpgid gone s.engine.pes)
  | _ => trivial

/-- In every run that records its execs, each start passes an ID that is at least that of every playground in
    which an exec was seen. The runs that record their execs are those in which the file alone has such an
    ID behind every step, so that no directory is needed for it. -/
theorem pgids_not_reused (es : List SysEvent) :
    (Along sysStep Recorded .init es ↔
      Along sysStep (fun s e => ∀ s', sysStep s e = some s' → MarkAbove s') .init es) ∧
    (Along sysStep Recorded .init es → Along sysStep StartsAbove .init es) := by
  have hkeep : ∀ (s : System) (e : SysEvent) (s' : System), Marked s.engine.pes.lastPgid s.execs → Recorded s e →
      sysStep s e = some s' → Marked s'.engine.pes.lastPgid s'.execs := fun s e s' h hr hs => marked_keep h hr hs
  refine ⟨along_iff (fun s e h => recorded_iff h e) hkeep marked_init es, fun ha => ?_⟩
  have hboth : Along sysStep Recorded .init es ↔
      Along sysStep (fun s e => Recorded s e ∧ StartsAbove s e) .init es :=
    along_iff (fun s e h => ⟨fun hr => ⟨hr, startsAbove_of_marked h e⟩, fun hr => hr.1⟩) hkeep marked_init es
  exact (hboth.mp ha).mono (I := fun _ => True) (fun _ _ _ _ _ => trivial) (fun _ _ _ h => h.2) trivial

/-- A playground whose only process comes, does an exec and ends; its ID survives in the file. -/
def oneByOne : List SysEvent :=
  [.start [] fun _ => .fine, .create 5, .event (.fork 1000 7 5), .event (.createThread 7),
    .event (.exec 7 1000 5), .event (.destroyThread 7 .fine), .boot, .start [] fun _ => .fine]

theorem pgids_not_reused_boot : Along sysStep StartsAbove .init oneByOne :=
  (pgids_not_reused oneByOne).2 (by decide +kernel)

/-- Playground 6 sees its first exec before playground 5. When playground 6 is gone, the start after the next
    boot passes 5. -/
def outOfOrder : List SysEvent :=
  [.start [] fun _ => .fine, .create 5, .event (.fork 1000 7 5), .event (.createThread 7), .create 6,
    .event (.fork 1000 8 6), .event (.createThread 8), .event (.exec 8 1000 6), .event (.exec 7 1000 5),
    .event (.destroyThread 8 .fine), .boot, .start [] fun _ => .fine]

theorem lower_pgid_passed : ¬ Along sysStep StartsAbove .init outOfOrder := by decide +kernel

end Anoubis.Pe.Pg

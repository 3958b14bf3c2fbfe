import Anoubis.Pe.Refs
import Mathlib.Algebra.BigOperators.Group.Finset.Basic
import Mathlib.Tactic.Abel

/-! The reference counts of processes and contexts, for one operation.

    `Acc db tr pr cr v` describes the store in the middle of an event: the tracker is `tr`, the handler
    holds the references `pr` to processes and `cr` to contexts, and the process at address `a` has the
    value `v a` if addresses of contexts are replaced by what is stored there. Every operation is a
    step between such descriptions; its effect on `v` is the operation of `Pe.Context`. -/

namespace Anoubis.Pe.Refs

open Multiset

open Anoubis.Apn Anoubis.Lib Function

/-! ### Slots -/

def slot : Option ℕ → Multiset ℕ
  | none => 0
  | some c => {c}

/-- The contexts that a process refers to. -/
def HProc.slots (p : HProc) : Multiset ℕ :=
  slot (p.context.get .admin) + slot (p.context.get .user1) +
    (slot (p.savedCtx.get .admin) + slot (p.savedCtx.get .user1))

theorem slots_setContext (p : HProc) (prio : Prio) (c : Option ℕ) :
    HProc.slots { p with context := p.context.set prio c } + slot (p.context.get prio) =
      p.slots + slot c := by
  cases prio <;> simp only [HProc.slots, ByPrio.get, ByPrio.set] <;> abel

theorem slots_setSaved (p : HProc) (prio : Prio) (c : Option ℕ) :
    HProc.slots { p with savedCtx := p.savedCtx.set prio c } + slot (p.savedCtx.get prio) =
      p.slots + slot c := by
  cases prio <;> simp only [HProc.slots, ByPrio.get, ByPrio.set] <;> abel

theorem slot_context_le (p : HProc) (prio : Prio) : slot (p.context.get prio) ≤ p.slots := by
  rw [HProc.slots]
  cases prio
  · exact (le_add_right _ _).trans (le_add_right _ _)
  · exact (le_add_left _ _).trans (le_add_right _ _)

theorem slot_saved_le (p : HProc) (prio : Prio) : slot (p.savedCtx.get prio) ≤ p.slots := by
  rw [HProc.slots]
  cases prio
  · exact (le_add_right _ _).trans (le_add_left _ _)
  · exact (le_add_left _ _).trans (le_add_left _ _)

/-- The slots of the process at an address. -/
def slotsAt (procs : Cells HProc) (a : ℕ) : Multiset ℕ := ((procs.val a).map HProc.slots).getD 0

/-- The slots of several processes. -/
def allSlots (procs : Cells HProc) (S : Finset ℕ) : Multiset ℕ := ∑ a ∈ S, slotsAt procs a

variable {procs : Cells HProc} {p p' : HProc} {S : Finset ℕ} {ctxs : Cells Ctx} {o : Option ℕ}
variable {x : Option Ctx} {v' : Proc}

theorem slotsAt_eq {a : ℕ} (h : procs.val a = some p) : slotsAt procs a = p.slots := by
  rw [slotsAt, h]
  rfl

theorem allSlots_erase {a : ℕ} (ha : a ∈ S) (h : procs.val a = some p) :
    allSlots procs S = allSlots procs (S.erase a) + p.slots := by
  rw [allSlots, ← Finset.sum_erase_add S _ ha, slotsAt_eq h]
  rfl

theorem allSlots_congr {procs' : Cells HProc} (h : ∀ a ∈ S, procs'.val a = procs.val a) :
    allSlots procs' S = allSlots procs S := by
  refine Finset.sum_congr rfl fun a ha => ?_
  rw [slotsAt, slotsAt, h a ha]

theorem slots_le_allSlots {a : ℕ} (ha : a ∈ S) (h : procs.val a = some p) : p.slots ≤ allSlots procs S := by
  rw [allSlots_erase ha h]
  exact le_add_left _ _

/-! ### Values -/

/-- The slot holds the context. -/
def SlotRep (ctxs : Cells Ctx) : Option ℕ → Option Ctx → Prop
  | none, x => x = none
  | some c, x => ctxs.val c = x ∧ x.isSome

theorem slotRep_none : SlotRep ctxs none none := rfl

/-- The process has the value `v`. -/
structure Rep (ctxs : Cells Ctx) (p : HProc) (v : Proc) : Prop where
  taskCookie : p.taskCookie = v.taskCookie
  uid : p.uid = v.uid
  secureexec : p.secureexec = v.secureexec
  instances : p.instances = v.instances
  threads : p.threads = v.threads
  ident : p.ident = v.ident
  pgid : p.pgid = v.pgid
  borrowCookie : p.borrowCookie = v.borrowCookie
  context : ∀ prio, SlotRep ctxs (p.context.get prio) (v.context.get prio)
  savedCtx : ∀ prio, SlotRep ctxs (p.savedCtx.get prio) (v.savedCtx.get prio)

variable {ctxs' : Cells Ctx} {R : Multiset ℕ} {w : Proc} {c : ℕ} {m : M ℕ} {P : Store → Prop}

theorem SlotRep.congr (h : SlotRep ctxs o x) (hv : ∀ c ∈ slot o, ctxs'.val c = ctxs.val c) : SlotRep ctxs' o x := by
  cases o with
  | none => exact h
  | some c => exact ⟨(hv c (by simp [slot])).trans h.1, h.2⟩

theorem Rep.congr {v : Proc} (h : Rep ctxs p v) (hv : ∀ c ∈ p.slots, ctxs'.val c = ctxs.val c) : Rep ctxs' p v :=
  { h with
    context := fun prio => (h.context prio).congr fun c hc =>
      hv c (mem_of_le (slot_context_le p prio) hc)
    savedCtx := fun prio => (h.savedCtx prio).congr fun c hc =>
      hv c (mem_of_le (slot_saved_le p prio) hc) }

/-! ### Accounts -/

/-- The addresses of the processes that somebody refers to. -/
def liveProcs (tr : List ℕ) (pr : Multiset ℕ) : Finset ℕ := ((tr : Multiset ℕ) + pr).toFinset

theorem mem_liveProcs {tr : List ℕ} {pr : Multiset ℕ} {a : ℕ} : a ∈ liveProcs tr pr ↔ a ∈ tr ∨ a ∈ pr := by
  simp [liveProcs]

/-- Reference counts and values in the middle of an event. -/
structure Acc (db : PolicyDb) (tr : List ℕ) (pr cr : Multiset ℕ) (v : ℕ → Proc) (st : Store) : Prop where
  tracker : st.tracker = tr
  nodup : tr.Nodup
  procs : st.procs.Counted (tr + pr)
  ctxs : st.ctxs.Counted (allSlots st.procs (liveProcs tr pr) + cr)
  rep : ∀ a ∈ liveProcs tr pr, ∃ p, st.procs.val a = some p ∧ Rep st.ctxs p (v a)
  freshProc : ∀ a ∈ liveProcs tr pr, a < st.nextProc
  freshCtx : ∀ c ∈ allSlots st.procs (liveProcs tr pr) + cr, c < st.nextCtx
  db : st.db = db
  running : st.terminated = false

variable {db : PolicyDb} {tr : List ℕ} {pr cr : Multiset ℕ} {v : ℕ → Proc} {st : Store} {a : ℕ}

/-- The process and its slots change, together with the contexts. -/
theorem Acc.write (h : Acc db tr pr cr v st) (ha : a ∈ liveProcs tr pr) (hp : st.procs.val a = some p)
    {cr' : Multiset ℕ} (hc : ctxs.Counted (allSlots st.procs ((liveProcs tr pr).erase a) + p'.slots + cr'))
    (hv : ∀ c ∈ allSlots st.procs ((liveProcs tr pr).erase a), ctxs.val c = st.ctxs.val c) (hr : Rep ctxs p' v')
    (hf : ∀ c ∈ p'.slots + cr', c < st.nextCtx) :
    ∃ procs, st.procs.write a p' = some procs ∧
      Acc db tr pr cr' (Function.update v a v') { st with procs := procs, ctxs := ctxs } := by
  have hmem : a ∈ (tr + pr : Multiset ℕ) := mem_toFinset.mp ha
  obtain ⟨procs, hw, hcount, hself, hother⟩ := Cells.counted_write h.procs hmem p'
  have hrest : allSlots procs ((liveProcs tr pr).erase a) =
      allSlots st.procs ((liveProcs tr pr).erase a) :=
    allSlots_congr fun b hb => hother b (Finset.ne_of_mem_erase hb)
  have hall : allSlots procs (liveProcs tr pr) =
      allSlots st.procs ((liveProcs tr pr).erase a) + p'.slots := by
    rw [allSlots_erase ha hself, hrest]
  refine ⟨procs, hw, h.tracker, h.nodup, hcount, by rw [hall]; exact hc, ?_, h.freshProc, ?_, h.db,
    h.running⟩
  · intro b hb
    by_cases hba : b = a
    · subst hba
      rw [update_self]
      exact ⟨p', hself, hr⟩
    · obtain ⟨q, hq, hrep⟩ := h.rep b hb
      rw [update_of_ne hba]
      refine ⟨q, (hother b hba).trans hq, hrep.congr fun c hcq => hv c ?_⟩
      exact mem_of_le (slots_le_allSlots (Finset.mem_erase.mpr ⟨hba, hb⟩) hq) hcq
  · intro c hcm
    simp only [hall] at hcm
    rw [add_assoc] at hcm
    rcases mem_add.mp hcm with hcm | hcm
    · refine h.freshCtx c (mem_add.mpr (.inl ?_))
      rw [allSlots_erase ha hp]
      exact mem_add.mpr (.inl hcm)
    · exact hf c hcm

theorem peContextReference_run (hc : st.ctxs.Counted R) (ho : ∀ c ∈ slot o, c ∈ R) :
    ∃ ctxs, (peContextReference o).run st = some ((), { st with ctxs := ctxs }) ∧
      ctxs.Counted (slot o + R) ∧ ctxs.val = st.ctxs.val := by
  cases o with
  | none => exact ⟨st.ctxs, rfl, by rwa [slot, zero_add], rfl⟩
  | some c =>
    obtain ⟨ctxs, hr, hcount, hval⟩ := Cells.counted_reference hc (ho c (by simp [slot]))
    refine ⟨ctxs, ?_, hcount, hval⟩
    change Option.map _ (st.ctxs.reference c) = _
    rw [hr]
    rfl

theorem peContextPut_run (hc : st.ctxs.Counted (slot o + R)) :
    ∃ ctxs, (peContextPut o).run st = some ((), { st with ctxs := ctxs }) ∧
      ctxs.Counted R ∧ ∀ c ∈ R, ctxs.val c = st.ctxs.val c := by
  cases o with
  | none => exact ⟨st.ctxs, rfl, by rwa [slot, zero_add] at hc, fun _ _ => rfl⟩
  | some c =>
    obtain ⟨r, ctxs, hr, hcount, -, hval⟩ := Cells.counted_put hc
    refine ⟨ctxs, ?_, hcount, hval⟩
    change Option.map _ (st.ctxs.put c) = _
    rw [hr]
    rfl

/-- A slot gets a new context and loses the old one: first the new reference, then the old one is
    dropped, then the slot is written. -/
theorem Acc.exchange (h : Acc db tr pr cr v st) (ha : a ∈ liveProcs tr pr) (hp : st.procs.val a = some p)
    {old new : Option ℕ} (hslots : p'.slots + slot old = p.slots + slot new)
    (hnew : ∀ c ∈ slot new, c ∈ allSlots st.procs (liveProcs tr pr) + cr) (hr : Rep st.ctxs p' v') :
    ∃ ctxs₁ ctxs₂ procs, (peContextReference new).run st = some ((), { st with ctxs := ctxs₁ }) ∧
      (peContextPut old).run { st with ctxs := ctxs₁ } = some ((), { st with ctxs := ctxs₂ }) ∧
      st.procs.write a p' = some procs ∧
      Acc db tr pr cr (Function.update v a v') { st with procs := procs, ctxs := ctxs₂ } := by
  obtain ⟨ctxs₁, hrun₁, hc₁, hv₁⟩ := peContextReference_run h.ctxs hnew
  have hall := allSlots_erase ha hp
  have heq : slot new + (allSlots st.procs (liveProcs tr pr) + cr) =
      slot old + (allSlots st.procs ((liveProcs tr pr).erase a) + p'.slots + cr) := by
    calc slot new + (allSlots st.procs (liveProcs tr pr) + cr)
        = allSlots st.procs ((liveProcs tr pr).erase a) + (p.slots + slot new) + cr := by
          rw [hall]; abel
      _ = slot old + (allSlots st.procs ((liveProcs tr pr).erase a) + p'.slots + cr) := by
          rw [← hslots]; abel
  rw [heq] at hc₁
  have hput : ∃ ctxs₂, (peContextPut old).run { st with ctxs := ctxs₁ } =
      some ((), { st with ctxs := ctxs₂ }) ∧ ctxs₂.Counted _ ∧ ∀ c ∈ _, ctxs₂.val c = ctxs₁.val c :=
    peContextPut_run hc₁
  obtain ⟨ctxs₂, hrun₂, hc₂, hv₂⟩ := hput
  have hval : ∀ c ∈ allSlots st.procs ((liveProcs tr pr).erase a) + p'.slots + cr,
      ctxs₂.val c = st.ctxs.val c := fun c hcm => (hv₂ c hcm).trans (congrFun hv₁ c)
  -- every context in the new slots was there before
  have hfresh : ∀ c ∈ p'.slots + cr, c < st.nextCtx := by
    intro c hcm
    rcases mem_add.mp hcm with hcm | hcm
    · have hc' : c ∈ p.slots + slot new := by
        rw [← hslots]
        exact mem_add.mpr (.inl hcm)
      rcases mem_add.mp hc' with hc' | hc'
      · exact h.freshCtx c (mem_add.mpr (.inl (mem_of_le (slots_le_allSlots ha hp) hc')))
      · exact h.freshCtx c (hnew c hc')
    · exact h.freshCtx c (mem_add.mpr (.inr hcm))
  obtain ⟨procs, hw, hacc⟩ := h.write ha hp hc₂
    (fun c hcm => hval c (by simp only [mem_add]; exact .inl (.inl hcm)))
    (hr.congr fun c hcm => hval c (by simp only [mem_add]; exact .inl (.inr hcm))) hfresh
  exact ⟨ctxs₁, ctxs₂, procs, hrun₁, hrun₂, hw, hacc⟩

/-! ### Operations on one process -/

/-- The process at `a` is `p`. -/
def Shows (db : PolicyDb) (tr : List ℕ) (pr cr : Multiset ℕ) (v : ℕ → Proc) (a : ℕ) (p : HProc)
    (st : Store) : Prop :=
  Acc db tr pr cr v st ∧ st.procs.val a = some p ∧ Rep st.ctxs p (v a)

theorem Acc.shows (h : Acc db tr pr cr v st) (ha : a ∈ liveProcs tr pr) :
    ∃ p, Shows db tr pr cr v a p st := by
  obtain ⟨p, hp, hr⟩ := h.rep a ha
  exact ⟨p, h, hp, hr⟩

theorem readProc_run (hp : st.procs.val a = some p) : (readProc a).run st = some (p, st) := by
  change Option.map _ (st.procs.val a) = _
  rw [hp]
  rfl

theorem readProc_spec (ha : a ∈ liveProcs tr pr) : Does (Acc db tr pr cr v) (readProc a) (Shows db tr pr cr v a) := by
  intro st h
  obtain ⟨p, hs⟩ := h.shows ha
  exact ⟨p, st, readProc_run hs.2.1, hs⟩

theorem writeProc_run (hw : st.procs.write a p = some procs) :
    (writeProc a p).run st = some ((), { st with procs := procs }) := by
  change Option.map _ (st.procs.write a p) = _
  rw [hw]
  rfl

/-- A write that leaves the slots alone, or moves contexts between them. The contexts themselves are
    not touched. -/
theorem writeProc_frame (ha : a ∈ liveProcs tr pr) (hs : p'.slots = p.slots)
    (hr : ∀ ctxs, Rep ctxs p (v a) → Rep ctxs p' v') (F : Cells Ctx → Prop) :
    Does (fun st => Shows db tr pr cr v a p st ∧ F st.ctxs) (writeProc a p')
      (fun _ st => Acc db tr pr cr (Function.update v a v') st ∧ F st.ctxs) := by
  rintro st ⟨⟨h, hp, hrep⟩, hF⟩
  have hall := allSlots_erase ha hp
  obtain ⟨procs, hw, hacc⟩ := h.write ha hp (by rw [hs, ← hall]; exact h.ctxs) (fun _ _ => rfl)
    (hr st.ctxs hrep) (fun c hc => by
      rw [hs] at hc
      refine h.freshCtx c ?_
      rw [hall, add_assoc]
      exact mem_add.mpr (.inr hc))
  exact ⟨(), _, writeProc_run hw, hacc, hF⟩

theorem writeProc_spec (ha : a ∈ liveProcs tr pr) (hs : p'.slots = p.slots)
    (hr : ∀ ctxs, Rep ctxs p (v a) → Rep ctxs p' v') : Does (Shows db tr pr cr v a p) (writeProc a p')
      (fun _ => Acc db tr pr cr (Function.update v a v')) :=
  (writeProc_frame ha hs hr (fun _ => True)).mono (fun _ h => ⟨h, trivial⟩) fun _ _ h => h.1

theorem mem_of_slotRep (h : Acc db tr pr cr v st) (hs : SlotRep st.ctxs o x) :
    ∀ c ∈ slot o, c ∈ allSlots st.procs (liveProcs tr pr) + cr := by
  intro c hc
  cases o with
  | none => simp [slot] at hc
  | some d =>
    obtain rfl : c = d := by simpa [slot] using hc
    rw [← h.ctxs.isSome_iff]
    have hx : (st.ctxs.val c).isSome := by
      rw [hs.1]
      exact hs.2
    simpa [Cells.val] using hx

/-- A slot is written on both sides. -/
theorem slotRep_set {b : ByPrio (Option ℕ)} {c : ByPrio (Option Ctx)} (h : ∀ q, SlotRep ctxs (b.get q) (c.get q))
    (hs : SlotRep ctxs o x) (prio q : Prio) : SlotRep ctxs ((b.set prio o).get q) ((c.set prio x).get q) := by
  by_cases hq : q = prio
  · subst hq
    simpa using hs
  · simpa [hq] using h q

theorem rep_setContext (h : Rep ctxs p w) (hs : SlotRep ctxs o x) (prio : Prio) :
    Rep ctxs { p with context := p.context.set prio o } (w.setContext prio x) :=
  { h with context := slotRep_set h.context hs prio }

theorem rep_setSaved (h : Rep ctxs p w) (hs : SlotRep ctxs o x) (prio : Prio) :
    Rep ctxs { p with savedCtx := p.savedCtx.set prio o } (w.setSaved prio x) :=
  { h with savedCtx := slotRep_set h.savedCtx hs prio }

/-- The value of one process changes. -/
def modV (v : ℕ → Proc) (a : ℕ) (f : Proc → Proc) : ℕ → Proc := Function.update v a (f (v a))

@[simp] theorem modV_self (v : ℕ → Proc) (a : ℕ) (f : Proc → Proc) : modV v a f a = f (v a) :=
  update_self ..

theorem modV_modV (v : ℕ → Proc) (a : ℕ) (f g : Proc → Proc) :
    modV (modV v a f) a g = modV v a (fun p => g (f p)) := by
  rw [modV, modV_self, modV, modV, update_idem]

theorem modV_eq_self {v : ℕ → Proc} {a : ℕ} {f : Proc → Proc} (h : f (v a) = v a) : modV v a f = v := by
  rw [modV, h, update_eq_self]

/-- `pe_proc_set_context`; the saved contexts stay where they are. -/
theorem peProcSetContext_frame (ha : a ∈ liveProcs tr pr) (prio : Prio) (o : Option ℕ) (x : Option Ctx)
    (F : ByPrio (Option ℕ) → Prop) : Does (fun st => (Acc db tr pr cr v st ∧ SlotRep st.ctxs o x) ∧
        ∃ p, st.procs.val a = some p ∧ F p.savedCtx) (peProcSetContext a prio o)
      (fun _ st => Acc db tr pr cr (modV v a (fun p => p.setContext prio x)) st ∧
        ∃ p, st.procs.val a = some p ∧ F p.savedCtx) := by
  rintro st ⟨⟨h, hs⟩, q, hq, hF⟩
  obtain ⟨p, -, hp, hrep⟩ := h.shows ha
  cases hq.symm.trans hp
  obtain ⟨ctxs₁, ctxs₂, procs, hrun₁, hrun₂, hw, hacc⟩ := h.exchange ha hp (slots_setContext q prio o)
    (mem_of_slotRep h hs) (rep_setContext hrep hs prio)
  refine ⟨(), _, ?_, hacc, _, Cells.val_write hw, hF⟩
  have hread : (readProc a).run { st with ctxs := ctxs₁ } = some (q, { st with ctxs := ctxs₁ }) :=
    readProc_run hp
  rw [peProcSetContext, run_bind hrun₁, run_bind hread, run_bind hrun₂]
  exact writeProc_run hw

theorem peProcSetContext_spec (ha : a ∈ liveProcs tr pr) (prio : Prio) (o : Option ℕ) (x : Option Ctx) :
    Does (fun st => Acc db tr pr cr v st ∧ SlotRep st.ctxs o x) (peProcSetContext a prio o)
      (fun _ => Acc db tr pr cr (modV v a (fun p => p.setContext prio x))) := by
  refine (peProcSetContext_frame ha prio o x (fun _ => True)).mono (fun st h => ?_) fun _ _ h => h.1
  obtain ⟨p, hs⟩ := h.1.shows ha
  exact ⟨h, p, hs.2.1, trivial⟩

theorem peProcSetSavedctx_spec (ha : a ∈ liveProcs tr pr) (prio : Prio) (o : Option ℕ) (x : Option Ctx) :
    Does (fun st => Acc db tr pr cr v st ∧ SlotRep st.ctxs o x) (peProcSetSavedctx a prio o)
      (fun _ => Acc db tr pr cr (modV v a (fun p => p.setSaved prio x))) := by
  rintro st ⟨h, hs⟩
  obtain ⟨p, -, hp, hrep⟩ := h.shows ha
  obtain ⟨ctxs₁, ctxs₂, procs, hrun₁, hrun₂, hw, hacc⟩ := h.exchange ha hp (slots_setSaved p prio o)
    (mem_of_slotRep h hs) (rep_setSaved hrep hs prio)
  refine ⟨(), _, ?_, hacc⟩
  have hread : (readProc a).run { st with ctxs := ctxs₁ } = some (p, { st with ctxs := ctxs₁ }) :=
    readProc_run hp
  rw [peProcSetSavedctx, run_bind hrun₁, run_bind hread, run_bind hrun₂]
  exact writeProc_run hw

theorem dropSaved_spec (ha : a ∈ liveProcs tr pr) (prio : Prio) (ctx : ℕ) :
    Does (fun st => ∃ p, Shows db tr pr cr v a p st ∧ p.savedCtx.get prio = some ctx)
      (dropSaved a prio ctx) (fun _ => Acc db tr pr cr (modV v a (fun p => p.setSaved prio none))) := by
  rintro st ⟨p, ⟨h, hp, hrep⟩, hctx⟩
  have hslots := slots_setSaved p prio none
  rw [hctx] at hslots
  obtain ⟨ctxs₁, ctxs₂, procs, hrun₁, hrun₂, hw, hacc⟩ := h.exchange ha hp hslots
    (fun c hc => by simp [slot] at hc) (rep_setSaved hrep slotRep_none prio)
  obtain rfl : st.ctxs = ctxs₁ := by
    have he := Option.some.inj hrun₁
    exact congrArg (fun s => s.2.ctxs) he
  refine ⟨(), _, ?_, hacc⟩
  have hread : (readProc a).run { st with ctxs := ctxs₂ } = some (p, { st with ctxs := ctxs₂ }) :=
    readProc_run hp
  rw [dropSaved, run_bind hrun₂, run_bind hread]
  exact writeProc_run hw

/-! ### Temporary contexts -/

theorem SlotRep.none_eq (h : SlotRep ctxs o x) (ho : o = none) : x = none := by
  subst ho
  exact h

theorem SlotRep.exists_eq (h : SlotRep ctxs o x) (ho : o = some c) :
    ∃ y, x = some y ∧ SlotRep ctxs (some c) (some y) := by
  subst ho
  obtain ⟨y, rfl⟩ := Option.isSome_iff_exists.mp h.2
  exact ⟨y, rfl, h⟩

theorem readCtx_run {x : Ctx} (h : SlotRep st.ctxs (some c) (some x)) : (readCtx c).run st = some (x, st) := by
  change Option.map _ (st.ctxs.val c) = _
  rw [h.1]
  rfl

/-- A new context; the handler holds the reference. -/
theorem peContextAlloc_spec (x : Ctx) : Does (Acc db tr pr cr v) (peContextAlloc x)
      (fun c st => Acc db tr pr (c ::ₘ cr) v st ∧ SlotRep st.ctxs (some c) (some x)) := by
  intro st h
  have hn : st.nextCtx ∉ allSlots st.procs (liveProcs tr pr) + cr :=
    fun hm => lt_irrefl _ (h.freshCtx _ hm)
  obtain ⟨hc, hself, hother⟩ := Cells.counted_new h.ctxs hn x
  refine ⟨st.nextCtx, _, rfl, ⟨h.tracker, h.nodup, h.procs, ?_, ?_, h.freshProc, ?_, h.db, h.running⟩, hself, rfl⟩
  · rw [add_cons]
    exact hc
  · intro b hb
    obtain ⟨p, hp, hr⟩ := h.rep b hb
    refine ⟨p, hp, hr.congr fun c hcm => hother c fun he => hn ?_⟩
    rw [← he]
    exact mem_add.mpr (.inl (mem_of_le (slots_le_allSlots hb hp) hcm))
  · intro c hcm
    rw [add_cons, mem_cons] at hcm
    rcases hcm with rfl | hcm
    · exact Nat.lt_succ_self _
    · exact (h.freshCtx c hcm).trans (Nat.lt_succ_self _)

/-- The handler drops its reference. -/
theorem peContextPut_spec (c : ℕ) :
    Does (Acc db tr pr (c ::ₘ cr) v) (peContextPut (some c)) (fun _ => Acc db tr pr cr v) := by
  intro st h
  have hc := h.ctxs
  rw [add_cons] at hc
  obtain ⟨ctxs, hrun, hcount, hval⟩ := peContextPut_run (o := some c) hc
  refine ⟨(), _, hrun, h.tracker, h.nodup, h.procs, hcount, ?_, h.freshProc, ?_, h.db, h.running⟩
  · intro b hb
    obtain ⟨p, hp, hr⟩ := h.rep b hb
    refine ⟨p, hp, hr.congr fun d hd => hval d ?_⟩
    exact mem_add.mpr (.inl (mem_of_le (slots_le_allSlots hb hp) hd))
  · intro d hd
    refine h.freshCtx d ?_
    rw [add_cons]
    exact mem_cons_of_mem hd

/-- Create a context, put it into a slot and drop the temporary reference. -/
theorem assign_spec (ha : a ∈ liveProcs tr pr) (prio : Prio) {x : Ctx}
    (hm : Does P m (fun c st => Acc db tr pr (c ::ₘ cr) v st ∧ SlotRep st.ctxs (some c) (some x))) :
    Does P (do
        let c ← m
        peProcSetContext a prio (some c)
        peContextPut (some c))
      (fun _ => Acc db tr pr cr (modV v a (fun p => p.setContext prio (some x)))) :=
  hm.bind fun c => (peProcSetContext_spec ha prio (some c) (some x)).bind fun _ => peContextPut_spec c

theorem assignSaved_spec (ha : a ∈ liveProcs tr pr) (prio : Prio) {x : Ctx}
    (hm : Does P m (fun c st => Acc db tr pr (c ::ₘ cr) v st ∧ SlotRep st.ctxs (some c) (some x))) :
    Does P (do
        let c ← m
        peProcSetSavedctx a prio (some c)
        peContextPut (some c))
      (fun _ => Acc db tr pr cr (modV v a (fun p => p.setSaved prio (some x)))) :=
  hm.bind fun c => (peProcSetSavedctx_spec ha prio (some c) (some x)).bind fun _ => peContextPut_spec c

/-! ### Contexts -/

theorem setContext_self (p : Proc) (prio : Prio) : p.setContext prio (p.context.get prio) = p := by
  cases prio <;> rfl

theorem setSaved_self (p : Proc) (prio : Prio) : p.setSaved prio (p.savedCtx.get prio) = p := by
  cases prio <;> rfl

/-- The rules of a slot are dropped: `get` reads the slot, and `assign` writes it as `put` does. -/
theorem norules_spec (ha : a ∈ liveProcs tr pr) {get : HProc → Option ℕ} {getV : Proc → Option Ctx}
    {put : Proc → Option Ctx → Proc} {assign : Ctx → M Unit}
    (hrep : ∀ {ctxs p w}, Rep ctxs p w → SlotRep ctxs (get p) (getV w)) (hself : ∀ w, put w (getV w) = w)
    (hassign : ∀ x, Does (Acc db tr pr cr v) (assign x)
      (fun _ => Acc db tr pr cr (modV v a (fun p => put p (some x))))) :
    Does (Acc db tr pr cr v) (do
        let p ← readProc a
        match get p with
        | none => pure ()
        | some c => do
          let x ← readCtx c
          if x.NoRules then pure () else assign (bare x.ident))
      (fun _ => Acc db tr pr cr (modV v a (fun p => put p (norules (getV p))))) := by
  refine (readProc_spec ha).bind fun p => ?_
  rintro st ⟨h, hp, hr⟩
  have hkept : norules (getV (v a)) = getV (v a) →
      Acc db tr pr cr (modV v a (fun p => put p (norules (getV p)))) st := by
    intro he
    rw [modV_eq_self]
    · exact h
    · rw [he, hself]
  cases hslot : get p with
  | none => exact ⟨(), st, rfl, hkept (by rw [(hrep hr).none_eq hslot, norules])⟩
  | some c =>
    obtain ⟨x, hv, hx⟩ := (hrep hr).exists_eq hslot
    simp only
    rw [run_bind (readCtx_run hx)]
    by_cases hn : x.NoRules
    · rw [if_pos hn]
      exact ⟨(), st, rfl, hkept (by rw [hv, norules, if_pos hn])⟩
    · rw [if_neg hn]
      have he : norules (getV (v a)) = some (bare x.ident) := by
        rw [hv, norules, if_neg hn]
        rfl
      rw [modV, he]
      exact hassign (bare x.ident) st h

theorem peContextNorules_spec (ha : a ∈ liveProcs tr pr) (prio : Prio) :
    Does (Acc db tr pr cr v) (peContextNorules a prio)
      (fun _ => Acc db tr pr cr (modV v a (fun p => p.setContext prio (norules (p.context.get prio))))) :=
  norules_spec ha (fun hr => hr.context prio) (fun w => setContext_self w prio)
    fun x => assign_spec ha prio (peContextAlloc_spec x)

theorem peSavedctxNorules_spec (ha : a ∈ liveProcs tr pr) (prio : Prio) :
    Does (Acc db tr pr cr v) (peSavedctxNorules a prio)
      (fun _ => Acc db tr pr cr (modV v a (fun p => p.setSaved prio (norules (p.savedCtx.get prio))))) :=
  norules_spec ha (fun hr => hr.savedCtx prio) (fun w => setSaved_self w prio)
    fun x => assignSaved_spec ha prio (peContextAlloc_spec x)

end Anoubis.Pe.Refs

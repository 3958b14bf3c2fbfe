import Anoubis.Pe.RefsOps
import Anoubis.Pe.Stale
import Mathlib.Data.List.Find

/-! The reference counts of processes and contexts, over whole runs.

    Between two events no handler holds a reference: a process has one reference, that of the tracker,
    and a context has as many as there are slots with its address. The values behind the addresses
    follow `Pe.Context`: sharing contexts by reference is sharing of values. -/

namespace Anoubis.Pe.Refs

open Function

open Anoubis.Apn Anoubis.Lib List

variable {db : PolicyDb} {tr : List ℕ} {pr cr : Multiset ℕ} {v : ℕ → Proc} {a : ℕ} {st : Store}

/-! ### References to processes -/

/-- Only the reference counts of processes change. -/
theorem Acc.refs (h : Acc db tr pr cr v st) {tr' : List ℕ} {pr' : Multiset ℕ} {procs : Cells HProc}
    (hn : tr'.Nodup) (hlive : liveProcs tr' pr' = liveProcs tr pr) (hc : procs.Counted (tr' + pr'))
    (hval : ∀ b ∈ liveProcs tr pr, procs.val b = st.procs.val b) :
    Acc db tr' pr' cr v { st with procs := procs, tracker := tr' } := by
  have hall : allSlots procs (liveProcs tr' pr') = allSlots st.procs (liveProcs tr pr) := by
    rw [hlive, allSlots_congr hval]
  refine ⟨rfl, hn, hc, by rw [hall]; exact h.ctxs, ?_, by rw [hlive]; exact h.freshProc,
    by rw [hall]; exact h.freshCtx, h.db, h.running⟩
  intro b hb
  rw [hlive] at hb
  obtain ⟨p, hp, hr⟩ := h.rep b hb
  exact ⟨p, (hval b hb).trans hp, hr⟩

theorem liveProcs_cons {tr : List ℕ} (ha : a ∈ tr) (pr : Multiset ℕ) : liveProcs tr (a ::ₘ pr) = liveProcs tr pr := by
  ext b
  rw [mem_liveProcs, mem_liveProcs, Multiset.mem_cons]
  constructor
  · rintro (h | rfl | h)
    · exact .inl h
    · exact .inl ha
    · exact .inr h
  · rintro (h | h)
    · exact .inl h
    · exact .inr (.inr h)

/-- The process that `pe_proc_get` finds. -/
def lookup (v : ℕ → Proc) (tr : List ℕ) (cookie : ℕ) : Option ℕ :=
  tr.find? (fun a => (v a).taskCookie = cookie)

theorem peProcGet_spec (cookie : ℕ) : Does (Acc db tr pr cr v) (peProcGet cookie)
      (fun r st => r = lookup v tr cookie ∧ Acc db tr (slot r + pr) cr v st) := by
  intro st h
  have hfind : st.tracker.find? (fun a => (st.procs.val a).any (fun p => p.taskCookie = cookie)) =
      lookup v tr cookie := by
    rw [h.tracker]
    refine find?_congr fun b hb => ?_
    obtain ⟨p, hp, hr⟩ := h.rep b (mem_liveProcs.mpr (.inl hb))
    rw [hp, Option.any_some, hr.taskCookie]
  change ∃ r s, peProcGet cookie st = some (r, s) ∧ _
  rw [peProcGet, hfind]
  cases hl : lookup v tr cookie with
  | none => exact ⟨none, st, rfl, rfl, by rwa [slot, zero_add]⟩
  | some a =>
    have ha : a ∈ tr := mem_of_find?_eq_some hl
    obtain ⟨procs, hrun, hc, hval⟩ := Cells.counted_reference h.procs (c := a)
      (Multiset.mem_add.mpr (.inl (Multiset.mem_coe.mpr ha)))
    refine ⟨some a, { st with procs := procs }, by simp only; rw [hrun]; rfl, rfl, ?_⟩
    rw [← Multiset.add_cons] at hc
    have hacc := h.refs h.nodup (liveProcs_cons ha pr) hc (fun b _ => congrFun hval b)
    rw [← h.tracker] at hacc ⊢
    exact hacc

theorem dropProc_run {r : Option HProc} {procs : Cells HProc} (h : st.procs.put a = some (r, procs)) :
    (dropProc a).run st = some (r, { st with procs := procs }) := by
  change Option.map _ (st.procs.put a) = _
  rw [h]
  rfl

/-- A tracked process is not freed. -/
theorem peProcPut_spec (ha : a ∈ tr) :
    Does (Acc db tr (a ::ₘ pr) cr v) (peProcPut (some a)) (fun _ => Acc db tr pr cr v) := by
  intro st h
  have hc := h.procs
  rw [Multiset.add_cons] at hc
  obtain ⟨r, procs, hput, hcount, hr, hval⟩ := Cells.counted_put hc
  have hmem : a ∈ (tr + pr : Multiset ℕ) := Multiset.mem_add.mpr (.inl (Multiset.mem_coe.mpr ha))
  rw [if_pos hmem] at hr
  subst hr
  refine ⟨(), { st with procs := procs }, ?_, ?_⟩
  · rw [peProcPut, run_bind (dropProc_run hput)]
    rfl
  · have hlive := liveProcs_cons ha pr
    have hacc := h.refs h.nodup hlive.symm hcount fun b hb => by
      rw [hlive] at hb
      exact hval b (Multiset.mem_toFinset.mp hb)
    rw [← h.tracker] at hacc ⊢
    exact hacc

theorem peProcPut_opt {q : Option ℕ} (hq : ∀ b, q = some b → b ∈ tr) :
    Does (Acc db tr (slot q + pr) cr v) (peProcPut q) (fun _ => Acc db tr pr cr v) := by
  cases q with
  | none => exact Does.pure fun st h => by rwa [slot, zero_add] at h
  | some b => exact peProcPut_spec (hq b rfl)

variable {cookie : ℕ} {f : Proc → Proc}

theorem mem_of_lookup {b : ℕ} (h : lookup v tr cookie = some b) : b ∈ tr :=
  mem_of_find?_eq_some h

/-- Look up and drop: nothing changes. -/
theorem probe_spec (cookie : ℕ) : Does (Acc db tr pr cr v) (probe cookie) (fun _ => Acc db tr pr cr v) := by
  refine (peProcGet_spec cookie).bind fun r => Does.pull fun hr => ?_
  subst hr
  exact peProcPut_opt fun _ => mem_of_lookup

theorem probes_spec (cookies : List ℕ) : Does (Acc db tr pr cr v) (cookies.forM probe) (fun _ => Acc db tr pr cr v) :=
  Does.forM (I := fun _ => Acc db tr pr cr v) fun _ cookie _ _ => probe_spec cookie

/-- Some contexts have been dropped, and `R` are the references that are left. -/
def Dropping (st₀ : Store) (R : Multiset ℕ) (st : Store) : Prop :=
  ∃ ctxs, st = { st₀ with ctxs := ctxs } ∧ ctxs.Counted R ∧ ∀ c ∈ R, ctxs.val c = st₀.ctxs.val c

theorem dropping_put (st₀ : Store) (o : Option ℕ) (R : Multiset ℕ) :
    Does (Dropping st₀ (slot o + R)) (peContextPut o) (fun _ => Dropping st₀ R) := by
  rintro _ ⟨ctxs, rfl, hc, hval⟩
  obtain ⟨ctxs', hrun, hc', hval'⟩ := @peContextPut_run o R { st₀ with ctxs := ctxs } hc
  refine ⟨(), _, hrun, ctxs', rfl, hc', fun c hm => (hval' c hm).trans (hval c ?_)⟩
  exact Multiset.mem_add.mpr (.inr hm)

/-- The contexts of a process that nobody refers to any more. -/
theorem putSlots_spec (st₀ : Store) (p : HProc) (R : Multiset ℕ) :
    Does (Dropping st₀ (p.slots + R)) (putSlots p) (fun _ => Dropping st₀ R) := by
  have hsum : p.slots + R = slot (p.context.get .admin) + (slot (p.savedCtx.get .admin) +
      (slot (p.context.get .user1) + (slot (p.savedCtx.get .user1) + R))) := by
    rw [HProc.slots]
    abel
  rw [hsum]
  exact Does.bind ((dropping_put st₀ _ _).bind fun _ => dropping_put st₀ _ _)
    fun _ => (dropping_put st₀ _ _).bind fun _ => dropping_put st₀ _ _

/-- The last reference: the process is freed, and no instance of it is left. -/
theorem peProcPut_last (hn : a ∉ tr) (hp : a ∉ pr) (hi : (v a).instances = 0) :
    Does (Acc db tr (a ::ₘ pr) cr v) (peProcPut (some a)) (fun _ => Acc db tr pr cr v) := by
  intro st h
  have ha : a ∈ liveProcs tr (a ::ₘ pr) := mem_liveProcs.mpr (.inr (Multiset.mem_cons_self a pr))
  obtain ⟨p, -, hpv, hr⟩ := h.shows ha
  have hc := h.procs
  rw [Multiset.add_cons] at hc
  obtain ⟨r, procs, hput, hcount, hlast, hval⟩ := Cells.counted_put hc
  have hmem : a ∉ (tr + pr : Multiset ℕ) := by simp [hn, hp]
  rw [if_neg hmem, hpv] at hlast
  subst hlast
  have hlive : (liveProcs tr (a ::ₘ pr)).erase a = liveProcs tr pr := by
    ext b
    rw [Finset.mem_erase, mem_liveProcs, mem_liveProcs, Multiset.mem_cons]
    constructor
    · rintro ⟨hne, hb | rfl | hb⟩
      · exact .inl hb
      · exact absurd rfl hne
      · exact .inr hb
    · rintro (hb | hb)
      · exact ⟨fun he => hn (he ▸ hb), .inl hb⟩
      · exact ⟨fun he => hp (he ▸ hb), .inr (.inr hb)⟩
  have hvals : ∀ b ∈ liveProcs tr pr, procs.val b = st.procs.val b :=
    fun b hb => hval b (Multiset.mem_toFinset.mp hb)
  have hall : allSlots st.procs (liveProcs tr (a ::ₘ pr)) = p.slots + allSlots procs (liveProcs tr pr) := by
    rw [allSlots_erase ha hpv, hlive, allSlots_congr hvals, add_comm]
  have hctxs := h.ctxs
  rw [hall, add_assoc] at hctxs
  obtain ⟨u, _, hrun, ctxs, rfl, hc', hval'⟩ := putSlots_spec { st with procs := procs } p
    (allSlots procs (liveProcs tr pr) + cr) { st with procs := procs }
    ⟨st.ctxs, rfl, hctxs, fun _ _ => rfl⟩
  have hinst : ¬ p.instances ≠ 0 := by
    rw [hr.instances, hi]
    simp
  refine ⟨(), { st with procs := procs, ctxs := ctxs }, ?_, h.tracker, h.nodup, hcount, hc', ?_, ?_, ?_,
    h.db, h.running⟩
  · rw [peProcPut, run_bind (dropProc_run hput)]
    simp only
    rw [if_neg hinst]
    exact hrun
  · intro b hb
    have hb' : b ∈ liveProcs tr (a ::ₘ pr) := Finset.mem_of_mem_erase (hlive ▸ hb)
    obtain ⟨q, hq, hrq⟩ := h.rep b hb'
    have hq' : procs.val b = some q := (hvals b hb).trans hq
    refine ⟨q, hq', hrq.congr fun c hcm => hval' c ?_⟩
    exact Multiset.mem_add.mpr (.inl (Multiset.mem_of_le (slots_le_allSlots hb hq') hcm))
  · intro b hb
    exact h.freshProc b (Finset.mem_of_mem_erase (hlive ▸ hb))
  · intro c hcm
    refine h.freshCtx c ?_
    rw [hall, add_assoc]
    exact Multiset.mem_add.mpr (.inr hcm)

/-- `pe_proc_untrack` of a process that the handler still refers to. -/
theorem peProcUntrack_spec (ha : a ∈ tr) :
    Does (Acc db tr (a ::ₘ pr) cr v) (peProcUntrack a) (fun _ => Acc db (tr.erase a) (a ::ₘ pr) cr v) := by
  intro st h
  have hsplit : (tr + a ::ₘ pr : Multiset ℕ) = a ::ₘ ((tr.erase a : List ℕ) + a ::ₘ pr) := by
    rw [← Multiset.cons_add, Multiset.cons_coe, Multiset.coe_eq_coe.mpr (perm_cons_erase ha).symm]
  have hc := h.procs
  rw [hsplit] at hc
  obtain ⟨r, procs, hput, hcount, hr, hval⟩ := Cells.counted_put hc
  have hmem : a ∈ ((tr.erase a : List ℕ) + a ::ₘ pr : Multiset ℕ) := by simp
  rw [if_pos hmem] at hr
  subst hr
  have hlive : liveProcs (tr.erase a) (a ::ₘ pr) = liveProcs tr (a ::ₘ pr) := by
    ext b
    rw [mem_liveProcs, mem_liveProcs, Multiset.mem_cons]
    by_cases hb : b = a
    · simp [hb]
    · rw [mem_erase_of_ne hb]
  have hacc := h.refs (h.nodup.erase a) hlive hcount fun b hb => by
    rw [← hlive] at hb
    exact hval b (Multiset.mem_toFinset.mp hb)
  refine ⟨(), { st with procs := procs, tracker := tr.erase a }, ?_, hacc⟩
  have hrun : (peProcPut (some a)).run { st with tracker := st.tracker.erase a } =
      some ((), { st with procs := procs, tracker := tr.erase a }) := by
    rw [peProcPut, run_bind (@dropProc_run a { st with tracker := st.tracker.erase a } none procs hput),
      h.tracker]
    rfl
  exact hrun

/-- A new process, with the handler's reference to it. -/
def freshProc (uid cookie pgid : ℕ) (ident : Ident) : Proc :=
  { newProc uid cookie pgid ident with instances := 0 }

theorem peProcAlloc_spec (uid cookie : ℕ) (ident : Ident) (pgid : ℕ) :
    Does (Acc db tr pr cr v) (peProcAlloc uid cookie ident pgid) (fun a st => a ∉ liveProcs tr pr ∧
        Acc db tr (a ::ₘ pr) cr (Function.update v a (freshProc uid cookie pgid ident)) st) := by
  intro st h
  have hn : st.nextProc ∉ liveProcs tr pr := fun hm => lt_irrefl _ (h.freshProc _ hm)
  have hn' : st.nextProc ∉ (tr + pr : Multiset ℕ) := fun hm => hn (Multiset.mem_toFinset.mpr hm)
  obtain ⟨hc, hself, hother⟩ := Cells.counted_new h.procs hn'
    (⟨cookie, uid, false, 0, 0, ident, pgid, ⟨0, 0⟩, ⟨none, none⟩, ⟨none, none⟩⟩ : HProc)
  have hlive : liveProcs tr (st.nextProc ::ₘ pr) = insert st.nextProc (liveProcs tr pr) := by
    ext b
    rw [Finset.mem_insert, mem_liveProcs, mem_liveProcs, Multiset.mem_cons, or_left_comm]
  have hall : allSlots (st.procs.new st.nextProc
      ⟨cookie, uid, false, 0, 0, ident, pgid, ⟨0, 0⟩, ⟨none, none⟩, ⟨none, none⟩⟩)
      (liveProcs tr (st.nextProc ::ₘ pr)) = allSlots st.procs (liveProcs tr pr) := by
    rw [hlive, allSlots, Finset.sum_insert hn, slotsAt_eq hself]
    have hrest := allSlots_congr fun b (hb : b ∈ liveProcs tr pr) => hother b fun he => hn (he ▸ hb)
    rw [allSlots] at hrest
    rw [hrest]
    exact zero_add _
  refine ⟨st.nextProc, _, rfl, hn, h.tracker, h.nodup, by rw [Multiset.add_cons]; exact hc,
    by rw [hall]; exact h.ctxs, ?_, ?_, by rw [hall]; exact h.freshCtx, h.db, h.running⟩
  · intro b hb
    rw [hlive, Finset.mem_insert] at hb
    rcases hb with rfl | hb
    · rw [update_self]
      refine ⟨_, hself, rfl, rfl, rfl, rfl, rfl, rfl, rfl, rfl, ?_, ?_⟩
      · intro prio
        cases prio <;> exact rfl
      · intro prio
        cases prio <;> exact rfl
    · have hne : b ≠ st.nextProc := fun he => hn (he ▸ hb)
      obtain ⟨p, hp, hr⟩ := h.rep b hb
      rw [update_of_ne hne]
      exact ⟨p, (hother b hne).trans hp, hr⟩
  · intro b hb
    rw [hlive, Finset.mem_insert] at hb
    rcases hb with rfl | hb
    · exact Nat.lt_succ_self _
    · exact (h.freshProc b hb).trans (Nat.lt_succ_self _)

/-- `pe_proc_track` of a new process. -/
theorem peProcTrack_spec (hn : a ∉ tr) (ha : a ∈ pr) : Does (Acc db tr pr cr v) (peProcTrack a)
      (fun _ => Acc db (tr ++ [a]) pr cr (modV v a (fun p => { p with instances := 1 }))) := by
  have hmem : a ∈ liveProcs tr pr := mem_liveProcs.mpr (.inr ha)
  refine (readProc_spec hmem).bind fun p => ?_
  have hone : ∀ ctxs, Rep ctxs p (v a) →
      Rep ctxs { p with instances := 1 } { v a with instances := 1 } :=
    fun ctxs hr => { hr with instances := rfl }
  refine Does.bind (writeProc_spec hmem rfl hone) fun _ => ?_
  intro st h
  obtain ⟨procs, hrun, hc, hval⟩ := Cells.counted_reference h.procs (c := a) (Multiset.mem_add.mpr (.inr ha))
  have hcount : procs.Counted (((tr ++ [a] : List ℕ) : Multiset ℕ) + pr) := by
    have he : ((tr ++ [a] : List ℕ) : Multiset ℕ) + pr = a ::ₘ (tr + pr) := by
      rw [← Multiset.coe_add, Multiset.coe_singleton, add_assoc, Multiset.singleton_add, Multiset.add_cons]
    rw [he]
    exact hc
  have hlive : liveProcs (tr ++ [a]) pr = liveProcs tr pr := by
    ext b
    rw [mem_liveProcs, mem_liveProcs, mem_append, mem_singleton]
    constructor
    · rintro ((hb | rfl) | hb)
      · exact .inl hb
      · exact .inr ha
      · exact .inr hb
    · rintro (hb | hb)
      · exact .inl (.inl hb)
      · exact .inr hb
  have hnd : (tr ++ [a]).Nodup := by
    rw [nodup_append]
    refine ⟨h.nodup, nodup_singleton a, fun x hx y hy => ?_⟩
    obtain rfl := mem_singleton.mp hy
    exact fun he => hn (he ▸ hx)
  have hacc := h.refs hnd hlive hcount (fun b _ => congrFun hval b)
  refine ⟨(), _, ?_, hacc⟩
  change Option.map _ (st.procs.reference a) = _
  rw [hrun, h.tracker]
  rfl

/-! ### Values -/

/-- The store between two events: no handler holds a reference, and the values are those of `ps`. -/
def Sim (ps : PeState) (st : Store) : Prop :=
  ∃ tr v, Acc ps.db tr 0 0 v st ∧ tr.map v = ps.tracker

theorem Does.sim {α : Type} {ps : PeState} {m : M α} {Q : α → Store → Prop}
    (h : ∀ tr v, tr.map v = ps.tracker → Does (Acc ps.db tr 0 0 v) m Q) : Does (Sim ps) m Q := by
  rintro st ⟨tr, v, hacc, hv⟩
  exact h tr v hv st hacc

theorem peProcGet_map (v : ℕ → Proc) (tr : List ℕ) (cookie : ℕ) :
    Pe.peProcGet cookie (tr.map v) = (lookup v tr cookie).map v := by
  rw [Pe.peProcGet, find?_map]
  rfl

theorem lookup_cons (v : ℕ → Proc) (b : ℕ) (tr : List ℕ) (cookie : ℕ) :
    lookup v (b :: tr) cookie = if (v b).taskCookie = cookie then some b else lookup v tr cookie := by
  rw [lookup, find?_cons]
  by_cases hb : (v b).taskCookie = cookie <;> simp [hb, lookup]

theorem map_modV_of_notMem (h : a ∉ tr) : tr.map (modV v a f) = tr.map v := by
  refine map_congr_left fun b hb => ?_
  have hne : b ≠ a := fun he => h (he ▸ hb)
  rw [modV, update_of_ne hne]

/-- A change of the process that was looked up. -/
theorem map_modV (hn : tr.Nodup) (hl : lookup v tr cookie = some a) (f : Proc → Proc) :
    tr.map (modV v a f) = modifyProc cookie f (tr.map v) := by
  induction tr with
  | nil => cases hl
  | cons b tr ih =>
    rw [lookup_cons] at hl
    rw [nodup_cons] at hn
    rw [map_cons, map_cons, modifyProc]
    by_cases hb : (v b).taskCookie = cookie
    · rw [if_pos hb] at hl ⊢
      cases hl
      rw [modV_self, map_modV_of_notMem hn.1]
    · rw [if_neg hb] at hl ⊢
      have hne : b ≠ a := fun he => hn.1 (he ▸ mem_of_lookup hl)
      rw [modV, update_of_ne hne, ← modV, ih hn.2 hl]

theorem modifyProc_of_none (hl : lookup v tr cookie = none) (f : Proc → Proc) :
    modifyProc cookie f (tr.map v) = tr.map v := by
  induction tr with
  | nil => rfl
  | cons b tr ih =>
    rw [lookup_cons] at hl
    rw [map_cons, modifyProc]
    by_cases hb : (v b).taskCookie = cookie
    · rw [if_pos hb] at hl
      cases hl
    · rw [if_neg hb] at hl ⊢
      rw [ih hl]

theorem map_erase (hl : lookup v tr cookie = some a) : (tr.erase a).map v = untrackProc cookie (tr.map v) := by
  induction tr with
  | nil => cases hl
  | cons b tr ih =>
    rw [lookup_cons] at hl
    rw [map_cons, untrackProc]
    by_cases hb : (v b).taskCookie = cookie
    · rw [if_pos hb] at hl ⊢
      cases hl
      rw [erase_cons_head]
    · rw [if_neg hb] at hl ⊢
      have hne : b ≠ a := by
        rintro rfl
        exact hb (by simpa using find?_some hl)
      rw [erase_cons_tail (by simpa using hne), map_cons, ih hl]

theorem sim_none {ps : PeState} (hv : tr.map v = ps.tracker) (hl : lookup v tr cookie = none)
    (h : Acc ps.db tr 0 0 v st) (f : Proc → Proc) : Sim (ps.modify cookie f) st := by
  refine ⟨tr, v, h, ?_⟩
  rw [PeState.modify, ← hv, modifyProc_of_none hl]

theorem sim_some {ps : PeState} (hv : tr.map v = ps.tracker) (hl : lookup v tr cookie = some a)
    (h : Acc ps.db tr 0 0 (modV v a f) st) : Sim (ps.modify cookie f) st := by
  refine ⟨tr, modV v a f, h, ?_⟩
  rw [PeState.modify, ← hv, map_modV h.nodup hl]

/-- The reference of a handler to the process that it looked up. -/
theorem live_single (ha : a ∈ tr) (pr : Multiset ℕ) : a ∈ liveProcs tr pr := mem_liveProcs.mpr (.inl ha)

/-- A handler that looks a process up, changes it and drops it. -/
theorem handler_spec {ps : PeState} {m : Option ℕ → M Unit} (body : ℕ → M Unit) (hnone : m none = pure ())
    (hsome : ∀ a, m (some a) = (do body a; peProcPut (some a)))
    (hbody : ∀ tr v a, tr.map v = ps.tracker → lookup v tr cookie = some a →
      Does (Acc ps.db tr (a ::ₘ 0) 0 v) (body a) (fun _ => Acc ps.db tr (a ::ₘ 0) 0 (modV v a f))) :
    Does (Sim ps) (peProcGet cookie >>= m) (fun _ => Sim (ps.modify cookie f)) := by
  refine Does.sim fun tr v hv => (peProcGet_spec cookie).bind fun r => Does.pull fun hr => ?_
  cases r with
  | none =>
    rw [hnone]
    exact Does.pure fun st h => sim_none hv hr.symm (by simpa [slot] using h) f
  | some a =>
    rw [hsome]
    have hpr : slot (some a) + 0 = a ::ₘ 0 := rfl
    rw [hpr]
    refine (hbody tr v a hv hr.symm).bind fun _ => ?_
    exact (peProcPut_spec (mem_of_lookup hr.symm)).post fun _ st h => sim_some hv hr.symm h

/-! ### Handlers -/

section

variable {ps : PeState}

theorem addinstance_sim (cookie : ℕ) : Does (Sim ps) (peProcAddinstance cookie)
      (fun _ => Sim (ps.modify cookie (fun p => { p with instances := p.instances + 1 }))) := by
  refine handler_spec (fun a => do
    let p ← readProc a
    writeProc a { p with instances := p.instances + 1 }) rfl (fun a => ?_) fun tr v a _ hl => ?_
  · simp only [bind_assoc]
  · refine modify_spec (live_single (mem_of_lookup hl) _) (fun _ => rfl) fun ctxs p hr => ?_
    exact { hr with instances := by simp [hr.instances] }

theorem addThread_sim (cookie : ℕ) : Does (Sim ps) (peProcAddThread cookie)
      (fun _ => Sim (ps.modify cookie (fun p => { p with threads := p.threads + 1 }))) := by
  refine handler_spec (fun a => do
    let p ← readProc a
    writeProc a { p with threads := p.threads + 1 }) rfl (fun a => ?_) fun tr v a _ hl => ?_
  · simp only [bind_assoc]
  · refine modify_spec (live_single (mem_of_lookup hl) _) (fun _ => rfl) fun ctxs p hr => ?_
    exact { hr with threads := by rw [hr.threads] }

theorem removeThread_sim (cookie : ℕ) (upgraded : List ℕ) : Does (Sim ps) (peProcRemoveThread cookie upgraded)
      (fun _ => Sim (ps.modify cookie (fun p => { p with threads := p.threads - 1 }))) := by
  refine handler_spec (fun a => do
    let p ← readProc a
    writeProc a { p with threads := p.threads - 1 }
    upgraded.forM probe) rfl (fun a => ?_) fun tr v a _ hl => ?_
  · simp only [bind_assoc]
  · have hmod : Does (Acc ps.db tr (a ::ₘ 0) 0 v) (do
          let p ← readProc a
          writeProc a { p with threads := p.threads - 1 })
        (fun _ => Acc ps.db tr (a ::ₘ 0) 0 (modV v a (fun p => { p with threads := p.threads - 1 }))) :=
      modify_spec (live_single (mem_of_lookup hl) _) (fun _ => rfl) fun ctxs p hr =>
        { hr with threads := by rw [hr.threads] }
    have hall := hmod.bind fun _ => probes_spec upgraded
    simpa only [bind_assoc] using hall

theorem sfs_sim (w : World) (cookie msgUid : ℕ) (ident : Option Ident) (exec : Option (ℕ × Ident)) :
    Does (Sim ps) (peHandleSfs w cookie msgUid ident exec)
      (fun _ => Sim (ps.modify cookie (fun p => match ident with
        | none => p
        | some pident => Pe.peContextOpen w ps.db p msgUid pident))) := by
  refine handler_spec (fun a => do
    openCtx w a msgUid ident
    flagExec w a exec) rfl (fun a => ?_) fun tr v a _ hl => ?_
  · simp only [bind_assoc]
  · have ha : a ∈ liveProcs tr (a ::ₘ 0) := live_single (mem_of_lookup hl) _
    have hflag : ∀ v, Does (Acc ps.db tr (a ::ₘ 0) 0 v) (flagExec w a exec)
        (fun _ => Acc ps.db tr (a ::ₘ 0) 0 v) := by
      intro v
      cases exec with
      | none => exact Does.pure fun _ h => h
      | some e => exact (peProcFlagTransition_spec w ha e.1 e.2).bind fun _ => Does.pure fun _ h => h
    cases ident with
    | none =>
      refine Does.bind (R := fun _ => Acc ps.db tr (a ::ₘ 0) 0 v) (Does.pure fun _ h => h) fun _ => ?_
      refine (hflag v).post fun _ st h => ?_
      rw [modV_eq_self rfl]
      exact h
    | some pident => exact (peContextOpen_spec w ha msgUid pident).bind fun _ => hflag _

theorem disconnect_sim (source conn : ℕ) : Does (Sim ps) (peIpcDestroy source conn)
      (fun _ => Sim (ps.modify source (fun p => Pe.peContextRestore p conn))) :=
  handler_spec (fun a => peContextRestore a conn) rfl (fun _ => rfl) fun _ _ _ _ hl =>
    peContextRestore_spec (live_single (mem_of_lookup hl) _) conn

theorem playground_sim (w : World) (cookie pgid : ℕ) :
    Does (Sim ps) (peHandlePlaygroundproc w cookie pgid)
      (fun _ => Sim (ps.modify cookie (fun p =>
        Prio.all.foldl (Pe.peContextRefresh w ps.db) { p with pgid := pgid }))) := by
  refine handler_spec (fun a => do
    let p ← readProc a
    writeProc a { p with pgid := pgid }
    forPrio (peContextRefresh w a)) rfl (fun a => ?_) fun tr v a _ hl => ?_
  · simp only [bind_assoc]
  · have ha : a ∈ liveProcs tr (a ::ₘ 0) := live_single (mem_of_lookup hl) _
    have hmod : Does (Acc ps.db tr (a ::ₘ 0) 0 v) (do
          let p ← readProc a
          writeProc a { p with pgid := pgid })
        (fun _ => Acc ps.db tr (a ::ₘ 0) 0 (modV v a (fun p => { p with pgid := pgid }))) :=
      modify_spec ha (fun _ => rfl) fun ctxs p hr => { hr with pgid := rfl }
    have hall := Does.modV_bind (n := fun _ => forPrio (peContextRefresh w a)) hmod
      (forPrio_spec fun prio _ => peContextRefresh_spec w ha prio) fun (_ : Unit) _ h => h
    simp only [bind_assoc] at hall
    exact hall

theorem probe_sim (cookie : ℕ) : Does (Sim ps) (probe cookie) (fun _ => Sim ps) :=
  Does.sim fun tr v hv => (probe_spec cookie).post fun _ _ h => ⟨tr, v, h, hv⟩

theorem sfspath_sim (cookie : ℕ) (upgraded : List ℕ) :
    Does (Sim ps) (do
        let proc ← peProcGet cookie
        upgraded.forM probe
        peProcPut proc) (fun _ => Sim ps) := by
  refine Does.sim fun tr v hv => (peProcGet_spec cookie).bind fun r => Does.pull fun hr => ?_
  subst hr
  refine (probes_spec upgraded).bind fun _ => ?_
  exact (peProcPut_opt fun _ => mem_of_lookup).post fun _ _ h => ⟨tr, v, h, hv⟩

theorem exit_sim (cookie : ℕ) (upgraded : List ℕ) (hi : ∀ p ∈ ps.tracker, 1 ≤ p.instances) :
    Does (Sim ps) (peProcExit cookie upgraded) (fun _ => Sim (Pe.peProcExit ps cookie)) := by
  refine Does.sim fun tr v hv => (peProcGet_spec cookie).bind fun r => Does.pull fun hr => ?_
  have hget : Pe.peProcGet cookie ps.tracker = r.map v := by rw [← hv, peProcGet_map, hr]
  cases r with
  | none =>
    refine Does.pure fun st h => ?_
    rw [Pe.peProcExit, hget]
    exact ⟨tr, v, by simpa [slot] using h, hv⟩
  | some a =>
    have ha : a ∈ tr := mem_of_lookup hr.symm
    have hone : 1 ≤ (v a).instances := hi _ (hv ▸ mem_map_of_mem ha)
    have hlive : a ∈ liveProcs tr (a ::ₘ 0) := live_single ha _
    change Does (Acc ps.db tr (a ::ₘ 0) 0 v) _ _
    refine (readProc_spec hlive).bind fun p => ?_
    intro st hs
    have hp : p.instances = (v a).instances := hs.2.2.instances
    have hdec : ∀ ctxs, Rep ctxs p (v a) → Rep ctxs { p with instances := p.instances - 1 }
        { v a with instances := (v a).instances - 1 } := by
      intro ctxs hrep
      exact { hrep with instances := by simp only [hp]; omega }
    have hw : Does (Shows ps.db tr (a ::ₘ 0) 0 v a p) (writeProc a { p with instances := p.instances - 1 })
        (fun _ => Acc ps.db tr (a ::ₘ 0) 0
          (modV v a (fun p => { p with instances := p.instances - 1 }))) :=
      writeProc_spec hlive rfl hdec
    by_cases h1 : (v a).instances = 1
    · have hlast : ¬ p.instances - 1 ≠ 0 := by omega
      rw [if_neg hlast]
      have hnot : a ∉ tr.erase a := fun hm => (hs.1.nodup.mem_erase_iff.mp hm).1 rfl
      refine Does.bind hw (fun _ => ?_) st hs
      refine (peProcUntrack_spec ha).bind fun _ => ?_
      refine (probes_spec upgraded).bind fun _ => ?_
      refine (peProcPut_last hnot (by simp) ?_).post fun _ st h => ?_
      · rw [modV_self, h1]
      · have hexit : Pe.peProcExit ps cookie = ⟨untrackProc cookie ps.tracker, ps.db⟩ := by
          rw [Pe.peProcExit, hget]
          simp only [Option.map_some]
          rw [if_neg (by omega)]
        rw [hexit]
        exact ⟨tr.erase a, _, h, by rw [map_modV_of_notMem hnot, map_erase hr.symm, hv]⟩
    · have hmore : p.instances - 1 ≠ 0 := by omega
      rw [if_pos hmore]
      refine Does.bind hw (fun _ => ?_) st hs
      refine (peProcPut_spec ha).post fun _ st h => ?_
      have hsim := sim_some (f := fun p => { p with instances := p.instances - 1 }) hv hr.symm h
      rw [Pe.peProcExit, hget]
      simp only [Option.map_some]
      rw [if_pos h1]
      exact hsim

theorem connect_sim (w : World) (source dest conn : ℕ) : Does (Sim ps) (peIpcConnect w source dest conn)
      (fun _ => Sim (step w ps (.connect source dest conn))) := by
  refine Does.sim fun tr v hv => (peProcGet_spec source).bind fun r => Does.pull fun hr => ?_
  have hget : Pe.peProcGet source ps.tracker = r.map v := by rw [← hv, peProcGet_map, hr]
  cases r with
  | none =>
    refine Does.pure fun st h => ?_
    rw [step, hget]
    exact ⟨tr, v, by simpa [slot] using h, hv⟩
  | some s =>
    have hs : s ∈ tr := mem_of_lookup hr.symm
    have hstep : step w ps (.connect source dest conn) =
        ps.modify dest (fun procp => Pe.peContextBorrow w ps.db (v s) procp conn) := by
      rw [step, hget]
      rfl
    rw [hstep]
    refine (peProcGet_spec dest).bind fun r' => Does.pull fun hr' => ?_
    cases r' with
    | none =>
      refine Does.pre (P := Acc ps.db tr (s ::ₘ 0) 0 v) ?_ fun st h => by simpa [slot] using h
      exact (peProcPut_spec hs).post fun _ st h => sim_none hv hr'.symm h _
    | some d =>
      have hd : d ∈ tr := mem_of_lookup hr'.symm
      refine (peContextBorrow_spec w (live_single hs _) (live_single hd _) conn).bind fun _ => ?_
      refine Does.bind (R := fun _ => Acc ps.db tr (d ::ₘ 0) 0 _) ?_ fun _ =>
        (peProcPut_spec hd).post fun _ st h => sim_some hv hr'.symm h
      refine (peProcPut_spec hs).pre fun st h => ?_
      have hpr : slot (some d) + (slot (some s) + 0) = s ::ₘ d ::ₘ 0 := Multiset.cons_swap d s 0
      rwa [hpr] at h

/-- The values behind a tracked new process. -/
theorem map_append_update {tr : List ℕ} (hn : a ∉ tr) (p : Proc) :
    (tr ++ [a]).map (Function.update v a p) = tr.map v ++ [p] := by
  rw [map_append, map_singleton, update_self]
  congr 1
  refine map_congr_left fun b hb => ?_
  have hne : b ≠ a := fun he => hn (he ▸ hb)
  rw [update_of_ne hne]

/-- Allocate a process, track it and go on with it. -/
theorem allocTrack_spec {α : Type} (uid cookie : ℕ) (ident : Ident) (pgid : ℕ) {m : ℕ → M α}
    {Q : α → Store → Prop}
    (hm : ∀ a, a ∉ liveProcs tr pr → Does (Acc db (tr ++ [a]) (a ::ₘ pr) cr
      (Function.update v a (newProc uid cookie pgid ident))) (m a) Q) :
    Does (Acc db tr pr cr v) (do
        let a ← peProcAlloc uid cookie ident pgid
        peProcTrack a
        m a) Q := by
  refine (peProcAlloc_spec uid cookie ident pgid).bind fun a => Does.pull fun hn => ?_
  have htr : a ∉ tr := fun hmem => hn (live_single hmem pr)
  refine (peProcTrack_spec htr (Multiset.mem_cons_self a pr)).bind fun _ => (hm a hn).pre fun st h => ?_
  rw [modV, update_idem, update_self] at h
  exact h

theorem getOrTrack_spec (uid cookie pgid : ℕ) :
    Does (Acc db tr 0 0 v) (getOrTrack uid cookie pgid)
      (fun a st => ∃ tr' v', Acc db tr' (a ::ₘ 0) 0 v' st ∧ lookup v' tr' cookie = some a ∧
        tr'.map v' = match Pe.peProcGet cookie (tr.map v) with
          | none => tr.map v ++ [newProc uid cookie pgid noIdent]
          | some _ => tr.map v) := by
  refine (peProcGet_spec cookie).bind fun r => Does.pull fun hr => ?_
  rw [peProcGet_map, ← hr]
  cases r with
  | some a => exact Does.pure fun st h => ⟨tr, v, h, hr.symm, rfl⟩
  | none =>
    refine Does.pre (P := Acc db tr 0 0 v) ?_ fun st h => by simpa [slot] using h
    refine allocTrack_spec uid cookie noIdent pgid fun a hfresh => Does.pure fun st hacc => ?_
    have hn : a ∉ tr := fun hm => hfresh (live_single hm 0)
    refine ⟨tr ++ [a], _, hacc, ?_, map_append_update hn _⟩
    -- nobody before has the cookie
    have hnone : tr.find? (fun b => ((Function.update v a (newProc uid cookie pgid noIdent)) b).taskCookie =
        cookie) = none := by
      rw [find?_eq_none]
      intro b hb
      have hne : b ≠ a := fun he => hn (he ▸ hb)
      rw [update_of_ne hne]
      exact find?_eq_none.mp hr.symm b hb
    rw [lookup, find?_append, hnone]
    simp [newProc]

theorem setSecure_spec (ha : a ∈ liveProcs tr pr) (secure : Bool) :
    Does (Acc db tr pr cr v) (do
        let p ← readProc a
        writeProc a { p with secureexec := secure })
      (fun _ => Acc db tr pr cr (modV v a (fun p => { p with secureexec := secure }))) :=
  modify_spec ha (fun _ => rfl) fun _ _ hr => { hr with secureexec := rfl }

theorem exec_sim (w : World) (cookie uid : ℕ) (ident : Ident) (pgid : ℕ) (secure : Bool) :
    Does (Sim ps) (peProcExec w cookie uid ident pgid secure)
      (fun _ => Sim (Pe.peProcExec w ps cookie uid ident pgid secure)) := by
  refine Does.sim fun tr v hv => (getOrTrack_spec uid cookie pgid).bind fun a => ?_
  rintro st ⟨tr', v', h, hl, htr⟩
  have ha : a ∈ tr' := mem_of_lookup hl
  have hlive : a ∈ liveProcs tr' (a ::ₘ 0) := live_single ha _
  have hall : Does (Acc ps.db tr' (a ::ₘ 0) 0 v') (do
        let p ← readProc a
        writeProc a { p with ident := ident }
        peContextExec w a uid ident
        let p ← readProc a
        writeProc a { p with secureexec := secure }
        peProcPut (some a))
      (fun _ => Acc ps.db tr' 0 0 (modV v' a (execProc w ps.db uid ident secure))) := by
    have hident : Does (Acc ps.db tr' (a ::ₘ 0) 0 v') (do
          let p ← readProc a
          writeProc a { p with ident := ident })
        (fun _ => Acc ps.db tr' (a ::ₘ 0) 0 (modV v' a (fun p => { p with ident := ident }))) :=
      modify_spec hlive (fun _ => rfl) fun ctxs p hr => { hr with ident := rfl }
    have hexec := hident.bind fun _ => ((peContextExec_spec w hlive uid ident).bind fun _ =>
      (setSecure_spec hlive secure).bind fun _ => peProcPut_spec ha)
    simp only [bind_assoc, modV_modV] at hexec
    exact hexec
  obtain ⟨u, st', hrun, hacc⟩ := hall st h
  refine ⟨u, st', hrun, tr', _, hacc, ?_⟩
  rw [map_modV h.nodup hl, htr, hv]
  rfl

variable {q : Option ℕ}

theorem procIdent_spec (hq : ∀ b, q = some b → b ∈ liveProcs tr pr) : Does (Acc db tr pr cr v) (procIdent q)
      (fun i st => i = ((q.map v).map (·.ident)).getD noIdent ∧ Acc db tr pr cr v st) := by
  cases q with
  | none => exact Does.pure fun st h => ⟨rfl, h⟩
  | some b =>
    refine (readProc_spec (hq b rfl)).bind fun p => Does.pure ?_
    rintro st ⟨h, -, hr⟩
    exact ⟨hr.ident, h⟩

theorem procSecure_spec (hq : ∀ b, q = some b → b ∈ liveProcs tr pr) : Does (Acc db tr pr cr v) (procSecure q)
      (fun s st => s = (q.map v).any (·.secureexec) ∧ Acc db tr pr cr v st) := by
  cases q with
  | none => exact Does.pure fun st h => ⟨rfl, h⟩
  | some b =>
    refine (readProc_spec (hq b rfl)).bind fun p => Does.pure ?_
    rintro st ⟨h, -, hr⟩
    exact ⟨hr.secureexec, h⟩

theorem map_update_of_ne (hq : ∀ b, q = some b → b ≠ a) (p : Proc) : q.map (Function.update v a p) = q.map v := by
  cases q with
  | none => rfl
  | some b => rw [Option.map_some, Option.map_some, update_of_ne (hq b rfl)]

/-- The end of `pe_proc_fork`: both references are dropped. -/
theorem forkEnd_spec (ha : a ∈ tr) (hq : ∀ b, q = some b → b ∈ tr) (secure : Bool) :
    Does (Acc db tr (a ::ₘ (slot q + 0)) cr v) (do
        let p ← readProc a
        writeProc a { p with secureexec := secure }
        peProcPut q
        peProcPut (some a))
      (fun _ => Acc db tr 0 cr (modV v a (fun p => { p with secureexec := secure }))) := by
  have hpr : a ::ₘ (slot q + 0) = slot q + (a ::ₘ 0) := by rw [Multiset.add_cons]
  rw [hpr]
  have hall : Does (Acc db tr (slot q + (a ::ₘ 0)) cr v) _ _ :=
    (setSecure_spec (live_single ha _) secure).bind fun _ =>
      (peProcPut_opt hq).bind fun _ => peProcPut_spec ha
  simp only [bind_assoc] at hall
  exact hall

theorem fork_sim (w : World) (uid child parentCookie pgid : ℕ) :
    Does (Sim ps) (peProcFork w uid child parentCookie pgid)
      (fun _ => Sim (Pe.peProcFork w ps uid child parentCookie pgid)) := by
  refine Does.sim fun tr v hv => (peProcGet_spec parentCookie).bind fun q => Does.pull fun hq => ?_
  have hqt : ∀ b, q = some b → b ∈ tr := fun b hb => mem_of_lookup (hq ▸ hb)
  have hget : Pe.peProcGet parentCookie ps.tracker = q.map v := by rw [← hv, peProcGet_map, hq]
  refine (procIdent_spec fun b hb => live_single (hqt b hb) _).bind fun i => Does.pull fun hi => ?_
  subst hi
  refine allocTrack_spec uid child _ pgid fun a hfresh => ?_
  have hn : a ∉ tr := fun hm => hfresh (live_single hm _)
  have hne : ∀ b, q = some b → b ≠ a := fun b hb he => hn (he ▸ hqt b hb)
  have ha : a ∈ tr ++ [a] := by simp
  have hqt' : ∀ b, q = some b → b ∈ tr ++ [a] := fun b hb => mem_append_left _ (hqt b hb)
  refine (peContextFork_spec w (live_single ha _) fun b hb =>
    ⟨live_single (hqt' b hb) _, hne b hb⟩).bind fun _ => ?_
  refine (procSecure_spec fun b hb => live_single (hqt' b hb) _).bind fun secure => Does.pull fun hs => ?_
  refine (forkEnd_spec ha hqt' secure).post fun _ st h => ⟨tr ++ [a], _, h, ?_⟩
  rw [modV_modV, modV, update_self, update_idem, map_append_update hn, hv, hs,
    map_update_of_ne hne, modV, update_self, update_idem, map_update_of_ne hne,
    Pe.peProcFork, hget]

/-! ### Installing a policy -/

/-- One process in `pe_proc_update_db_one`, on values. -/
def updateV (w : World) (db : PolicyDb) (oldrs : Option Ruleset) (prio : Prio) (uid : ℕ) (p : Proc) : Proc :=
  if selected oldrs prio uid p then Pe.peContextRefresh w db p prio else p

theorem updateOne_spec (w : World) (ha : a ∈ liveProcs tr pr) (oldrs : Option Ruleset) (prio : Prio) (uid : ℕ) :
    Does (Acc db tr pr cr v) (updateOne w oldrs prio uid a)
      (fun _ => Acc db tr pr cr (modV v a (updateV w db oldrs prio uid))) := by
  refine (readProc_spec ha).bind fun p => ?_
  rintro st ⟨h, -, hr⟩
  refine Does.bind (curCtx_spec ha prio) (fun x => Does.pull fun hx => ?_) st h
  subst hx
  cases hc : (v a).context.get prio with
  | none =>
    refine Does.pure fun st h => ?_
    rw [modV_eq_self]
    · exact h
    · simp [updateV, selected, hc]
  | some x =>
    rw [hr.uid]
    refine Does.ite (fun hd => ?_) (fun hd => Does.pure fun st h => ?_)
    · refine (peContextRefresh_spec w ha prio).post fun _ st h => ?_
      rw [modV] at h ⊢
      have hsel : selected oldrs prio uid (v a) = true := by simpa [selected, hc] using hd
      rw [updateV, if_pos hsel]
      exact h
    · rw [modV_eq_self]
      · exact h
      · have hsel : ¬ selected oldrs prio uid (v a) = true := by simpa [selected, hc] using hd
        rw [updateV, if_neg hsel]

/-- The loop over the tracker. -/
theorem updates_spec (w : World) (oldrs : Option Ruleset) (prio : Prio) (uid : ℕ) :
    Does (Acc db tr 0 0 v) (tr.forM (updateOne w oldrs prio uid))
      (fun _ st => ∃ v', Acc db tr 0 0 v' st ∧ tr.map v' = (tr.map v).map (updateV w db oldrs prio uid)) := by
  -- the processes that have been visited are updated, the others are as before
  have hloop := @Does.forM Store ℕ
    (fun pre st => Acc db tr 0 0 (fun b => if b ∈ pre then updateV w db oldrs prio uid (v b) else v b) st)
    (updateOne w oldrs prio uid) tr ?_
  · refine hloop.mono (fun st h => by simpa using h) fun _ st h => ⟨_, h, ?_⟩
    rw [map_map]
    refine map_congr_left fun b hb => ?_
    simp [hb]
  · intro pre b post htr
    have hb : b ∈ tr := by simp [htr]
    intro st h
    have hnd := h.nodup
    rw [htr, nodup_append] at hnd
    have hpre : b ∉ pre := fun hm => hnd.2.2 b hm b mem_cons_self rfl
    obtain ⟨u, st', hrun, hacc⟩ := updateOne_spec w (live_single hb 0) oldrs prio uid st h
    refine ⟨u, st', hrun, ?_⟩
    convert hacc using 1
    funext c
    by_cases hcb : c = b
    · subst hcb
      rw [modV_self]
      simp [hpre]
    · rw [modV, update_of_ne hcb]
      simp [hcb]

theorem upload_sim (w : World) (rs : Ruleset) (uid : ℕ) (prio : Prio) :
    Does (Sim ps) (peUserInsertRs w rs uid prio) (fun _ => Sim (Pe.peUserInsertRs w ps rs uid prio)) := by
  refine Does.sim fun tr v hv => readDb_spec.bind fun d => Does.pull fun hd => ?_
  subst hd
  refine Does.bind (R := fun _ => Acc (insertRs rs uid prio ps.db) tr 0 0 v) ?_ fun _ => ?_
  · intro st h
    exact ⟨(), _, rfl, { h with db := by rw [← h.db] }⟩
  · refine Does.bind (R := fun l st => l = tr ∧ Acc (insertRs rs uid prio ps.db) tr 0 0 v st) ?_
      fun l => Does.pull fun hl => ?_
    · intro st h
      exact ⟨_, st, rfl, h.tracker, h⟩
    · subst hl
      refine (updates_spec w (storedRuleset uid prio ps.db) prio uid).post fun _ st h => ?_
      obtain ⟨v', hacc, hv'⟩ := h
      refine ⟨l, v', hacc, ?_⟩
      rw [hv', hv]
      rfl

end

/-! ### Runs -/

/-- The event on values; events that only read have none. -/
def HEvent.value : HEvent → Option Event
  | .fork uid child parent pgid => some (.fork uid child parent pgid)
  | .exec cookie uid ident pgid secure => some (.exec cookie uid ident pgid secure)
  | .exit cookie _ => some (.exit cookie)
  | .replace keep gone _ => some (.replace keep gone)
  | .create cookie => some (.create cookie)
  | .destroy cookie _ => some (.destroy cookie)
  | .sfs cookie msgUid ident _ => ident.map (.openFile cookie msgUid)
  | .sfspath _ _ => none
  | .alf _ => none
  | .connect source dest conn => some (.connect source dest conn)
  | .disconnect source conn => some (.disconnect source conn)
  | .playgroundAsk _ => none
  | .playgroundProc cookie pgid => some (.playground cookie pgid)
  | .playgroundScan _ => none
  | .upload rs uid prio => some (.upload rs uid prio)

def valueStep (w : World) (ps : PeState) (e : HEvent) : PeState := e.value.elim ps (step w ps)

/-- Every tracked process has an instance. -/
def Instances (ps : PeState) : Prop := ∀ p ∈ ps.tracker, 1 ≤ p.instances

theorem modify_id {ps : PeState} (cookie : ℕ) : ps.modify cookie (fun p => p) = ps := by
  have hid : ∀ l : List Proc, modifyProc cookie (fun p => p) l = l := by
    intro l
    induction l with
    | nil => rfl
    | cons p l ih =>
      rw [modifyProc, ih]
      split <;> rfl
  rw [PeState.modify, hid]

theorem instances_modify {ps : PeState} (h : Instances ps) (cookie : ℕ)
    (hf : ∀ p, 1 ≤ p.instances → 1 ≤ (f p).instances) : Instances (ps.modify cookie f) := by
  intro p hp
  rcases mem_modifyProc hp with hp | ⟨q, hq, rfl⟩
  · exact h p hp
  · exact hf q (h q (mem_of_peProcGet hq))

section

variable (w : World) (p : Proc) (prio : Prio)

@[simp] theorem instances_switch (pident : Ident) (uid : ℕ) :
    (Pe.peContextSwitch w db p prio pident uid).instances = p.instances := by
  rw [Pe.peContextSwitch]
  split <;> rfl

@[simp] theorem instances_refresh : (Pe.peContextRefresh w db p prio).instances = p.instances := by
  rw [Pe.peContextRefresh]
  split
  · rfl
  · simp only
    split <;> rfl

@[simp] theorem instances_setSaved (c : Option Ctx) : (p.setSaved prio c).instances = p.instances := rfl

@[simp] theorem instances_setContext (c : Option Ctx) : (p.setContext prio c).instances = p.instances := rfl

@[simp] theorem instances_execPrio (uid : ℕ) (pident : Ident) :
    (Pe.execPrio w db uid pident p prio).instances = p.instances := by
  rw [Pe.execPrio]
  split <;> simp

@[simp] theorem instances_forkPrio (parent : Option Proc) :
    (Pe.forkPrio w db parent p prio).instances = p.instances := by
  rw [Pe.forkPrio]
  split <;> simp

@[simp] theorem instances_openPrio (msgUid : ℕ) (pident : Ident) :
    (Pe.openPrio w db msgUid pident p prio).instances = p.instances := by
  rw [Pe.openPrio]
  split <;> simp

@[simp] theorem instances_saveCtx (cookie : ℕ) : (Pe.peProcSaveCtx p prio cookie).instances = p.instances := by
  rw [Pe.peProcSaveCtx]
  split <;> rfl

@[simp] theorem instances_borrowPrio (proc : Proc) (cookie : ℕ) :
    (Pe.borrowPrio w db proc cookie p prio).instances = p.instances := by
  rw [Pe.borrowPrio]
  split <;> simp

@[simp] theorem instances_restoreCtx (cookie : ℕ) : (Pe.peProcRestoreCtx cookie p prio).instances = p.instances := by
  rw [Pe.peProcRestoreCtx]
  split
  · rfl
  · split <;> rfl

end

theorem instances_exit {ps : PeState} (h : Instances ps) (cookie : ℕ) : Instances (Pe.peProcExit ps cookie) := by
  rw [Pe.peProcExit]
  cases hg : Pe.peProcGet cookie ps.tracker with
  | none => exact h
  | some q =>
    have hq := h q (mem_of_peProcGet hg)
    simp only
    split
    · intro p hp
      rcases mem_modifyProc hp with hp | ⟨q', hq', rfl⟩
      · exact h p hp
      · cases hg.symm.trans hq'
        simp only
        omega
    · exact fun p hp => h p (mem_untrackProc hp)

/-- Every event leaves an instance for every tracked process. -/
theorem instances_step (w : World) {ps : PeState} (h : Instances ps) (e : Event) : Instances (step w ps e) := by
  cases e with
  | fork uid child parent pgid =>
    intro p hp
    rcases mem_append.mp hp with hp | hp
    · exact h p hp
    · obtain rfl := mem_singleton.mp hp
      simp [Pe.peContextFork, Prio.all, newProc]
  | exec cookie uid ident pgid secure =>
    have hexec : ∀ p : Proc, (execProc w ps.db uid ident secure p).instances = p.instances := by
      intro p
      simp only [execProc, Pe.peContextExec, Prio.all, foldl_cons, foldl_nil]
      split <;> simp
    have htr : ∀ q ∈ (match Pe.peProcGet cookie ps.tracker with
        | none => ps.tracker ++ [newProc uid cookie pgid noIdent]
        | some _ => ps.tracker), 1 ≤ q.instances := by
      intro q hq
      split at hq
      · rcases mem_append.mp hq with hq | hq
        · exact h q hq
        · obtain rfl := mem_singleton.mp hq
          exact le_rfl
      · exact h q hq
    intro p hp
    rcases mem_modifyProc hp with hp | ⟨q, hq, rfl⟩
    · exact htr p hp
    · rw [hexec]
      exact htr q (mem_of_peProcGet hq)
  | exit cookie => exact instances_exit h cookie
  | replace keep gone =>
    exact instances_exit (instances_modify h keep fun p hp => by simp only; omega) gone
  | create cookie => exact instances_modify h cookie fun p hp => hp
  | destroy cookie => exact instances_modify h cookie fun p hp => hp
  | openFile cookie msgUid ident =>
    exact instances_modify h cookie fun p hp => by simpa [Pe.peContextOpen, Prio.all] using hp
  | connect source dest conn =>
    rw [step]
    split
    · exact h
    · exact instances_modify h dest fun p hp => by simpa [Pe.peContextBorrow, Prio.all] using hp
  | disconnect source conn =>
    exact instances_modify h source fun p hp => by simpa [Pe.peContextRestore, Prio.all] using hp
  | playground cookie pgid =>
    exact instances_modify h cookie fun p hp => by simpa [Prio.all] using hp
  | upload rs uid prio =>
    intro p hp
    obtain ⟨q, hq, rfl⟩ := mem_map.mp hp
    split
    · simpa using h q hq
    · exact h q hq

/-- Every event takes a store in order to a store in order, and follows the values. -/
theorem dispatch_sim (w : World) {ps : PeState} (hi : Instances ps) (e : HEvent) :
    Does (Sim ps) (dispatch w e) (fun _ => Sim (valueStep w ps e)) := by
  cases e with
  | fork uid child parent pgid => exact fork_sim w uid child parent pgid
  | exec cookie uid ident pgid secure => exact exec_sim w cookie uid ident pgid secure
  | exit cookie upgraded => exact exit_sim cookie upgraded hi
  | replace keep gone upgraded =>
    refine (addinstance_sim keep).bind fun _ => exit_sim gone upgraded ?_
    exact instances_modify hi keep fun p hp => by simp only; omega
  | create cookie => exact addThread_sim cookie
  | destroy cookie upgraded => exact removeThread_sim cookie upgraded
  | sfs cookie msgUid ident exec =>
    cases ident with
    | none =>
      have h : Does (Sim ps) (peHandleSfs w cookie msgUid none exec)
          (fun _ => Sim (ps.modify cookie (fun p => p))) := sfs_sim w cookie msgUid none exec
      rw [modify_id] at h
      exact h
    | some pident => exact sfs_sim w cookie msgUid (some pident) exec
  | sfspath cookie upgraded => exact sfspath_sim cookie upgraded
  | alf cookie => exact probe_sim cookie
  | connect source dest conn => exact connect_sim w source dest conn
  | disconnect source conn => exact disconnect_sim source conn
  | playgroundAsk cookie => exact probe_sim cookie
  | playgroundProc cookie pgid => exact playground_sim w cookie pgid
  | playgroundScan cookie => exact probe_sim cookie
  | upload rs uid prio => exact upload_sim w rs uid prio

theorem instances_valueStep (w : World) {ps : PeState} (h : Instances ps) (e : HEvent) :
    Instances (valueStep w ps e) := by
  rw [valueStep]
  cases e.value with
  | none => exact h
  | some e => exact instances_step w h e

/-- The run of values behind a run of the store. -/
def valueRun (ps : PeState) : List (World × HEvent) → PeState
  | [] => ps
  | (w, e) :: es => valueRun (valueStep w ps e) es

theorem runEvents_sim (es : List (World × HEvent)) :
    ∀ {ps : PeState}, Instances ps →
      Does (Sim ps) (runEvents es) (fun _ st => Sim (valueRun ps es) st ∧ Instances (valueRun ps es)) := by
  induction es with
  | nil =>
    intro ps hi
    exact Does.pure fun st h => ⟨h, hi⟩
  | cons e es ih =>
    intro ps hi
    exact (dispatch_sim e.1 hi e.2).bind fun _ => ih (instances_valueStep e.1 hi e.2)

theorem sim_init (db : PolicyDb) : Sim ⟨[], db⟩ (Store.init db) := by
  refine ⟨[], fun _ => newProc 0 0 0 noIdent, ⟨rfl, nodup_nil, ?_, ?_, ?_, ?_, ?_, rfl, rfl⟩, rfl⟩
  · intro c
    refine ⟨fun x hx => ?_, fun _ => ?_⟩
    · cases hx
    · simp
  · intro c
    refine ⟨fun x hx => ?_, fun _ => ?_⟩
    · cases hx
    · simp [allSlots, liveProcs]
  · intro a ha
    simp [liveProcs] at ha
  · intro a ha
    simp [liveProcs] at ha
  · intro c hc
    simp [allSlots, liveProcs] at hc

/-! ### Accounts between two events -/

/-- The number of slots of tracked processes with this context. -/
def slotCount (st : Store) (c : ℕ) : ℕ :=
  (st.tracker.map (fun a => (slotsAt st.procs a).count c)).sum

/-- The accounts between two events: `master_terminate` was not called, the tracker holds the only
    reference to a process and every process in memory is tracked, and a context is in memory as long
    as a slot of a tracked process holds it. -/
structure Balanced (st : Store) : Prop where
  running : st.terminated = false
  procs : ∀ a ∈ st.tracker, ∃ x, st.procs a = some x ∧ x.refcount = 1 ∧ 1 ≤ x.val.instances
  noOther : ∀ a, (st.procs a).isSome → a ∈ st.tracker
  ctxs : ∀ c x, st.ctxs c = some x → x.refcount = slotCount st c
  freed : ∀ c, st.ctxs c = none ↔ slotCount st c = 0

theorem slotCount_eq {ps : PeState} {tr : List ℕ} {v : ℕ → Proc} {st : Store} (h : Acc ps.db tr 0 0 v st) (c : ℕ) :
    slotCount st c = (allSlots st.procs (liveProcs tr 0) + 0).count c := by
  have hlive : liveProcs tr 0 = tr.toFinset := by
    ext a
    simp [mem_liveProcs]
  rw [slotCount, h.tracker, add_zero, hlive, allSlots, Multiset.count_sum', sum_toFinset _ h.nodup]

theorem balanced_of_sim {ps : PeState} {st : Store} (h : Sim ps st) (hi : Instances ps) : Balanced st := by
  obtain ⟨tr, v, hacc, hv⟩ := h
  have hcount : ∀ a ∈ tr, (tr + 0 : Multiset ℕ).count a = 1 := by
    intro a ha
    rw [add_zero, Multiset.coe_count]
    exact count_eq_one_of_mem hacc.nodup ha
  refine ⟨hacc.running, ?_, ?_, ?_, ?_⟩
  · intro a ha
    rw [hacc.tracker] at ha
    obtain ⟨p, hp, hr⟩ := hacc.rep a (mem_liveProcs.mpr (.inl ha))
    obtain ⟨x, hx, rfl⟩ := Option.map_eq_some_iff.mp hp
    refine ⟨x, hx, ?_, ?_⟩
    · rw [((hacc.procs a).1 x hx).1, hcount a ha]
      rfl
    · rw [hr.instances]
      exact_mod_cast hi (v a) (hv ▸ mem_map_of_mem ha)
  · intro a ha
    rw [hacc.tracker]
    have hmem := hacc.procs.isSome_iff.mp ha
    rwa [add_zero, Multiset.mem_coe] at hmem
  · intro c x hx
    rw [slotCount_eq hacc]
    exact ((hacc.ctxs c).1 x hx).1
  · intro c
    rw [slotCount_eq hacc, Multiset.count_eq_zero, ← hacc.ctxs.isSome_iff,
      Bool.not_eq_true, Option.isSome_eq_false_iff, Option.isNone_iff_eq_none]

/-- Every run of events from the start ends (no event reads freed memory), and the accounts are right
    afterwards. The start of a run is a run, so they are right after each of its events. -/
theorem refs_accounted (db : PolicyDb) (es : List (World × HEvent)) :
    ∃ st, (runEvents es).run (Store.init db) = some ((), st) ∧ Balanced st := by
  have hi : Instances ⟨[], db⟩ := fun p hp => by cases hp
  obtain ⟨_, st, hrun, hsim, hinst⟩ := runEvents_sim es hi (Store.init db) (sim_init db)
  exact ⟨st, hrun, balanced_of_sim hsim hinst⟩

end Anoubis.Pe.Refs

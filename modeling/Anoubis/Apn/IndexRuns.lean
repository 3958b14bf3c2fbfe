import Anoubis.Apn.Complete

/-! The ID index from the parser to the last operation.

    While a text is parsed, the index holds the rules with explicit IDs. `apn_assign_ids` adds the
    others, and from then on index and queues agree:

        Explicit --add block--> Explicit --assign IDs--> IndexOk --operation--> IndexOk

    IDs beyond 32 bit break this, a block that cannot be printed under APN_FLAG_VERBOSE breaks it, and
    so does the linear search of `apn_assign_id` if it comes to the ID 0. -/

namespace Anoubis.Apn

open Anoubis.Lib Anoubis.Lib.Syn List

/-! ### While the text is parsed -/

/-- Enter the entries with an ID. -/
theorem Inv.insertAll {new : List IdEntry} : ∀ {ix : Index} {es : List IdEntry}, Inv ix es →
    (nonzero (new.map (·.key))).Nodup → (∀ e ∈ new, e.key ≠ 0 → e.key ∉ es.map (·.key)) →
    (∀ e ∈ new, e.key < uintMod) → (new.map (·.data) ++ es.map (·.data)).Nodup →
    Inv (new.foldl (fun ix e => if e.key ≠ 0 then apnInsertId ix e.key e.data else ix) ix)
      (keeps (fun id => id = 0) new ++ es) := by
  induction new with
  | nil => intro ix es h _ _ _ _; exact h
  | cons e new ih =>
    intro ix es h hnd hfree hb hdata
    have hb' : ∀ x ∈ new, x.key < uintMod := fun x hx => hb x (mem_cons_of_mem _ hx)
    rw [map_cons, cons_append, nodup_cons] at hdata
    rw [foldl_cons]
    by_cases h0 : e.key = 0
    · rw [if_neg (by simpa using h0)]
      have hk : keeps (fun id => id = 0) (e :: new) = keeps (fun id => id = 0) new := by
        simp [keeps, h0]
      rw [hk]
      refine ih h ?_ (fun x hx => hfree x (mem_cons_of_mem _ hx)) hb' hdata.2
      simpa [nonzero, h0] using hnd
    · rw [if_pos h0]
      have hk : keeps (fun id => id = 0) (e :: new) = e :: keeps (fun id => id = 0) new := by
        simp [keeps, h0]
      have hnd' : e.key ∉ nonzero (new.map (·.key)) ∧ (nonzero (new.map (·.key))).Nodup := by
        simpa [nonzero, h0] using hnd
      have hfree0 : rbFind ix.idtree e.key = none := by
        rw [rbFind_eq_none_iff, h.mem_keys]
        exact hfree e mem_cons_self h0
      have hinv := h.insertId hfree0 ⟨Nat.pos_of_ne_zero h0, hb e mem_cons_self⟩
        (fun hmem => hdata.1 (mem_append_right _ hmem))
      rw [hk]
      refine (ih hinv hnd'.2 ?_ hb' ?_).of_perm perm_middle
      · intro x hx hx0 hmem
        rw [map_cons, mem_cons] at hmem
        rcases hmem with heq | hmem
        · refine hnd'.1 ?_
          rw [nonzero, mem_filter]
          exact ⟨by rw [← heq]; exact mem_map_of_mem hx, by simpa using h0⟩
        · exact hfree x (mem_cons_of_mem _ hx) hx0 hmem
      · exact nodup_middle.mpr (nodup_cons.mpr hdata)

/-- The index holds the rules with explicit IDs; all rules are at addresses that were handed out. -/
structure Explicit (addr : ℕ → ℕ) (s : PState) : Prop where
  index : ∀ rnd, Inv ⟨s.rs.idtree, s.rs.maxid, rnd⟩ (keeps (fun id => id = 0) s.rs.entries)
  ptrs : s.rs.ptrs.Nodup
  handed : ∀ p ∈ s.rs.ptrs, ∃ j < s.next, p = addr j

theorem map_key_entries (b : Block) : b.entries.map (·.key) = b.id :: b.chain.map (·.id) := by
  rw [Block.entries, map_cons, map_map]
  rfl

variable {b : Block} {bs : List Block} {rnd : Rand} {i : Input} {st : Statics}

theorem mem_explicit_iff {id : ℕ} : id ∈ b.explicit ↔ id ≠ 0 ∧ ∃ e ∈ b.entries, e.key = id := by
  rw [Block.explicit, nonzero, mem_filter, ← map_key_entries, mem_map]
  simp [and_comm]

theorem map_data_entries (b : Block) : b.entries.map (·.data) = b.ptrs := by
  rw [Block.entries, map_cons, map_data_entry, Block.ptrs]

variable {e : Env} {s s' : PState}

/-- A block with 32 bit IDs at new addresses. -/
theorem Explicit.added (haddr : Function.Injective e.addr) (h : Explicit e.addr s) (hb : Added e s b s')
    (hids : ∀ id ∈ b.explicit, id < uintMod) : Explicit e.addr s' := by
  obtain ⟨hnd, hvalid, heq⟩ := apnAddBlockCommon_added hb.added
  have hptrs : b.ptrs.Perm ((List.range' s.next (b.chain.length + 1)).map e.addr) := by
    have hswap : ([e.addr (s.next + b.chain.length)] ++ (List.range' s.next b.chain.length).map e.addr).Perm
        ((List.range' s.next b.chain.length).map e.addr ++ [e.addr (s.next + b.chain.length)]) :=
      perm_append_comm
    rw [hb.ptrs, range'_concat, map_append]
    simpa using hswap
  have hmem : ∀ p ∈ b.ptrs, ∃ j, s.next ≤ j ∧ j < s'.next ∧ p = e.addr j := by
    intro p hp
    obtain ⟨j, hj, rfl⟩ := mem_map.mp (hptrs.mem_iff.mp hp)
    rw [mem_range'_1] at hj
    exact ⟨j, hj.1, by rw [hb.next]; omega, rfl⟩
  have hfresh : (b.entries.map (·.data) ++ s.rs.ptrs).Nodup := by
    rw [map_data_entries, nodup_append]
    refine ⟨?_, h.ptrs, ?_⟩
    · rw [hptrs.nodup_iff]
      exact (nodup_range' ..).map haddr
    · rintro p hp q hq rfl
      obtain ⟨j, hj, -, rfl⟩ := hmem p hp
      obtain ⟨j', hj', heq'⟩ := h.handed _ hq
      have := haddr heq'
      omega
  have hentries : s'.rs.entries.Perm (b.entries ++ s.rs.entries) := by
    have hq : (queueEntries (s.rs.queue b.kind ++ [b])).Perm
        (b.entries ++ queueEntries (s.rs.queue b.kind)) := by
      refine (queueEntries_perm perm_append_comm).trans ?_
      exact .refl _
    rw [heq]
    refine (@entries_setQueue _ _ _ b.entries ?_).trans (.refl _)
    cases hk : b.kind <;> rw [hk] at hq <;> exact hq
  have hkeep : ∀ sel, (keeps sel s'.rs.entries).Perm (keeps sel b.entries ++ keeps sel s.rs.entries) := by
    intro sel
    have hp := hentries.filter (fun e => !sel e.key)
    rwa [filter_append] at hp
  have hkeys : (nonzero (b.entries.map (·.key))).Nodup := by
    rwa [map_key_entries]
  have hfree : ∀ x ∈ b.entries, x.key ≠ 0 →
      x.key ∉ (keeps (fun id => id = 0) s.rs.entries).map (·.key) := by
    intro x hx h0
    have hx' := mem_explicit_iff.mpr ⟨h0, x, hx, rfl⟩
    have hv := hvalid x.key hx'
    rw [apnValidId, Nat.mod_eq_of_lt (hids _ hx'), Option.isNone_iff_eq_none, rbFind_eq_none_iff] at hv
    rwa [← (h.index ⟨fun _ => 0, 0⟩).mem_keys]
  have hsmall : ∀ x ∈ b.entries, x.key < uintMod := by
    intro x hx
    by_cases h0 : x.key = 0
    · rw [h0]
      decide
    · exact hids _ (mem_explicit_iff.mpr ⟨h0, x, hx, rfl⟩)
  have hdatas : (b.entries.map (·.data) ++
      (keeps (fun id => id = 0) s.rs.entries).map (·.data)).Nodup :=
    hfresh.sublist ((filter_sublist.map _).append_left _)
  refine ⟨fun rnd => ?_, ?_, ?_⟩
  · have hinv := @Inv.insertAll b.entries _ _ (h.index ⟨fun _ => 0, 0⟩) hkeys hfree hsmall hdatas
    refine Inv.of_perm ?_ (hkeep _).symm
    rw [heq]
    cases b.kind <;> exact ⟨hinv.perm, hinv.keys, hinv.datas, hinv.bound, hinv.maxid⟩
  · rw [Ruleset.ptrs, (hentries.map _).nodup_iff, map_append]
    exact hfresh
  · intro p hp
    rw [Ruleset.ptrs, (hentries.map _).mem_iff, map_append, mem_append] at hp
    rcases hp with hp | hp
    · rw [map_data_entries] at hp
      obtain ⟨j, -, hj, rfl⟩ := hmem p hp
      exact ⟨j, hj, rfl⟩
    · obtain ⟨j, hj, rfl⟩ := h.handed p hp
      exact ⟨j, by rw [hb.next]; omega, rfl⟩

/-- The blocks of a text with 32 bit IDs. -/
theorem Explicit.adds (haddr : Function.Injective e.addr) (hs : Adds e s bs s') :
    Explicit e.addr s → (∀ id ∈ bs.flatMap Block.explicit, id < uintMod) → Explicit e.addr s' := by
  induction hs with
  | nil s => intro h _; exact h
  | cons hb _ ih =>
    intro h hids
    rw [flatMap_cons] at hids
    refine ih (h.added haddr hb fun id hid => hids id (mem_append_left _ hid)) ?_
    exact fun id hid => hids id (mem_append_right _ hid)

theorem explicit_start (addr : ℕ → ℕ) (flags v : ℕ) :
    Explicit addr ((start flags).withVersion v) where
  index := fun rnd => by
    refine ⟨.refl _, nodup_nil, nodup_nil, fun e he => (by cases he), ?_⟩
    exact ⟨Nat.one_pos, show 1 < uintMod by decide⟩
  ptrs := nodup_nil
  handed := fun p hp => by cases hp

/-! ### The assignment of IDs -/

/-- Every assignment for the blocks of a queue goes well. -/
def QueueOk : Index → List Block → Prop
  | _, [] => True
  | ix, b :: q => BlockOk (fun id => id = 0) ix b ∧
      ∀ b' ix', apnAssignIdsOne ix b = some (b', ix') → QueueOk ix' q

theorem keeps_append (sel : ℕ → Bool) (es es' : List IdEntry) :
    keeps sel (es ++ es') = keeps sel es ++ keeps sel es' := filter_append ..

/-- `apn_assign_ids_chain`: afterwards all rules of the queue are in the index. -/
theorem Inv.assignQueue {q : List Block} : ∀ {ix : Index} {es : List IdEntry},
    Inv ix (keeps (fun id => id = 0) (queueEntries q) ++ es) → QueueOk ix q →
    ((queueEntries q).map (·.data) ++ es.map (·.data)).Nodup →
    ∃ q' ix', apnAssignIdsChain ix q = some (q', ix') ∧ Inv ix' (queueEntries q' ++ es) ∧
      (queueEntries q').map (·.data) = (queueEntries q).map (·.data) := by
  induction q with
  | nil => intro ix es h _ _; exact ⟨[], ix, rfl, h, rfl⟩
  | cons b q ih =>
    intro ix es h hok hnd
    rw [queueEntries_cons, keeps_append, append_assoc] at h
    rw [queueEntries_cons, map_append, map_data_entries, append_assoc] at hnd
    have hsub : (b.ptrs ++ (keeps (fun id => id = 0) (queueEntries q) ++ es).map (·.data)).Sublist
        (b.ptrs ++ ((queueEntries q).map (·.data) ++ es.map (·.data))) := by
      rw [map_append]
      exact ((filter_sublist.map _).append_right _).append_left _
    obtain ⟨b', ix₁, hb, hinv, hptrs, -⟩ := h.assignBlock hok.1 (hnd.sublist hsub)
    have hinv₁ : Inv ix₁ (keeps (fun id => id = 0) (queueEntries q) ++ (b'.entries ++ es)) := by
      refine hinv.of_perm ?_
      rw [← append_assoc, ← append_assoc]
      exact perm_append_comm.append_right es
    have hnd₁ : ((queueEntries q).map (·.data) ++ (b'.entries ++ es).map (·.data)).Nodup := by
      rw [map_append, map_data_entries, hptrs, ← append_assoc]
      refine ((perm_append_comm.append_right _).nodup_iff).mp ?_
      rwa [append_assoc]
    obtain ⟨q', ix', hq, hinv', hptrs'⟩ := ih hinv₁ (hok.2 b' ix₁ hb) hnd₁
    refine ⟨b' :: q', ix', ?_, ?_, ?_⟩
    · rw [apnAssignIdsChain, apnAssignIdsOne, hb]
      simp [hq]
    · rw [queueEntries_cons]
      refine hinv'.of_perm ?_
      rw [← append_assoc]
      exact perm_append_comm.append_right es
    · rw [queueEntries_cons, queueEntries_cons, map_append, map_append, map_data_entries,
        map_data_entries, hptrs, hptrs']

theorem apnAssignIdsChain_append {q₂ : List Block} : ∀ {q₁ : List Block} {ix ix' : Index}
    {q : List Block}, apnAssignIdsChain ix (q₁ ++ q₂) = some (q, ix') →
    ∃ a b ix₁, apnAssignIdsChain ix q₁ = some (a, ix₁) ∧ apnAssignIdsChain ix₁ q₂ = some (b, ix') ∧ q = a ++ b := by
  intro q₁
  induction q₁ with
  | nil => intro ix ix' q h; exact ⟨[], q, ix, rfl, h, rfl⟩
  | cons b₁ q₁ ih =>
    intro ix ix' q h
    obtain ⟨⟨b', ix₁⟩, hb, h⟩ := Option.bind_eq_some_iff.mp h
    obtain ⟨⟨q', ix₂⟩, hq, h⟩ := Option.bind_eq_some_iff.mp h
    cases h
    obtain ⟨a, b, ix₃, ha, hb', rfl⟩ := ih hq
    exact ⟨b' :: a, b, ix₃, by rw [apnAssignIdsChain, hb]; simp [ha], hb', rfl⟩

/-- The queues in the order in which they get their IDs. -/
def Ruleset.allBlocks (rs : Ruleset) : List Block :=
  rs.alfQueue ++ (rs.sfsQueue ++ (rs.sbQueue ++ rs.ctxQueue))

theorem entries_eq_allBlocks (rs : Ruleset) : rs.entries = queueEntries rs.allBlocks := by
  simp [Ruleset.entries, Ruleset.allBlocks, queueEntries]

/-- `apn_assign_ids`: afterwards index and queues agree. -/
theorem apnAssignIds_ok {s : RsState} (h : Inv s.index (keeps (fun id => id = 0) s.rs.entries))
    (hnd : s.rs.ptrs.Nodup) (hok : QueueOk s.index s.rs.allBlocks) :
    ∃ s', apnAssignIds s = some s' ∧ IndexOk s' ∧ s'.rs.ptrs = s.rs.ptrs := by
  rw [entries_eq_allBlocks] at h
  rw [Ruleset.ptrs, entries_eq_allBlocks] at hnd
  obtain ⟨q', ix', hq, hinv, hptrs⟩ := @Inv.assignQueue s.rs.allBlocks s.index []
    (by rwa [append_nil]) hok (by simpa using hnd)
  obtain ⟨alf, q₁, ix₁, h1, hq₁, rfl⟩ := apnAssignIdsChain_append hq
  obtain ⟨sfs, q₂, ix₂, h2, hq₂, rfl⟩ := apnAssignIdsChain_append hq₁
  obtain ⟨sb, ctx, ix₃, h3, h4, rfl⟩ := apnAssignIdsChain_append hq₂
  refine ⟨_, by rw [apnAssignIds, h1]; simp [h2, h3, h4]; rfl, ?_, ?_⟩
  · rw [IndexOk, entries_eq_allBlocks]
    rw [append_nil] at hinv
    exact hinv
  · rw [Ruleset.ptrs, Ruleset.ptrs, entries_eq_allBlocks, entries_eq_allBlocks]
    exact hptrs

/-! ### Accepted texts -/

/-- Every assignment behind `yyparse` goes well; `ptr` is the address of the SFS block. -/
def FinishOk (s : RsState) (ptr : ℕ) : Prop :=
  QueueOk s.index s.rs.allBlocks ∧ ∀ s₁, apnAssignIds s = some s₁ → s₁.rs.sfsQueue = [] →
    BlockOk (fun _ => true) s₁.index (emptySfs ptr)

theorem finishParse_ok {addr : ℕ → ℕ} (haddr : Function.Injective addr) {p : PState} (h : Explicit addr p)
    (hok : FinishOk ⟨p.rs, rnd⟩ (addr p.next)) {ret : ℤ} {s : RsState}
    (hf : finishParse true ⟨p.rs, rnd⟩ (addr p.next) = some (ret, s)) (hret : ret = 0) : IndexOk s := by
  rw [finishParse] at hf
  obtain ⟨s₁, hs₁, hok₁, hptrs⟩ := @apnAssignIds_ok ⟨p.rs, rnd⟩ (h.index rnd) h.ptrs hok.1
  obtain ⟨s₁', hs₁', hf⟩ := Option.bind_eq_some_iff.mp hf
  rw [hs₁] at hs₁'
  cases hs₁'
  obtain ⟨⟨ret', s₂⟩, hi, hf⟩ := Option.bind_eq_some_iff.mp hf
  cases hf
  rw [if_pos hret]
  rw [initIfOk, if_pos rfl, initSfsRule] at hi
  split at hi
  · cases hi
    exact hok₁
  · rename_i hsfs
    have hfresh : BlockFresh s₁.rs (emptySfs (addr p.next)) := by
      have hnew : addr p.next ∉ s₁.rs.ptrs := by
        rw [hptrs]
        intro hmem
        obtain ⟨j, hj, heq⟩ := h.handed _ hmem
        have := haddr heq
        omega
      exact nodup_cons.mpr ⟨hnew, hok₁.datas⟩
    obtain ⟨ret'', s₃, hs₃, hok₃⟩ := @apnInsert_ok (emptySfs (addr p.next)) s₁ 0 hok₁ hfresh
      (fun _ => hok.2 s₁ hs₁ (by simpa using hsfs))
    rw [emptySfs, hi] at hs₃
    cases hs₃
    exact hok₃

/-- The IDs of a text are fine: those in the text have 32 bit, no block was refused because it could not
    be printed, and those that are assigned are found. -/
structure IdsOk (i : Input) (st : Statics) (rnd : Rand) : Prop where
  narrow : ∀ id ∈ ids (inputTokens i st), id < uintMod
  printed : i.flags &&& flagVerbose ≠ 0 → stopsSilently i st = false
  assigned : FinishOk ⟨(parsed i st).rs, randAt i st rnd⟩ (i.addr (parsed i st).next)

theorem Added.flags (h : Added e s b s') : s'.rs.flags = s.rs.flags := by
  obtain ⟨-, -, heq⟩ := apnAddBlockCommon_added h.added
  rw [heq]
  cases b.kind <;> rfl

theorem Adds.flags (h : Adds e s bs s') : s'.rs.flags = s.rs.flags := by
  induction h with
  | nil s => rfl
  | cons hb _ ih => rw [ih, hb.flags]

/-- After an accepted text the index holds the rules with explicit IDs. -/
theorem parsed_explicit (haddr : Function.Injective i.addr) (herrs : (parsed i st).errs = [])
    (hids : IdsOk i st rnd) :
    ∃ p : PState, (parsed i st).rs = p.rs ∧ (parsed i st).next = p.next ∧ Explicit i.addr p := by
  have hstart : PolicyRead (inputEnv i st) (start i.flags) [] (start i.flags) [] :=
    ⟨(start i.flags).rs.version, Adds.nil _, rfl⟩
  have hscan : Scanned (inputTokens i st) := tokens_scanned _ _
  -- the IDs of the tokens that were read are IDs of the text
  have hnarrow : ∀ {ts rest : List Tok}, inputTokens i st = ts ++ rest → ∀ id ∈ nonzero (ids ts),
      id < uintMod := by
    intro ts rest heq id hid
    refine hids.narrow id ?_
    rw [heq]
    exact (ids_sublist ts rest).subset (mem_of_mem_filter hid)
  rcases run_of_parsed herrs with ⟨bs, s, rest, hrun, hrs, hnext⟩ | ⟨s, unread, hrun, hrs, hnext⟩
  case inl =>
    obtain ⟨ts, hts, hd⟩ := Syn.sound _ hrun
    obtain ⟨v, hr⟩ := (holds_policy (inputEnv i st) (start i.flags)).ok
      (scanned_hereditary.left (by rwa [← hts])) hstart hd
    refine ⟨s, hrs, hnext, Explicit.adds haddr hr.adds (explicit_start _ _ _) ?_⟩
    intro id hid
    refine hnarrow hts id ?_
    have heq := hr.ids
    rw [nil_append] at heq
    rw [heq]
    exact mem_append_left _ hid
  case inr =>
    obtain ⟨ts, rest, hts, ha⟩ := Syn.quiet _ hrun
    obtain ⟨v, bs, s₁, b, hadds, -, href, hpre⟩ := (holds_policy (inputEnv i st) (start i.flags)).stop
      (scanned_hereditary.left (by rwa [← hts])) hstart ha
    rw [nil_append] at hpre
    have hex : Explicit i.addr s₁ := by
      refine Explicit.adds haddr hadds (explicit_start _ _ _) fun id hid => hnarrow hts id ?_
      rw [hpre]
      exact mem_append_left _ hid
    cases href with
    | duplicate => exact ⟨s, hrs, hnext, hex⟩
    | unprintable _ hu =>
      have hflags := (apnAddBlockCommon_unprintable hu).1
      rw [hadds.flags] at hflags
      have hsilent := hids.printed hflags
      rw [stopsSilently, hrun] at hsilent
      cases hsilent

/-! ### Runs -/

/-- Index and queues of a ruleset: all rules have distinct IDs other than 0, the index has exactly one
    entry for each of them, and `apn_find_rule` finds them by their ID. -/
structure Indexed (rs : Ruleset) : Prop where
  distinct : (rs.entries.map (·.key)).Nodup
  nonzero : ∀ e ∈ rs.entries, e.key ≠ 0
  index : rs.idtree.Perm rs.entries
  find : ∀ id < uintMod, ∀ p, apnFindRule rs.idtree id = some p ↔ ∃ e ∈ rs.entries, e.key = id ∧ e.data = p

theorem IndexOk.indexed {s : RsState} (h : IndexOk s) : Indexed s.rs where
  distinct := h.keys
  nonzero := fun e he => Nat.pos_iff_ne_zero.mp (h.bound e he).1
  index := h.perm
  find := by
    intro id hid p
    rw [apnFindRule, Nat.mod_eq_of_lt hid, Option.map_eq_some_iff]
    constructor
    · rintro ⟨e, he, rfl⟩
      obtain ⟨h1, h2⟩ := (Inv.find_eq_some_iff h).mp he
      exact ⟨e, h1, h2, rfl⟩
    · rintro ⟨e, he, hk, rfl⟩
      exact ⟨e, (Inv.find_eq_some_iff h).mpr ⟨he, hk⟩, rfl⟩

theorem accepted_indexOk {r : ParseResult} (haddr : Function.Injective i.addr) (h : apnParse i st rnd = some r)
    (hr : r.ret = 0) (hids : IdsOk i st rnd) : IndexOk ⟨r.rs, r.rnd⟩ := by
  have herrs := (apnParse_outcome h).no_errors hr
  obtain ⟨p, hrs, hnext, hex⟩ := parsed_explicit haddr herrs hids
  obtain ⟨st', r₁, hst, h1, rfl⟩ := apnParse_eq h
  have hfinish := hids.assigned
  rw [hrs, hnext] at hfinish
  rw [apnParse1, hst] at h1
  obtain ⟨⟨ret, s⟩, hf, h1⟩ := Option.bind_eq_some_iff.mp h1
  cases h1
  rw [parsed] at herrs hrs hnext
  rw [herrs, hrs, hnext] at hf
  have hret : ret = 0 := by
    rw [ParseResult.converted] at hr
    split at hr <;> exact hr
  have hok := finishParse_ok haddr hex hfinish hf hret
  rw [ParseResult.converted, if_pos hret]
  exact hok

/-- From an accepted text with 32 bit IDs on, through any sequence of operations whose assignments go
    well, index and queues agree. -/
theorem index_invariant {i : Input} {st : Statics} {rnd : Rand} {r : ParseResult} {ops : List Op}
    (haddr : Function.Injective i.addr) (h : apnParse i st rnd = some r) (hr : r.ret = 0)
    (hids : IdsOk i st rnd) (hops : OpsOk ⟨r.rs, r.rnd⟩ ops) :
    ∃ s, applyOps ⟨r.rs, r.rnd⟩ ops = some s ∧ Indexed s.rs := by
  obtain ⟨s, hs, hok⟩ := applyOps_ok (accepted_indexOk haddr h hr hids) hops
  exact ⟨s, hs, hok.indexed⟩

/-- A sandbox block and a rule with IDs; the SFS block gets one. -/
def numberedText : String := "sb \x7b\n7: any \x7b\n8: default deny\n\x7d\n\x7d\n"

/-- The ruleset that `yyparse` makes of it. -/
def numberedRules : Ruleset :=
  { emptyRuleset 0 with
    maxid := 10
    idtree := [⟨8, 0⟩, ⟨7, 1⟩]
    sbQueue := [⟨1, 7, .sb, [], Flags.none, [⟨0, 8, none, .default ⟨.deny, .none⟩⟩]⟩] }

/-- The text is parsed, and the rule is removed. -/
theorem index_invariant_numbered : ∃ r s,
    apnParse (plain numberedText) Statics.init zeros = some r ∧ r.ret = 0 ∧
      applyOps ⟨r.rs, r.rnd⟩ [.remove 8] = some s ∧ Indexed s.rs := by
  have h : (apnParse (plain numberedText) Statics.init zeros).map (·.ret) = some 0 := by decide +kernel
  obtain ⟨r, hr, hret⟩ := Option.map_eq_some_iff.mp h
  have hrs : (parsed (plain numberedText) Statics.init).rs = numberedRules := by decide +kernel
  have hd : decides (plain numberedText) Statics.init = .current := by decide +kernel
  have hids : IdsOk (plain numberedText) Statics.init zeros := by
    refine ⟨by decide +kernel, fun hv => absurd rfl hv, ?_⟩
    rw [hrs, randAt, hd]
    refine ⟨⟨⟨trivial, fun _ _ _ hsel => ?_⟩, fun _ _ _ => trivial⟩, fun s₁ hs₁ _ => ?_⟩
    · cases hsel
    · obtain rfl : (⟨numberedRules, zeros⟩ : RsState) = s₁ := Option.some.inj hs₁
      refine ⟨trivial, fun chain ix hc _ => ?_⟩
      obtain ⟨-, rfl⟩ := Prod.mk.inj (Option.some.inj hc)
      exact .inl (by decide +kernel)
  have hops : OpsOk ⟨r.rs, r.rnd⟩ [.remove 8] := ⟨trivial, trivial, fun _ _ _ => trivial⟩
  obtain ⟨s, hs, hi⟩ := index_invariant (fun _ _ h => h) hr hret hids hops
  exact ⟨r, s, hr, hret, hs, hi⟩

/-- Two blocks with the same ID, which is 1 in 32 bit. -/
def wideText : String := "sb \x7b\n4294967297: any \x7b\n\x7d\n4294967297: any \x7b\n\x7d\n\x7d\n"

/-- The text is accepted, and the ruleset has an ID twice. -/
theorem wide_id_twice : ∃ r, apnParse (plain wideText) Statics.init zeros = some r ∧ r.ret = 0 ∧
    ¬ Indexed r.rs := by
  have h : (apnParse (plain wideText) Statics.init zeros).map
      (fun r => (r.ret, decide (r.rs.entries.map (·.key)).Nodup)) = some (0, false) := by
    decide +kernel
  obtain ⟨r, hr, heq⟩ := Option.map_eq_some_iff.mp h
  refine ⟨r, hr, congrArg Prod.fst heq, fun hi => ?_⟩
  exact of_decide_eq_false (congrArg Prod.snd heq) hi.distinct

end Anoubis.Apn

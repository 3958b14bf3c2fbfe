import Anoubis.Apn.Ids

/-! Operations on rulesets keep the ID index.

    `IndexOk` relates the index to the queues. Each operation is an update of the index and, up to
    order, the same update of one queue; `exists_queue` splits the entries of a ruleset into those of
    one queue and the rest. -/

namespace Anoubis.Apn

open Anoubis.Lib List

/-- The entries of all rules in the four queues. -/
def Ruleset.entries (rs : Ruleset) : List IdEntry :=
  queueEntries rs.alfQueue ++ (queueEntries rs.sfsQueue ++
    (queueEntries rs.sbQueue ++ queueEntries rs.ctxQueue))

/-- The addresses of all rules in the four queues. -/
def Ruleset.ptrs (rs : Ruleset) : List ℕ := rs.entries.map (·.data)

/-- Index and queues agree. -/
def IndexOk (s : RsState) : Prop := Inv s.index s.rs.entries

/-! ### Queues -/

theorem exists_queue (rs : Ruleset) (k : Kind) : ∃ rest, rs.entries.Perm (queueEntries (rs.queue k) ++ rest) ∧
    ∀ q, (rs.setQueue k q).entries.Perm (queueEntries q ++ rest) := by
  have hswap (a b c : List IdEntry) : (a ++ (b ++ c)).Perm (b ++ (a ++ c)) := by
    rw [← append_assoc, ← append_assoc]
    exact perm_append_comm.append_right c
  cases k with
  | alf => exact ⟨_, .refl _, fun q => .refl _⟩
  | sfs => exact ⟨_, hswap _ _ _, fun q => hswap _ _ _⟩
  | sb =>
    refine ⟨queueEntries rs.alfQueue ++ (queueEntries rs.sfsQueue ++ queueEntries rs.ctxQueue), ?_,
      fun q => ?_⟩
    · exact ((hswap _ _ _).append_left _).trans (hswap _ _ _)
    · exact ((hswap _ _ _).append_left _).trans (hswap _ _ _)
  | ctx =>
    refine ⟨queueEntries rs.alfQueue ++ (queueEntries rs.sfsQueue ++ queueEntries rs.sbQueue), ?_,
      fun q => ?_⟩
    · exact ((perm_append_comm.append_left _).append_left _).trans
        (((hswap _ _ _).append_left _).trans (hswap _ _ _))
    · exact ((perm_append_comm.append_left _).append_left _).trans
        (((hswap _ _ _).append_left _).trans (hswap _ _ _))

variable {rs : Ruleset} {k : Kind} {q : List Block} {b : Block} {s : RsState} {id : ℕ}

/-- New entries in one queue. -/
theorem entries_setQueue {new : List IdEntry} (h : (queueEntries q).Perm (new ++ queueEntries (rs.queue k))) :
    (rs.setQueue k q).entries.Perm (new ++ rs.entries) := by
  obtain ⟨rest, hrs, hset⟩ := exists_queue rs k
  refine (hset q).trans ((h.append_right rest).trans ?_)
  rw [append_assoc]
  exact hrs.symm.append_left new

/-- Entries that leave one queue. -/
theorem entries_setQueue_gone {gone : List IdEntry} (h : (queueEntries (rs.queue k)).Perm (gone ++ queueEntries q)) :
    rs.entries.Perm (gone ++ (rs.setQueue k q).entries) := by
  obtain ⟨rest, hrs, hset⟩ := exists_queue rs k
  refine hrs.trans ((h.append_right rest).trans ?_)
  rw [append_assoc]
  exact (hset q).symm.append_left gone

theorem mem_entries_of_queue {e : IdEntry} (h : e ∈ queueEntries (rs.queue k)) : e ∈ rs.entries := by
  obtain ⟨rest, hrs, -⟩ := exists_queue rs k
  exact hrs.mem_iff.mpr (mem_append_left _ h)

theorem queueEntries_perm {q' : List Block} (h : q.Perm q') : (queueEntries q).Perm (queueEntries q') :=
  h.flatMap_right _

@[simp] theorem queueEntries_cons (b : Block) (q : List Block) :
    queueEntries (b :: q) = b.entries ++ queueEntries q := rfl

theorem mem_queueEntries_block (h : b ∈ q) : (⟨b.id, b.ptr⟩ : IdEntry) ∈ queueEntries q :=
  mem_flatMap.mpr ⟨b, h, mem_cons_self⟩

theorem mem_queueEntries_rule {r : Rule} (h : b ∈ q) (hr : r ∈ b.chain) : r.entry ∈ queueEntries q :=
  mem_flatMap.mpr ⟨b, h, mem_cons_of_mem _ (mem_map_of_mem hr)⟩

@[simp] theorem index_setIndex (s : RsState) (ix : Index) : (s.setIndex ix).index = ix := rfl

@[simp] theorem index_setQueue (s : RsState) (k : Kind) (q : List Block) : (s.setQueue k q).index = s.index := by
  cases k <;> rfl

@[simp] theorem rs_setQueue (s : RsState) (k : Kind) (q : List Block) : (s.setQueue k q).rs = s.rs.setQueue k q := rfl

@[simp] theorem queue_setIndex (s : RsState) (ix : Index) (k : Kind) : (s.setIndex ix).rs.queue k = s.rs.queue k := by
  cases k <;> rfl

/-- A queue whose blocks have distinct addresses finds a block by its address. -/
theorem find_block (hnd : ((queueEntries q).map (·.data)).Nodup) (hb : b ∈ q) :
    q.find? (fun c => c.ptr = b.ptr) = some b := by
  induction q with
  | nil => simp at hb
  | cons c q ih =>
    rw [queueEntries_cons, map_append] at hnd
    rcases mem_cons.mp hb with rfl | hb
    · exact find?_cons_of_pos (by simp)
    · have hne : c.ptr ≠ b.ptr := by
        intro heq
        refine (disjoint_of_nodup_append hnd) (mem_map_of_mem mem_cons_self) ?_
        have hmem := mem_map_of_mem (f := IdEntry.data) (mem_queueEntries_block hb)
        simpa [heq] using hmem
      rw [find?_cons_of_neg (by simpa using hne)]
      exact ih (nodup_append.mp hnd).2.1 hb

/-- Every queue of a ruleset without shared addresses is such a queue. -/
theorem nodup_queue (hnd : rs.ptrs.Nodup) (k : Kind) : ((queueEntries (rs.queue k)).map (·.data)).Nodup := by
  obtain ⟨rest, hrs, -⟩ := exists_queue rs k
  rw [Ruleset.ptrs, (hrs.map _).nodup_iff, map_append] at hnd
  exact (nodup_append.mp hnd).1

theorem IndexOk.find_block (h : IndexOk s) (hb : b ∈ s.rs.queue k) :
    (s.rs.queue k).find? (fun c => c.ptr = b.ptr) = some b :=
  Apn.find_block (nodup_queue h.datas k) hb

/-- Replacing the chain of a block. -/
theorem modifyChain_entries (h : IndexOk s) (hb : b ∈ s.rs.queue k) (f : List Rule → List Rule) : ∃ rest,
      (queueEntries (s.rs.queue k)).Perm (b.chain.map Rule.entry ++ rest) ∧
      (queueEntries (modifyChain b.ptr f (s.rs.queue k))).Perm ((f b.chain).map Rule.entry ++ rest) := by
  obtain ⟨others, hq, hm⟩ := exists_modifyFirst (h.find_block hb) (fun c => { c with chain := f c.chain })
  refine ⟨⟨b.id, b.ptr⟩ :: queueEntries others, ?_, ?_⟩
  · refine (queueEntries_perm hq).trans ?_
    exact perm_middle.symm
  · refine (queueEntries_perm hm).trans ?_
    exact perm_middle.symm

/-! ### Insertions -/

/-- The addresses of a new block are not in use. -/
def BlockFresh (rs : Ruleset) (b : Block) : Prop := (b.ptrs ++ rs.ptrs).Nodup

/-- `apn_update_ids` of a new block. -/
theorem IndexOk.updateIds (h : IndexOk s) (hf : BlockFresh s.rs b) (hok : BlockOk (fun _ => true) s.index b) :
    ∃ b' ix', apnUpdateIds s.index b = some (b', ix') ∧ Inv ix' (b'.entries ++ s.rs.entries) ∧ b'.kind = b.kind := by
  have hkeep : Inv s.index (keeps (fun _ => true) b.entries ++ s.rs.entries) := by
    rw [IndexOk] at h
    simpa [keeps] using h
  obtain ⟨b', ix', hb, hinv, -, hk⟩ := hkeep.assignBlock hok hf
  exact ⟨b', ix', hb, hinv, hk⟩

/-- A block that has been given its IDs goes into its queue. -/
theorem indexOk_setQueue {ix : Index} (new : List IdEntry) (h : Inv ix (new ++ s.rs.entries))
    (hq : (queueEntries q).Perm (new ++ queueEntries (s.rs.queue k))) : IndexOk ((s.setIndex ix).setQueue k q) := by
  rw [IndexOk, index_setQueue, index_setIndex, rs_setQueue]
  refine h.of_perm (List.Perm.symm ?_)
  have hset := @entries_setQueue (s.setIndex ix).rs k q new (by rwa [queue_setIndex])
  exact hset

theorem apnAdd_ok (h : IndexOk s) (hf : BlockFresh s.rs b)
    (hok : s.rs.maxid ≠ uintMax → BlockOk (fun _ => true) s.index b) :
    ∃ ret s', apnAdd s b = some (ret, s') ∧ IndexOk s' := by
  rw [apnAdd]
  split
  · exact ⟨_, _, rfl, h⟩
  · rename_i hmax
    obtain ⟨b', ix', hb, hinv, -⟩ := h.updateIds hf (hok hmax)
    rw [hb]
    refine ⟨_, _, rfl, ?_⟩
    exact indexOk_setQueue _ hinv (.refl _)

theorem insertPlace_perm {place : Block → List Block} (h : insertPlace rs k id = some place) (b : Block) :
    (place b).Perm (b :: rs.queue k) := by
  rw [insertPlace] at h
  split_ifs at h with h1 h2 h3 h4
  · cases h
    exact .refl _
  · obtain ⟨p, hp, rfl⟩ := Option.map_eq_some_iff.mp h
    refine insertBefore_perm ⟨p, ?_, by simp⟩ b
    rw [apnSearchRule] at hp
    obtain ⟨a, -, hfind⟩ := Option.bind_eq_some_iff.mp hp
    exact mem_of_find?_eq_some hfind

theorem apnInsert_ok (h : IndexOk s) (hf : BlockFresh s.rs b)
    (hok : (insertPlace s.rs b.kind id).isSome → BlockOk (fun _ => true) s.index b) :
    ∃ ret s', apnInsert s b id = some (ret, s') ∧ IndexOk s' := by
  rw [apnInsert]
  cases hp : insertPlace s.rs b.kind id with
  | none => exact ⟨_, _, rfl, h⟩
  | some place =>
    obtain ⟨b', ix', hb, hinv, hk⟩ := h.updateIds hf (hok (by rw [hp]; rfl))
    rw [hb]
    refine ⟨_, _, rfl, ?_⟩
    rw [← hk] at hp
    exact indexOk_setQueue _ hinv (queueEntries_perm (insertPlace_perm hp b'))

/-- The block that `rulePlace` finds, and its place: the rule is added to the chain. -/
theorem rulePlace_spec {rule : Rule} {place : Rule → List Rule → List Rule}
    (h : rulePlace rs k rule id = some (b, place)) : b ∈ rs.queue k ∧ (∀ r, (place r b.chain).Perm (r :: b.chain)) ∧
      (rule.id ≠ 0 → rbFind rs.idtree (rule.id % uintMod) = none) := by
  rw [rulePlace] at h
  split_ifs at h with h1 h2
  have hvalid : rule.id ≠ 0 → rbFind rs.idtree (rule.id % uintMod) = none := by
    intro hne
    simpa [hne, apnValidId] using h2
  obtain ⟨p, -, h⟩ := Option.bind_eq_some_iff.mp h
  cases hd : searchDeep rs k p with
  | some c =>
    rw [hd] at h
    cases h
    refine ⟨mem_of_find?_eq_some hd, fun r => insertBefore_perm ?_ r, hvalid⟩
    have hany := find?_some hd
    rwa [any_eq_true] at hany
  | none =>
    rw [hd] at h
    obtain ⟨c, hc, heq⟩ := Option.map_eq_some_iff.mp h
    cases heq
    obtain ⟨a, -, hfind⟩ := Option.bind_eq_some_iff.mp hc
    exact ⟨mem_of_find?_eq_some hfind, fun r => .refl _, hvalid⟩

/-- Inserting a rule: its ID is 32 bit wide, or it gets a new one. -/
def RuleOk (s : RsState) (rule : Rule) : Prop :=
  if rule.id = 0 then AssignOk s.index rule.ptr else rule.id < uintMod

theorem apnInsertRuleCommon_ok (h : IndexOk s) {rule : Rule} (hf : rule.ptr ∉ s.rs.ptrs)
    (hok : (rulePlace s.rs k rule id).isSome → RuleOk s rule) :
    ∃ ret s', apnInsertRuleCommon s k rule id = some (ret, s') ∧ IndexOk s' := by
  rw [apnInsertRuleCommon]
  cases hp : rulePlace s.rs k rule id with
  | none => exact ⟨_, _, rfl, h⟩
  | some bp =>
    obtain ⟨b, place⟩ := bp
    obtain ⟨hb, hperm, hvalid⟩ := rulePlace_spec hp
    have hrule := hok (by rw [hp]; rfl)
    have hid : ∃ nid ix', enterRule s.index rule = some (nid, ix') ∧
        Inv ix' (⟨nid, rule.ptr⟩ :: s.rs.entries) := by
      rw [RuleOk] at hrule
      rw [enterRule]
      split at hrule
      · rename_i h0
        rw [if_pos h0]
        exact Inv.assign h hf hrule
      · rename_i h0
        rw [if_neg h0]
        have hfree := hvalid h0
        rw [Nat.mod_eq_of_lt hrule] at hfree
        exact ⟨_, _, rfl, Inv.insertId h hfree ⟨Nat.pos_of_ne_zero h0, hrule⟩ hf⟩
    obtain ⟨nid, ix', heq, hinv⟩ := hid
    rw [heq]
    refine ⟨_, _, rfl, ?_⟩
    obtain ⟨rest, hq, hm⟩ := modifyChain_entries h hb (place { rule with id := nid })
    refine indexOk_setQueue [⟨nid, rule.ptr⟩] hinv (hm.trans ?_)
    refine (((hperm { rule with id := nid }).map Rule.entry).append_right rest).trans ?_
    exact hq.symm.cons _

theorem apnInsertRule_ok (h : IndexOk s) {rule : Rule} (hf : rule.ptr ∉ s.rs.ptrs)
    (hok : (rulePlace s.rs k rule (anchorId s.rs k id)).isSome → RuleOk s rule) :
    ∃ ret s', apnInsertRule s k rule id = some (ret, s') ∧ IndexOk s' := by
  rw [apnInsertRule]
  split
  · exact apnInsertRuleCommon_ok h hf hok
  · exact ⟨_, _, rfl, h⟩

theorem map_ptr_copyChain (alloc : ℕ → ℕ) (chain : List Rule) : ∀ n,
    (copyChain alloc n chain).map (·.ptr) = (List.range' n chain.length).map alloc := by
  induction chain with
  | nil => intro n; rfl
  | cons r chain ih => intro n; simp [copyChain, ih, range'_succ]

theorem map_ptr_copyRules (alloc : ℕ → ℕ) (n : ℕ) (chain : List Rule) :
    (copyRules alloc n chain).map (·.ptr) = (List.range' n chain.length).map alloc := by
  rw [copyRules, map_map, ← map_ptr_copyChain]
  rfl

/-- The copies are at new addresses, and so is the rule that is inserted. -/
structure AllocFresh (rs : Ruleset) (nrule : Rule) (alloc : ℕ → ℕ) : Prop where
  inj : Function.Injective alloc
  fresh : ∀ n, alloc n ∉ rs.ptrs
  rule : nrule.ptr ∉ rs.ptrs
  ne : ∀ n, alloc n ≠ nrule.ptr

theorem copyBlock_fresh {nrule : Rule} {filename : Text} {subject : Subject} {alloc : ℕ → ℕ} {orig : ℕ}
    (hf : AllocFresh rs nrule alloc) (hnd : rs.ptrs.Nodup)
    (h : copyBlock rs nrule id filename subject k alloc = some (b, orig)) : BlockFresh rs b := by
  rw [copyBlock] at h
  split_ifs at h with h1
  obtain ⟨p, -, h⟩ := Option.bind_eq_some_iff.mp h
  obtain ⟨rule, -, h⟩ := Option.bind_eq_some_iff.mp h
  simp only at h
  split_ifs at h with hany
  cases h
  have hperm : (insertBefore (fun r => r.id = id) nrule (copyRules alloc 1 rule.chain)).Perm
      (nrule :: copyRules alloc 1 rule.chain) :=
    insertBefore_perm (by simpa using hany) nrule
  have hptrs : (Block.ptrs ⟨alloc 0, rule.id, k, [⟨some filename, subject⟩], Flags.none,
      insertBefore (fun r => r.id = id) nrule (copyRules alloc 1 rule.chain)⟩).Perm
      (nrule.ptr :: (List.range' 0 (rule.chain.length + 1)).map alloc) := by
    rw [Block.ptrs, range'_succ, map_cons, ← map_ptr_copyRules]
    exact ((hperm.map _).cons _).trans (List.Perm.swap _ _ _)
  rw [BlockFresh, (hptrs.append_right _).nodup_iff, cons_append, nodup_cons, nodup_append]
  refine ⟨?_, (nodup_range' ..).map hf.inj, hnd, ?_⟩
  · rw [mem_append]
    rintro (hmem | hmem)
    · obtain ⟨n, -, hn⟩ := mem_map.mp hmem
      exact hf.ne n hn
    · exact hf.rule hmem
  · rintro a ha c hc rfl
    obtain ⟨n, -, rfl⟩ := mem_map.mp ha
    exact hf.fresh n hc

theorem apnCopyinsertCommon_ok (h : IndexOk s) {nrule : Rule} {filename : Text} {subject : Subject}
    {alloc : ℕ → ℕ} (hf : AllocFresh s.rs nrule alloc)
    (hok : ∀ b orig, copyBlock s.rs nrule id filename subject k alloc = some (b, orig) →
      (insertPlace s.rs b.kind (orig % uintMod)).isSome → BlockOk (fun _ => true) s.index b) :
    ∃ ret s', apnCopyinsertCommon s nrule id filename subject k alloc = some (ret, s') ∧ IndexOk s' := by
  rw [apnCopyinsertCommon]
  cases hc : copyBlock s.rs nrule id filename subject k alloc with
  | none => exact ⟨_, _, rfl, h⟩
  | some bo =>
    obtain ⟨b, orig⟩ := bo
    exact apnInsert_ok h (copyBlock_fresh hf h.datas hc) (hok b orig hc)

/-- The rules of `chain` are added to `dst`, each with a new ID. -/
theorem spliceLoop_ok (append : Bool) {anchor : ℕ} {chain : List Rule} :
    ∀ {ix : Index} {dst : List Rule} {es : List IdEntry}, Inv ix es →
      ChainOk (fun _ => true) ix chain → (∃ r ∈ dst, r.ptr = anchor) → (chain.map (·.ptr) ++ es.map (·.data)).Nodup →
      ∃ dst' new ix', spliceLoop append anchor ix dst chain = some (dst', ix') ∧
        dst'.Perm (new ++ dst) ∧ Inv ix' (new.map Rule.entry ++ es) := by
  induction chain with
  | nil => intro ix dst es h _ _ _; exact ⟨dst, [], ix, rfl, .refl _, h⟩
  | cons rule chain ih =>
    intro ix dst es h hok hanchor hnd
    simp only [ChainOk, if_true] at hok
    obtain ⟨nid, ix1, ha, hinv⟩ := h.assign (fun hmem =>
      (nodup_cons.mp hnd).1 (mem_append_right _ hmem)) hok.1
    have hplace : (if append && !rule.body.isDefault then dst ++ [{ rule with id := nid }]
        else insertBefore (fun r => r.ptr = anchor) { rule with id := nid } dst).Perm
        ({ rule with id := nid } :: dst) := by
      split
      · exact perm_append_singleton _ _
      · exact insertBefore_perm (by simpa using hanchor) _
    rw [spliceLoop, ha]
    generalize hdst : (if append && !rule.body.isDefault then dst ++ [{ rule with id := nid }]
      else insertBefore (fun r => r.ptr = anchor) { rule with id := nid } dst) = dst1 at hplace
    have hanchor1 : ∃ r ∈ dst1, r.ptr = anchor := by
      obtain ⟨r, hr, hra⟩ := hanchor
      exact ⟨r, hplace.mem_iff.mpr (mem_cons_of_mem _ hr), hra⟩
    obtain ⟨dst', new, ix', hs, hperm, hinv'⟩ := ih hinv (hok.2 nid ix1 ha) hanchor1 (nodup_middle.mpr hnd)
    refine ⟨dst', { rule with id := nid } :: new, ix', ?_, ?_, ?_⟩
    · rw [← hs, ← hdst]
      rfl
    · exact hperm.trans ((hplace.append_left new).trans perm_middle)
    · exact hinv'.of_perm perm_middle

theorem apnEscalationSplice_ok (h : IndexOk s) {anchor : ℕ} {chain : List Rule}
    (hf : (chain.map (·.ptr) ++ s.rs.ptrs).Nodup)
    (hok : (splicePlace s.rs k anchor chain).isSome → ChainOk (fun _ => true) s.index chain) :
    ∃ ret s', apnEscalationSplice s k anchor chain = some (ret, s') ∧ IndexOk s' := by
  rw [apnEscalationSplice]
  cases hp : splicePlace s.rs k anchor chain with
  | none => exact ⟨_, _, rfl, h⟩
  | some ba =>
    obtain ⟨b, append⟩ := ba
    have hchain := hok (by rw [hp]; rfl)
    rw [splicePlace] at hp
    obtain ⟨c, hd, hp⟩ := Option.bind_eq_some_iff.mp hp
    obtain ⟨a, ha, hp⟩ := Option.bind_eq_some_iff.mp hp
    split_ifs at hp with hdef
    obtain ⟨rfl, rfl⟩ := Prod.mk.inj (Option.some.inj hp)
    have hanchor : ∃ r ∈ c.chain, r.ptr = anchor :=
      ⟨a, mem_of_find?_eq_some ha, by simpa using find?_some ha⟩
    obtain ⟨dst, new, ix', hs, hperm, hinv⟩ :=
      spliceLoop_ok (a.body.isDefault && hasNext anchor c.chain) h hchain hanchor hf
    simp only
    rw [hs]
    refine ⟨_, _, rfl, indexOk_setQueue _ hinv ?_⟩
    obtain ⟨rest, hq, hm⟩ := modifyChain_entries h (mem_of_find?_eq_some hd) (fun _ => dst)
    refine hm.trans (((hperm.map Rule.entry).append_right rest).trans ?_)
    rw [map_append, append_assoc]
    exact hq.symm.append_left _

/-! ### Removals -/

/-- Entries that leave the index and a queue. -/
theorem indexOk_gone (h : IndexOk s) {gone : List IdEntry}
    (hq : (queueEntries (s.rs.queue k)).Perm (gone ++ queueEntries q)) :
    IndexOk (({ s with rs := { s.rs with
      idtree := (gone.map IdEntry.data).foldl rbRemoveEntry s.rs.idtree } }).setQueue k q) := by
  have hall := entries_setQueue_gone hq
  have hinv := (h.of_perm hall).removeAll
  rw [IndexOk, index_setQueue]
  cases k <;> exact hinv

theorem freeBlock_eq (root : List IdEntry) (b : Block) : freeBlock root b =
      ((b.chain.map Rule.entry ++ [(⟨b.id, b.ptr⟩ : IdEntry)]).map IdEntry.data).foldl rbRemoveEntry root := by
  rw [freeBlock, map_append, foldl_append]
  have hdata : (b.chain.map Rule.entry).map IdEntry.data = b.chain.map (·.ptr) := map_data_entry _
  rw [hdata]
  rfl

theorem apnRemove_ok (h : IndexOk s) (id : ℕ) : IndexOk (apnRemove s id).2 := by
  rw [apnRemove]
  split
  · exact h
  · split
    · exact h
    · rename_i p hp
      split
      · rename_i k hk
        split
        · exact h
        · split
          · exact h
          · rename_i b hb
            rw [freeBlock_eq]
            refine indexOk_gone h ?_
            refine (queueEntries_perm (exists_eraseP hb)).trans ?_
            rw [queueEntries_cons, Block.entries]
            exact (perm_append_singleton _ _).symm.append_right _
      · split
        · exact h
        · rename_i k hk
          split
          · exact h
          · rename_i b hb
            obtain ⟨r, hr, hrp⟩ : ∃ r ∈ b.chain, r.ptr = p := by
              simpa using find?_some hb
            have hfind : ∃ r, b.chain.find? (fun r => r.ptr = p) = some r := by
              cases hf : b.chain.find? (fun r => r.ptr = p) with
              | some r => exact ⟨r, rfl⟩
              | none => exact absurd hrp (by simpa using find?_eq_none.mp hf r hr)
            obtain ⟨r, hf⟩ := hfind
            have hptr : r.ptr = p := by simpa using find?_some hf
            obtain ⟨rest, hq, hm⟩ := modifyChain_entries h (mem_of_find?_eq_some hb)
              (fun chain => chain.eraseP (fun r => r.ptr = p))
            have hgone := @indexOk_gone k
              (modifyChain b.ptr (fun chain => chain.eraseP (fun r => r.ptr = p)) (s.rs.queue k)) s h
              [r.entry] (by
                refine hq.trans ((((exists_eraseP hf).map Rule.entry).append_right rest).trans ?_)
                exact (hm.symm.cons r.entry))
            rw [← hptr]
            rw [← hptr] at hgone
            exact hgone

/-- The entries of expired rules, and the others. -/
theorem clean_entries (check : Scope → Bool) (q : List Block) :
    (queueEntries q).Perm
      (q.flatMap (fun b => (b.chain.filter (Rule.expired check)).map Rule.entry) ++
        queueEntries (q.map (fun b : Block =>
          { b with chain := b.chain.filter (fun r => !r.expired check) }))) := by
  induction q with
  | nil => exact .refl _
  | cons b q ih =>
    have hchain := (filter_append_perm (Rule.expired check) b.chain).symm.map Rule.entry
    rw [map_append] at hchain
    rw [queueEntries_cons, flatMap_cons, map_cons, queueEntries_cons, append_assoc]
    refine ((hchain.cons _).append ih).trans ?_
    simp only [Block.entries, cons_append, append_assoc]
    refine perm_middle.symm.trans (List.Perm.append_left _ ?_)
    rw [← cons_append, ← append_assoc, ← cons_append, ← append_assoc]
    exact perm_append_comm.append_right _

theorem apnCleanRuleq_ok (h : IndexOk s) (check : Scope → Bool) (k : Kind) :
    IndexOk { s with rs := apnCleanRuleq check s.rs k } := by
  have hgone := indexOk_gone h (clean_entries check (s.rs.queue k))
  rw [map_flatMap] at hgone
  have hdata : (fun b : Block => ((b.chain.filter (Rule.expired check)).map Rule.entry).map IdEntry.data) =
      fun b => (b.chain.filter (Rule.expired check)).map (·.ptr) := by
    funext b
    exact map_data_entry _
  rw [hdata] at hgone
  exact hgone

theorem apnCleanRuleset_ok (h : IndexOk s) (check : Scope → Bool) :
    IndexOk { s with rs := apnCleanRuleset s.rs check } := by
  have hfold : ∀ (ks : List Kind) (s : RsState), IndexOk s →
      IndexOk { s with rs := ks.foldl (apnCleanRuleq check) s.rs } := by
    intro ks
    induction ks with
    | nil => intro s h; exact h
    | cons k ks ih => intro s h; exact ih _ (apnCleanRuleq_ok h check k)
  exact hfold Kind.all s h

/-! ### Sequences of calls -/

/-- The rules given to an operation are not in the ruleset yet, and memory that it allocates is new. -/
def OpFresh (s : RsState) : Op → Prop
  | .add b | .insert b _ => BlockFresh s.rs b
  | .insertRule _ rule _ => rule.ptr ∉ s.rs.ptrs
  | .copyinsert _ nrule _ _ _ alloc => AllocFresh s.rs nrule alloc
  | .splice _ _ chain => (chain.map (·.ptr) ++ s.rs.ptrs).Nodup
  | .remove _ | .clean _ => True

/-- The IDs that an operation makes or takes over are fine. -/
def OpOk (s : RsState) : Op → Prop
  | .add b => s.rs.maxid ≠ uintMax → BlockOk (fun _ => true) s.index b
  | .insert b id =>
    (insertPlace s.rs b.kind (id % uintMod)).isSome → BlockOk (fun _ => true) s.index b
  | .insertRule k rule id =>
    (rulePlace s.rs k rule (anchorId s.rs k (id % uintMod))).isSome → RuleOk s rule
  | .copyinsert k nrule id filename subject alloc => ∀ b orig,
    copyBlock s.rs nrule (id % uintMod) filename subject k alloc = some (b, orig) →
      (insertPlace s.rs b.kind (orig % uintMod)).isSome → BlockOk (fun _ => true) s.index b
  | .splice k anchor chain =>
    (splicePlace s.rs k anchor chain).isSome → ChainOk (fun _ => true) s.index chain
  | .remove _ | .clean _ => True

/-- One call. -/
theorem applyOp_ok (h : IndexOk s) {op : Op} (hf : OpFresh s op) (hok : OpOk s op) :
    ∃ ret s', applyOp s op = some (ret, s') ∧ IndexOk s' := by
  cases op with
  | add b => exact apnAdd_ok h hf hok
  | insert b id => exact apnInsert_ok h hf hok
  | insertRule k rule id => exact apnInsertRule_ok h hf hok
  | copyinsert k nrule id filename subject alloc => exact apnCopyinsertCommon_ok h hf hok
  | splice k anchor chain => exact apnEscalationSplice_ok h hf hok
  | remove id => exact ⟨_, _, rfl, apnRemove_ok h _⟩
  | clean check => exact ⟨_, _, rfl, apnCleanRuleset_ok h check⟩

/-- Every call of the sequence is fine. -/
def OpsOk : RsState → List Op → Prop
  | _, [] => True
  | s, op :: ops => OpFresh s op ∧ OpOk s op ∧
      ∀ ret s', applyOp s op = some (ret, s') → OpsOk s' ops

/-- A sequence of calls returns, and keeps index and queues in agreement. -/
theorem applyOps_ok {ops : List Op} : ∀ {s : RsState}, IndexOk s → OpsOk s ops →
    ∃ s', applyOps s ops = some s' ∧ IndexOk s' := by
  induction ops with
  | nil => intro s h _; exact ⟨s, rfl, h⟩
  | cons op ops ih =>
    intro s h hok
    obtain ⟨ret, s1, hs1, h1⟩ := applyOp_ok h hok.1 hok.2.1
    obtain ⟨s', hs', h'⟩ := ih h1 (hok.2.2 ret s1 hs1)
    exact ⟨s', by rw [applyOps, hs1]; exact hs', h'⟩

end Anoubis.Apn

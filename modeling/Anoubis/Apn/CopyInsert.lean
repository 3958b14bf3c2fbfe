import Anoubis.Apn.IndexRuns

/-! Copies of a block with one more rule (`apn_copyinsert_common`).

    A rule for one program is put into a copy of the block that holds the rule `id`; the copy stands
    in front of the original.

        queue: … , b , …        -->   … , new , b , …
        chain: … , r , …              … , nrule , r' , …

    `apn_copy_one_rule` loses the flags of the block and all subjects of an application list but the
    first, and `apn_insert` looks for the block with the lower 32 bit of its ID. -/

namespace Anoubis.Apn

open Option

open Anoubis.Lib List

/-- A rule without address and ID. -/
def Rule.content (r : Rule) : Option Scope × Body := (r.scope, r.body)

/-- `id` is the ID of the rule `r` in the block `b` of the queue `k`. -/
structure Names (rs : Ruleset) (k : Kind) (b : Block) (r : Rule) (id : ℕ) : Prop where
  block : b ∈ rs.queue k
  rule : b.chain.find? (fun r => r.id = id) = some r
  found : apnFindRule rs.idtree id = some r.ptr

/-- One new block in front of `b`, for one program, with the flags and the rules of `b` and with `nrule` in
    front of `r`; nothing else has changed. -/
structure CopyInserted (s s' : RsState) (k : Kind) (b : Block) (r nrule : Rule) (filename : Text)
    (subject : Subject) : Prop where
  others : ∀ k' ≠ k, s'.rs.queue k' = s.rs.queue k'
  inserted : ∃ new pre post before after, s.rs.queue k = pre ++ b :: post ∧
    s'.rs.queue k = pre ++ new :: b :: post ∧ new.ptr ∉ s.rs.ptrs ∧ new.kind = k ∧
    new.app = [⟨some filename, subject⟩] ∧ new.flags = b.flags ∧ b.chain = before ++ r :: after ∧
    new.chain.map Rule.content = (before ++ nrule :: r :: after).map Rule.content

/-! ### IDs -/

variable {chain before after : List Rule} {s s' : RsState} {filename : Text} {subject : Subject}

theorem assignChain_content {sel : ℕ → Bool} :
    ∀ {ix ix' : Index} {chain' : List Rule}, assignChain sel ix chain = some (chain', ix') →
      chain'.map Rule.content = chain.map Rule.content := by
  induction chain with
  | nil =>
    intro ix ix' chain' h
    cases h
    rfl
  | cons r chain ih =>
    intro ix ix' chain' h
    rw [assignChain] at h
    split at h
    · obtain ⟨⟨nid, ix₁⟩, -, h⟩ := bind_eq_some_iff.mp h
      obtain ⟨⟨chain₁, ix₂⟩, hc, h⟩ := bind_eq_some_iff.mp h
      cases h
      exact congrArg₂ List.cons rfl (ih hc)
    · obtain ⟨⟨chain₁, ix₂⟩, hc, h⟩ := bind_eq_some_iff.mp h
      cases h
      exact congrArg₂ List.cons rfl (ih hc)

variable {b : Block} {rs : Ruleset} {k : Kind} {r nrule : Rule} {id : ℕ} {alloc : ℕ → ℕ}

/-- `apn_update_ids` changes IDs only. -/
theorem apnUpdateIds_spec {ix ix' : Index} {b' : Block} (h : apnUpdateIds ix b = some (b', ix')) :
    b'.ptr = b.ptr ∧ b'.kind = b.kind ∧ b'.app = b.app ∧ b'.flags = b.flags ∧
      b'.chain.map Rule.content = b.chain.map Rule.content := by
  rw [apnUpdateIds, assignBlock] at h
  obtain ⟨⟨chain, ix₁⟩, hc, h⟩ := bind_eq_some_iff.mp h
  obtain ⟨⟨nid, ix₂⟩, -, h⟩ := bind_eq_some_iff.mp h
  cases h
  exact ⟨rfl, rfl, rfl, rfl, assignChain_content hc⟩

/-! ### The place -/

theorem mem_ptrs_block (h : b ∈ rs.queue k) : b.ptr ∈ rs.ptrs := by
  have hmem := mem_entries_of_queue (mem_queueEntries_block h)
  exact mem_map_of_mem (f := IdEntry.data) hmem

/-- A queue whose rules have distinct addresses finds the block of a rule by the address of the rule. -/
theorem find_deep {q : List Block} (hnd : ((queueEntries q).map (·.data)).Nodup) (hb : b ∈ q) (hr : r ∈ b.chain) :
    q.find? (fun c => c.chain.any (fun x => x.ptr = r.ptr)) = some b := by
  induction q with
  | nil => simp at hb
  | cons c q ih =>
    rw [queueEntries_cons, map_append] at hnd
    rcases mem_cons.mp hb with rfl | hb
    · exact find?_cons_of_pos (any_eq_true.mpr ⟨r, hr, by simp⟩)
    · have hne : ¬ (c.chain.any (fun x => x.ptr = r.ptr)) = true := by
        intro hany
        obtain ⟨x, hx, heq⟩ := any_eq_true.mp hany
        have hx' : x.entry ∈ c.entries := mem_cons_of_mem _ (mem_map_of_mem hx)
        refine (disjoint_of_nodup_append hnd) (mem_map_of_mem hx') ?_
        have hmem := mem_map_of_mem (f := IdEntry.data) (mem_queueEntries_rule hb hr)
        simpa [Rule.entry, show x.ptr = r.ptr by simpa using heq] using hmem
      rw [find?_cons, show (c.chain.any fun x => decide (x.ptr = r.ptr)) = false by simpa using hne]
      exact ih (nodup_append.mp hnd).2.1 hb

/-- `apn_insert` of a block into a queue that has blocks: the place is in front of the block that has the
    ID. -/
theorem apnInsert_place (h : apnInsert s b id = some (0, s')) (hne : s.rs.queue b.kind ≠ []) :
    ∃ p b' ix', apnSearchRule s.rs b.kind id = some p ∧
      apnUpdateIds s.index b = some (b', ix') ∧ s' = (s.setIndex ix').setQueue b.kind
        (insertBefore (fun c => c.ptr = p.ptr) b' (s.rs.queue b.kind)) := by
  rw [apnInsert] at h
  split at h
  · have hret := (Prod.mk.inj (some.inj h)).1
    cases hret
  · rename_i place hp
    obtain ⟨⟨b', ix'⟩, hu, h⟩ := bind_eq_some_iff.mp h
    cases h
    rw [insertPlace] at hp
    split_ifs at hp
    obtain ⟨p, hsearch, rfl⟩ := map_eq_some_iff.mp hp
    exact ⟨p, b', ix', hsearch, hu, by rw [(apnUpdateIds_spec hu).2.1]⟩

/-! ### The copy -/

theorem copyChain_append (alloc : ℕ → ℕ) (post : List Rule) (pre : List Rule) : ∀ n,
    copyChain alloc n (pre ++ post) = copyChain alloc n pre ++ copyChain alloc (n + pre.length) post := by
  induction pre with
  | nil => intro n; rfl
  | cons r pre ih =>
    intro n
    rw [cons_append, copyChain, ih, copyChain, cons_append, length_cons, add_assoc, add_comm 1]

/-- A rule as it is copied. -/
def Rule.copied (r : Rule) : Option Scope × Body := (r.scope, codeBody r.body)

theorem copied_copyRules (alloc : ℕ → ℕ) (chain : List Rule) : ∀ n,
    (copyRules alloc n chain).map Rule.content = chain.map Rule.copied := by
  induction chain with
  | nil => intro n; rfl
  | cons r chain ih =>
    intro n
    exact congrArg₂ List.cons rfl (ih (n + 1))

theorem id_copyRules (alloc : ℕ → ℕ) (chain : List Rule) : ∀ n,
    (copyRules alloc n chain).map (·.id) = chain.map (·.id) := by
  induction chain with
  | nil => intro n; rfl
  | cons r chain ih =>
    intro n
    exact congrArg₂ List.cons rfl (ih (n + 1))

/-- The chain of the copy, with the new rule in front of the copy of the rule `id`. -/
theorem content_insertBefore (hchain : chain = before ++ r :: after) (hr : r.id = id)
    (hbefore : ∀ x ∈ before, x.id ≠ id) (nrule : Rule) (n : ℕ) :
    (insertBefore (fun r => r.id = id) nrule (copyRules alloc n chain)).map Rule.content =
      before.map Rule.copied ++ nrule.content :: r.copied :: after.map Rule.copied := by
  have hsplit : copyRules alloc n chain = copyRules alloc n before ++
      { r with ptr := alloc (n + before.length), body := codeBody r.body } ::
        copyRules alloc (n + before.length + 1) after := by
    rw [copyRules, hchain, copyChain_append, map_append]
    rfl
  have hids : ∀ x ∈ copyRules alloc n before, ¬ decide (x.id = id) = true := by
    intro x hx hid
    have hmem := mem_map_of_mem (f := Rule.id) hx
    rw [id_copyRules] at hmem
    obtain ⟨y, hy, heq⟩ := mem_map.mp hmem
    exact hbefore y hy (heq.trans (by simpa using hid))
  rw [hsplit, insertBefore_append hids (by simpa using hr), map_append, map_cons,
    map_cons, copied_copyRules, copied_copyRules]
  rfl

/-- The copy that is inserted. -/
theorem copyBlock_spec {nb : Block} {orig : ℕ} (hnd : rs.ptrs.Nodup) (hn : Names rs k b r id)
    (h : copyBlock rs nrule id filename subject k alloc = some (nb, orig)) :
    orig = b.id ∧ nb.ptr = alloc 0 ∧ nb.kind = k ∧ nb.app = [⟨some filename, subject⟩] ∧ nb.flags = Flags.none ∧
      nb.chain = insertBefore (fun r => r.id = id) nrule (copyRules alloc 1 b.chain) := by
  have hdeep : searchDeep rs k r.ptr = some b :=
    find_deep (nodup_queue hnd k) hn.block (mem_of_find?_eq_some hn.rule)
  rw [copyBlock] at h
  split_ifs at h
  rw [hn.found] at h
  simp only [bind_eq_bind, bind_some, hdeep] at h
  split_ifs at h
  cases h
  exact ⟨rfl, rfl, rfl, rfl, rfl, rfl⟩

/-- What a successful call does: the new block is in front of the block that the lower 32 bit of the ID of
    `b` refer to. -/
theorem apnCopyinsert_effect (hnd : s.rs.ptrs.Nodup) (hn : Names s.rs k b r id)
    (h : apnCopyinsertCommon s nrule id filename subject k alloc = some (0, s')) :
    ∃ p new before after, apnSearchRule s.rs k b.id = some p ∧ b.chain = before ++ r :: after ∧
      (∀ k' ≠ k, s'.rs.queue k' = s.rs.queue k') ∧
      s'.rs.queue k = insertBefore (fun c => c.ptr = p.ptr) new (s.rs.queue k) ∧
      new.ptr = alloc 0 ∧ new.kind = k ∧ new.app = [⟨some filename, subject⟩] ∧
      new.flags = Flags.none ∧ new.chain.map Rule.content =
        before.map Rule.copied ++ nrule.content :: r.copied :: after.map Rule.copied := by
  rw [apnCopyinsertCommon] at h
  cases hc : copyBlock s.rs nrule id filename subject k alloc with
  | none =>
    rw [hc] at h
    have hret := (Prod.mk.inj (some.inj h)).1
    cases hret
  | some nbo =>
    obtain ⟨nb, orig⟩ := nbo
    rw [hc] at h
    obtain ⟨rfl, hptr, rfl, happ, hflags, hchain⟩ := copyBlock_spec hnd hn hc
    obtain ⟨p, new, ix', hp, hu, rfl⟩ := apnInsert_place h (ne_nil_of_mem hn.block)
    obtain ⟨hid, before, after, hb, hbefore⟩ := find?_eq_some_iff_append.mp hn.rule
    obtain ⟨h1, h2, h3, h4, h5⟩ := apnUpdateIds_spec hu
    have hsearch : apnSearchRule s.rs nb.kind b.id = some p := by
      rw [← hp, apnSearchRule, apnSearchRule, apnFindRule, apnFindRule, Nat.mod_mod]
    refine ⟨p, new, before, after, hsearch, hb, fun k' hk' => ?_, ?_, h1.trans hptr, h2, h3.trans happ,
      h4.trans hflags, ?_⟩
    · rw [rs_setQueue, queue_setQueue_of_ne _ hk', queue_setIndex]
    · rw [rs_setQueue, queue_setQueue_self]
    · rw [h5, hchain]
      exact content_insertBefore hb (by simpa using hid) (fun x hx => by simpa using hbefore x hx) nrule 1

/-! ### When the copy is right -/

theorem map_copied_eq_iff (chain : List Rule) :
    chain.map Rule.copied = chain.map Rule.content ↔ ∀ r ∈ chain, codeBody r.body = r.body := by
  rw [map_inj_left]
  simp [Rule.copied, Rule.content]

/-- The chain of the copy has the rules of the original iff every rule is copied as it is. -/
theorem copied_chain_iff : before.map Rule.copied ++ nrule.content :: r.copied :: after.map Rule.copied =
        (before ++ nrule :: r :: after).map Rule.content ↔
      ∀ x ∈ before ++ r :: after, codeBody x.body = x.body := by
  rw [map_append, map_cons, map_cons]
  constructor
  · intro h
    obtain ⟨h1, h2⟩ := append_inj h (by simp)
    obtain ⟨-, h3⟩ := List.cons.inj h2
    obtain ⟨h4, h5⟩ := List.cons.inj h3
    intro x hx
    rcases mem_append.mp hx with hx | hx
    · exact (map_copied_eq_iff before).mp h1 x hx
    · rcases mem_cons.mp hx with rfl | hx
      · exact (Prod.mk.inj h4).2
      · exact (map_copied_eq_iff after).mp h5 x hx
  · intro h
    have hbefore := (map_copied_eq_iff before).mpr fun x hx => h x (mem_append_left _ hx)
    have hafter := (map_copied_eq_iff after).mpr fun x hx =>
      h x (mem_append_right _ (mem_cons_of_mem _ hx))
    have hr : r.copied = r.content := by
      rw [Rule.copied, h r (mem_append_right _ mem_cons_self), Rule.content]
    rw [hbefore, hafter, hr]

/-- `b` has no flags, every application list in a context rule of `b` has one subject, and the ID of `b`,
    as an `unsigned int`, refers to `b`. -/
structure CopyableBlock (rs : Ruleset) (b : Block) : Prop where
  flags : b.flags = Flags.none
  subjects : ∀ r ∈ b.chain, ∀ application type, r.body = .ctxRule application type → OneSubject application
  id : apnFindRule rs.idtree b.id = some b.ptr

theorem bodies_iff (chain : List Rule) : (∀ r ∈ chain, codeBody r.body = r.body) ↔
    ∀ r ∈ chain, ∀ application type, r.body = .ctxRule application type → OneSubject application :=
  forall₂_congr fun r _ => codeBody_eq_iff r.body

theorem nodup_chain (hnd : rs.ptrs.Nodup) (hb : b ∈ rs.queue k) : b.chain.Nodup := by
  have hq := nodup_queue hnd k
  obtain ⟨q₁, q₂, heq⟩ := append_of_mem hb
  rw [heq, queueEntries, flatMap_append, flatMap_cons, map_append, map_append] at hq
  have hblock := (nodup_append.mp (nodup_append.mp hq).2.1).1
  rw [Block.entries, map_cons, map_data_entry, nodup_cons] at hblock
  exact hblock.2.of_map _

/-- A call that returns 0 has inserted the copy that it is to insert, if and only if the block can be
    copied. -/
theorem copyInserted_iff {s s' : RsState} {k : Kind} {b : Block} {r nrule : Rule} {id : ℕ}
    {filename : Text} {subject : Subject} {alloc : ℕ → ℕ} (hnd : s.rs.ptrs.Nodup)
    (hn : Names s.rs k b r id) (halloc : ∀ n, alloc n ∉ s.rs.ptrs)
    (h : apnCopyinsertCommon s nrule id filename subject k alloc = some (0, s')) :
    CopyInserted s s' k b r nrule filename subject ↔ CopyableBlock s.rs b := by
  obtain ⟨p, new, before, after, hp, hb, hothers, hq, hptr, hkind, happ, hflags, hchain⟩ :=
    apnCopyinsert_effect hnd hn h
  have hfresh : new.ptr ∉ s.rs.ptrs := hptr ▸ halloc 0
  have hnotin : ∀ q : List Block, (∀ c ∈ q, c ∈ s.rs.queue k) → new ∉ q := fun q hsub hmem =>
    hfresh (mem_ptrs_block (hsub new hmem))
  -- the block in front of which the copy stands
  obtain ⟨a, ha, hfind⟩ := Option.bind_eq_some_iff.mp hp
  obtain ⟨hpa, pre, post, hsplit, hpre⟩ := List.find?_eq_some_iff_append.mp hfind
  have hq' : s'.rs.queue k = pre ++ new :: p :: post := by
    rw [hq, hsplit]
    refine insertBefore_append (fun c hc heq => ?_) (by simp) new
    have hca := hpre c hc
    simp only [decide_eq_true_eq] at heq hpa
    simp [heq, hpa] at hca
  constructor
  · rintro ⟨-, new₁, pre₁, post₁, before₁, after₁, hsplit₁, hq₁, -, -, -, hflags₁, hb₁, hchain₁⟩
    rw [hq'] at hq₁
    have hpre₁ : new ∉ pre₁ := hnotin _ fun c hc => by rw [hsplit₁]; exact List.mem_append_left _ hc
    have hpost₁ : new ∉ b :: post₁ := hnotin _ fun c hc => by
      rw [hsplit₁]
      exact List.mem_append_right _ hc
    obtain ⟨-, rfl, hrest⟩ := (List.append_cons_inj_of_notMem hpre₁ hpost₁).mp hq₁.symm
    obtain ⟨rfl, -⟩ := List.cons.inj hrest
    refine ⟨hflags₁.symm.trans hflags, ?_, ?_⟩
    · have hr : r ∉ before ∧ r ∉ after := by
        have hnodup := nodup_chain hnd hn.block
        rw [hb, List.nodup_middle, List.nodup_cons, List.mem_append] at hnodup
        exact not_or.mp hnodup.1
      rw [hb₁] at hb
      obtain ⟨rfl, -, rfl⟩ := (List.append_cons_inj_of_notMem hr.1 hr.2).mp hb.symm
      rw [hchain] at hchain₁
      rw [← bodies_iff, hb₁]
      exact copied_chain_iff.mp hchain₁
    · have hpb : b.ptr = a := by simpa using hpa
      rw [ha, hpb]
  · rintro ⟨hnone, hbodies, hid⟩
    obtain rfl : p = b := by
      rw [ha] at hid
      obtain rfl := Option.some.inj hid
      exact Option.some.inj (hfind.symm.trans (find_block (nodup_queue hnd k) hn.block))
    refine ⟨hothers, new, pre, post, before, after, hsplit, hq', hfresh, hkind, happ,
      hflags.trans hnone.symm, hb, ?_⟩
    rw [hchain, copied_chain_iff, ← hb]
    exact (bodies_iff _).mpr hbodies

/-- A sandbox block with one rule; `flags` are its flags. -/
def copySample (flags : Flags) : RsState :=
  ⟨{ ptr := 9, flags := 0, version := apnVersion, maxid := 10, idtree := [⟨8, 0⟩, ⟨7, 1⟩], alfQueue := []
     sfsQueue := [], ctxQueue := []
     sbQueue := [⟨1, 7, .sb, [], flags, [⟨0, 8, none, .default ⟨.deny, .none⟩⟩]⟩] },
    ⟨fun n => n, 0⟩⟩

/-- The rule that is inserted. -/
def copyRuleSample : Rule := ⟨2, 0, none, .sbAccess (some "/etc".toList) .none sbaRead .none .allow⟩

theorem names_copySample (flags : Flags) : Names (copySample flags).rs .sb
    ⟨1, 7, .sb, [], flags, [⟨0, 8, none, .default ⟨.deny, .none⟩⟩]⟩ ⟨0, 8, none, .default ⟨.deny, .none⟩⟩ 8 :=
  ⟨mem_singleton.mpr rfl, rfl, rfl⟩

/-- The rule is put into a copy of the block for the program `/bin/a`. -/
theorem copyInserted_sample : ∃ s', apnCopyinsertCommon (copySample Flags.none) copyRuleSample 8
      "/bin/a".toList .none .sb (fun n => n + 100) = some (0, s') ∧
    CopyInserted (copySample Flags.none) s' .sb
      ⟨1, 7, .sb, [], Flags.none, [⟨0, 8, none, .default ⟨.deny, .none⟩⟩]⟩
      ⟨0, 8, none, .default ⟨.deny, .none⟩⟩ copyRuleSample "/bin/a".toList .none := by
  have hret : (apnCopyinsertCommon (copySample Flags.none) copyRuleSample 8 "/bin/a".toList .none .sb
      (fun n => n + 100)).map (·.1) = some 0 := by decide +kernel
  obtain ⟨⟨ret, s'⟩, h, rfl⟩ := Option.map_eq_some_iff.mp hret
  refine ⟨s', h, (copyInserted_iff (by decide) (names_copySample _) (fun n hn => ?_) h).mpr ⟨rfl, ?_, rfl⟩⟩
  · have hptrs : (copySample Flags.none).rs.ptrs = [1, 0] := rfl
    simp [hptrs] at hn
  · intro r hr application type hbody
    obtain rfl := List.mem_singleton.mp hr
    cases hbody

/-- The same block with the flag PGONLY: the copy applies outside of the playground as well. -/
theorem copy_loses_pgonly : ∃ s', apnCopyinsertCommon (copySample ⟨false, false, true⟩) copyRuleSample 8
      "/bin/a".toList .none .sb (fun n => n + 100) = some (0, s') ∧
    s'.rs.sbQueue.map (·.flags) = [Flags.none, ⟨false, false, true⟩] ∧
    ¬ CopyInserted (copySample ⟨false, false, true⟩) s' .sb
      ⟨1, 7, .sb, [], ⟨false, false, true⟩, [⟨0, 8, none, .default ⟨.deny, .none⟩⟩]⟩
      ⟨0, 8, none, .default ⟨.deny, .none⟩⟩ copyRuleSample "/bin/a".toList .none := by
  have hret : (apnCopyinsertCommon (copySample ⟨false, false, true⟩) copyRuleSample 8 "/bin/a".toList .none
      .sb (fun n => n + 100)).map (fun r => (r.1, r.2.rs.sbQueue.map (·.flags))) =
        some (0, [Flags.none, ⟨false, false, true⟩]) := by decide +kernel
  obtain ⟨⟨ret, s'⟩, h, heq⟩ := Option.map_eq_some_iff.mp hret
  obtain ⟨rfl, hflags⟩ := Prod.mk.inj heq
  refine ⟨s', h, hflags, fun hc => ?_⟩
  obtain ⟨new, pre, post, before, after, hq, hq', -, -, -, hnew, -, -⟩ := hc.inserted
  have hall : s'.rs.sbQueue.map (·.flags) =
      pre.map (·.flags) ++ (new.flags :: ⟨false, false, true⟩ :: post.map (·.flags)) := by
    have hcongr := congrArg (List.map Block.flags) hq'
    rwa [List.map_append, List.map_cons, List.map_cons] at hcongr
  obtain rfl : pre = [] := by
    have hlen := congrArg List.length hq
    simp only [copySample, Ruleset.queue, List.length_append, List.length_cons, List.length_nil] at hlen
    exact List.length_eq_zero_iff.mp (by omega)
  rw [hflags, List.map_nil, List.nil_append] at hall
  have hhead := (List.cons.inj hall).1
  rw [hnew] at hhead
  cases hhead

end Anoubis.Apn

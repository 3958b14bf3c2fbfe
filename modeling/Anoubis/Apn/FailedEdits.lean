import Anoubis.Apn.Complete

/-! Edits that fail.

    The editing functions promise that "in case of an error, no rules are added, thus caller can free
    them safely". They check first and change the ruleset behind the last check, with one exception:
    on a verbose ruleset the block adders print the block after its IDs have been entered.

        IDs distinct and free --> enter IDs --> print, if verbose --> append to the queue
                                                      │
                                                      └──▶ failure: the index keeps the IDs -/

namespace Anoubis.Apn

open Option

/-- `__apn_add_block_common` on the queue `k`. -/
def addBlockTo (prints : Block → Bool) (k : Kind) (rs : Ruleset) (b : Block) : AddResult :=
  if apnDuplicateIds b then .duplicate
  else if (b.id :: b.chain.map (·.id)).any (fun id => id ≠ 0 && !apnValidId rs.idtree id) then
    .duplicate
  else
    let ix := insertIds ⟨rs.idtree, rs.maxid, ⟨fun _ => 0, 0⟩⟩ b
    let rs := { rs with idtree := ix.idtree, maxid := ix.maxid }
    if rs.flags &&& flagVerbose ≠ 0 ∧ ¬ prints b then .unprintable rs
    else .added (rs.setQueue k (rs.queue k ++ [b]))

/-- `apn_add_alfblock`, `apn_add_sfsblock`, `apn_add_sbblock` and `apn_add_ctxblock`; `print` is the
    return value of `apn_print_rule`. -/
def apnAddBlock (print : Block → ℤ) (s : RsState) (k : Kind) (b : Block) : ℤ × RsState :=
  if k = .sfs ∧ b.app ≠ [] then (1, s)
  else match addBlockTo (fun b => print b = 0) k s.rs b with
    | .added rs => (0, { s with rs := rs })
    | .duplicate => (1, s)
    | .unprintable rs => (print b, { s with rs := rs })

/-- The functions that add rules to a ruleset. -/
inductive Edit where
  | add (b : Block)
  | insert (b : Block) (id : ℕ)
  | insertRule (k : Kind) (rule : Rule) (id : ℕ)
  | copyinsert (k : Kind) (nrule : Rule) (id : ℕ) (filename : Text) (subject : Subject) (alloc : ℕ → ℕ)
  | addBlock (k : Kind) (b : Block)

/-- One call; the parameters `id` are of type `unsigned int`. -/
def Edit.run (print : Block → ℤ) (s : RsState) : Edit → Option (ℤ × RsState)
  | .add b => apnAdd s b
  | .insert b id => apnInsert s b (id % uintMod)
  | .insertRule k rule id => apnInsertRule s k rule (id % uintMod)
  | .copyinsert k nrule id filename subject alloc =>
    apnCopyinsertCommon s nrule (id % uintMod) filename subject k alloc
  | .addBlock k b => some (apnAddBlock print s k b)

/-- The queues hold the same blocks and rules, and the index has the same entries. -/
structure Unchanged (s s' : RsState) : Prop where
  queues : ∀ k, s'.rs.queue k = s.rs.queue k
  entries : ∀ e, e ∈ s'.rs.idtree ↔ e ∈ s.rs.idtree

theorem Unchanged.refl (s : RsState) : Unchanged s s := ⟨fun _ => rfl, fun _ => .rfl⟩

/-- If the edit fails, it leaves the ruleset as it was. -/
def FailsClean (print : Block → ℤ) (s : RsState) (ed : Edit) : Prop :=
  ∀ ret s', ed.run print s = some (ret, s') → ret ≠ 0 → Unchanged s s'

/-- The edit gives a block adder of a verbose ruleset a block that passes all checks, has an ID that is
    not in the index and cannot be printed. -/
def Edit.LeavesIds (print : Block → ℤ) (rs : Ruleset) : Edit → Prop
  | .addBlock k b => (k = .sfs → b.app = []) ∧ b.explicit.Nodup ∧
      (∀ id ∈ b.explicit, apnValidId rs.idtree id = true) ∧ rs.flags &&& flagVerbose ≠ 0 ∧
      print b ≠ 0 ∧ ∃ id ∈ b.explicit, id ∉ rs.idtree.map (·.key)
  | _ => False

/-! ### Functions that check first -/

variable {s s' : RsState} {ret : ℤ}
variable {b : Block} {id : ℕ} {k : Kind}

theorem apnAdd_failed (h : apnAdd s b = some (ret, s')) (hret : ret ≠ 0) : s' = s := by
  rw [apnAdd] at h
  split at h
  · cases h
    rfl
  · obtain ⟨⟨b', ix⟩, -, h⟩ := bind_eq_some_iff.mp h
    cases h
    exact absurd rfl hret

theorem apnInsert_failed (h : apnInsert s b id = some (ret, s')) (hret : ret ≠ 0) : s' = s := by
  rw [apnInsert] at h
  split at h
  · cases h
    rfl
  · obtain ⟨⟨b', ix⟩, -, h⟩ := bind_eq_some_iff.mp h
    cases h
    exact absurd rfl hret

theorem apnInsertRule_failed {rule : Rule} (h : apnInsertRule s k rule id = some (ret, s')) (hret : ret ≠ 0) :
    s' = s := by
  rw [apnInsertRule] at h
  split at h
  · rw [apnInsertRuleCommon] at h
    split at h
    · cases h
      rfl
    · obtain ⟨⟨nid, ix⟩, -, h⟩ := bind_eq_some_iff.mp h
      cases h
      exact absurd rfl hret
  · cases h
    rfl

theorem apnCopyinsertCommon_failed {nrule : Rule} {filename : Text} {subject : Subject} {alloc : ℕ → ℕ}
    (h : apnCopyinsertCommon s nrule id filename subject k alloc = some (ret, s')) (hret : ret ≠ 0) : s' = s := by
  rw [apnCopyinsertCommon] at h
  split at h
  · cases h
    rfl
  · exact apnInsert_failed h hret

/-! ### Block adders -/

theorem apnDuplicateIds_iff (b : Block) : apnDuplicateIds b = false ↔ b.explicit.Nodup := by
  simp [apnDuplicateIds, Block.explicit, nonzero]

theorem any_invalid_iff (root : List IdEntry) (b : Block) :
    (b.id :: b.chain.map (·.id)).any (fun id => id ≠ 0 && !apnValidId root id) = false ↔
      ∀ id ∈ b.explicit, apnValidId root id = true := by
  rw [List.any_eq_false]
  constructor
  · intro h id hid
    rw [Block.explicit, nonzero, List.mem_filter] at hid
    have hid0 : id ≠ 0 := by simpa using hid.2
    simpa [hid0] using h id hid.1
  · intro h id hid
    by_cases h0 : id = 0
    · simp [h0]
    · simp [h id (List.mem_filter.mpr ⟨hid, by simpa using h0⟩)]

/-- IDs that are in the index already are ignored. -/
theorem insertIds_known {ix : Index} (h : ∀ id ∈ b.explicit, id ∈ ix.idtree.map (·.key)) :
    (insertIds ix b).idtree = ix.idtree := by
  have hstep : ∀ (ix₁ : Index) (e : IdEntry), e.key ∈ b.explicit → ix₁.idtree = ix.idtree →
      (apnInsertId ix₁ e.key e.data).idtree = ix.idtree := by
    intro ix₁ e he heq
    have hin : (rbFind ix₁.idtree e.key).isSome = true := by
      rw [isSome_iff_ne_none, ne_eq, rbFind_eq_none_iff, heq]
      exact fun hne => hne (h e.key he)
    rw [apnInsertId, rbInsertEntry, if_pos hin]
    exact heq
  exact insertIds_keeps (P := fun ix₁ => ix₁.idtree = ix.idtree) hstep rfl

/-- A block adder fails after a change of the ruleset if and only if it enters an ID of a block that it
    cannot print. -/
theorem apnAddBlock_failsClean (print : Block → ℤ) (s : RsState) (k : Kind) (b : Block) :
    ((apnAddBlock print s k b).1 ≠ 0 → Unchanged s (apnAddBlock print s k b).2) ↔
      ¬ (Edit.addBlock k b).LeavesIds print s.rs := by
  rw [apnAddBlock, Edit.LeavesIds]
  by_cases happ : k = .sfs ∧ b.app ≠ []
  · rw [if_pos happ]
    exact iff_of_true (fun _ => Unchanged.refl s) fun h => happ.2 (h.1 happ.1)
  rw [if_neg happ, addBlockTo]
  have happ' : k = .sfs → b.app = [] := fun hk => by_contra fun hne => happ ⟨hk, hne⟩
  by_cases hdup : apnDuplicateIds b = false
  swap
  · rw [if_pos (by simpa using hdup)]
    exact iff_of_true (fun _ => Unchanged.refl s) fun h => hdup ((apnDuplicateIds_iff b).mpr h.2.1)
  rw [if_neg (by simpa using hdup)]
  by_cases hval : (b.id :: b.chain.map (·.id)).any (fun id => id ≠ 0 && !apnValidId s.rs.idtree id) = false
  swap
  · rw [if_pos (Bool.not_eq_false _ ▸ hval)]
    exact iff_of_true (fun _ => Unchanged.refl s) fun h => hval ((any_invalid_iff _ b).mpr h.2.2.1)
  rw [if_neg (Bool.eq_false_iff.mp hval)]
  by_cases hv : s.rs.flags &&& flagVerbose ≠ 0 ∧ ¬ decide (print b = 0) = true
  swap
  · dsimp only
    rw [if_neg hv]
    exact iff_of_true (fun h => absurd rfl h) fun h => hv ⟨h.2.2.2.1, by simpa using h.2.2.2.2.1⟩
  dsimp only
  rw [if_pos hv]
  have hprint : print b ≠ 0 := by simpa using hv.2
  constructor
  · rintro h ⟨-, -, -, -, -, id, hid, hnew⟩
    obtain ⟨e, he, rfl⟩ := List.mem_map.mp ((mem_keys_insertIds b _).mpr (.inl hid))
    exact hnew (List.mem_map_of_mem (((h hprint).entries e).mp he))
  · intro h _
    refine ⟨fun k => by cases k <;> rfl, fun e => ?_⟩
    have hknown : ∀ id ∈ b.explicit, id ∈ s.rs.idtree.map (·.key) := by
      intro id hid
      by_contra hne
      exact h ⟨happ', (apnDuplicateIds_iff b).mp hdup, (any_invalid_iff _ b).mp hval, hv.1, hprint, id, hid, hne⟩
    rw [insertIds_known hknown]

/-- Every edit that fails leaves the ruleset as it was, except for the IDs of a block that a block adder
    could not print. -/
theorem failsClean_iff (print : Block → ℤ) (s : RsState) (ed : Edit) :
    FailsClean print s ed ↔ ¬ ed.LeavesIds print s.rs := by
  have same {s' : RsState} (h : s' = s) : Unchanged s s' := h ▸ Unchanged.refl s
  cases ed with
  | add b => exact iff_of_true (fun ret s' h hret => same (apnAdd_failed h hret)) not_false
  | insert b id => exact iff_of_true (fun ret s' h hret => same (apnInsert_failed h hret)) not_false
  | insertRule k rule id =>
    exact iff_of_true (fun ret s' h hret => same (apnInsertRule_failed h hret)) not_false
  | copyinsert k nrule id filename subject alloc =>
    exact iff_of_true (fun ret s' h hret => same (apnCopyinsertCommon_failed h hret)) not_false
  | addBlock k b =>
    rw [← apnAddBlock_failsClean]
    constructor
    · intro h hret
      exact h _ _ rfl hret
    · intro h ret s' hrun hret
      have heq : apnAddBlock print s k b = (ret, s') := Option.some.inj hrun
      rw [heq] at h
      exact h hret

/-! ### A block that cannot be printed -/

/-- The return value of `apn_print_rule`. -/
def printStatus (lc : Libc) (b : Block) : ℤ := if (apnPrintRule lc b).isSome then 0 else 1

/-- A sandbox block for the uid `(uid_t)-1`, which is not printed. -/
def unprintableText : String := "sb \x7b\n7: \"/a\" uid 4294967295 \x7b\ndefault deny\n\x7d\n\x7d\n"

/-- The same block as the parser hands it over. -/
def unprintableBlock : Block :=
  ⟨1, 7, .sb, [⟨some "/a".toList, .uid uidDefault⟩], Flags.none, [⟨0, 0, none, .default ⟨.deny, .none⟩⟩]⟩

/-- A ruleset with APN_FLAG_VERBOSE that holds nothing. -/
def verboseRuleset : RsState := ⟨emptyRuleset flagVerbose, zeros⟩

/-- The block is refused and not queued, and its ID stays in the index; the same happens in the parser. -/
theorem unprintable_block_keeps_id :
    (apnAddBlock (printStatus (plain "").lc) verboseRuleset .sb unprintableBlock).1 = 1 ∧
      (apnAddBlock (printStatus (plain "").lc) verboseRuleset .sb unprintableBlock).2.rs.sbQueue = [] ∧
      (apnAddBlock (printStatus (plain "").lc) verboseRuleset .sb unprintableBlock).2.rs.idtree =
        [⟨7, 1⟩] ∧
      (yyparse { (plain unprintableText).env .current with flags := flagVerbose } []
        unprintableText.toList).rs.idtree = [⟨7, 1⟩] ∧
      ¬ FailsClean (printStatus (plain "").lc) verboseRuleset (.addBlock .sb unprintableBlock) := by
  refine ⟨by decide +kernel, by decide +kernel, by decide +kernel, by decide +kernel, fun h => ?_⟩
  have hrun : (Edit.addBlock .sb unprintableBlock).run (printStatus (plain "").lc) verboseRuleset =
      some (apnAddBlock (printStatus (plain "").lc) verboseRuleset .sb unprintableBlock) := rfl
  have hret : (apnAddBlock (printStatus (plain "").lc) verboseRuleset .sb unprintableBlock).1 ≠ 0 := by
    decide +kernel
  have hin : (⟨7, 1⟩ : IdEntry) ∈
      (apnAddBlock (printStatus (plain "").lc) verboseRuleset .sb unprintableBlock).2.rs.idtree := by
    decide +kernel
  have hout : (⟨7, 1⟩ : IdEntry) ∉ verboseRuleset.rs.idtree := by decide
  exact hout (((h _ _ hrun hret).entries ⟨7, 1⟩).mp hin)

end Anoubis.Apn

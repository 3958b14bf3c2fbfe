import Anoubis.Apn.Invariant

/-! The SFS block of a ruleset.

    `pe_sfs_getrules` and the printer look at the first block of `sfs_queue` only. `init_sfs_rule`
    makes sure that there is one and `apn_insert` refuses a second one; `sfsmodule` and `apn_add` do
    not look. So there is one block, with all SFS rules, as long as the text has at most one SFS
    module and no SFS block is given to `apn_add`. -/

namespace Anoubis.Apn

open List

open Anoubis.Lib Anoubis.Lib.Syn Option

/-! ### Texts -/

/-- Every SFS block has a keyword of its own in the text. -/
def SfsCounted (rs : Ruleset) (pre : List Tok) : Prop := rs.sfsQueue.length ≤ pre.count (.kw .sfs)

theorem kept_sfsCounted (e : Env) : Kept e (fun _ _ => True) SfsCounted where
  toGivesBodies := (givesBodies_ok e).mono fun _ _ _ => trivial
  skip := by
    intro rs pre ts h
    rw [SfsCounted, count_append]
    exact Nat.le_add_right_of_le h
  versions := fun _ h => h
  added := by
    intro rs rs' pre b hk _ h hadd
    have hq : rs'.sfsQueue = rs.sfsQueue := by
      simpa [Ruleset.queue, hk] using apnAddBlockCommon_queue hadd .sfs
    rwa [SfsCounted, hq]
  addedSfs := by
    intro rs rs' pre b hk _ h hadd
    have hq : rs'.sfsQueue = rs.sfsQueue ++ [b] := by
      simpa [Ruleset.queue, hk] using apnAddBlockCommon_queue hadd .sfs
    rw [SfsCounted, hq, count_append, length_append]
    exact Nat.add_le_add_right h 1
  index := by
    intro rs rs' pre b h hres
    rwa [SfsCounted, show rs'.sfsQueue = rs.sfsQueue from (apnAddBlockCommon_unprintable hres).2 .sfs]

/-- An accepted text with at most one SFS module has one SFS block. -/
theorem accepted_one_sfs {i : Input} {st : Statics} {r : ParseResult} (ho : Outcome i (parsed i st) r)
    (hret : r.ret = 0) (hone : (inputTokens i st).count (.kw .sfs) ≤ 1) : ∃ b, r.rs.sfsQueue = [b] := by
  have hcount : SfsCounted (parsed i st).rs (inputTokens i st) :=
    (kept_sfsCounted (inputEnv i st)).holds_parsed (Nat.zero_le _) (ho.no_errors hret)
  have hlen : (parsed i st).rs.sfsQueue.length ≤ 1 := hcount.trans hone
  have hwritten : ((parsed i st).written i .sfs).length = 1 := by
    rw [Parsed.written]
    split
    · rfl
    · rename_i hne
      have hpos : 0 < (parsed i st).rs.sfsQueue.length :=
        length_pos_iff.mpr fun h => hne ⟨rfl, h⟩
      exact le_antisymm hlen hpos
  have hq := (ho.queues hret .sfs).length_eq
  rw [hwritten] at hq
  exact length_eq_one_iff.mp hq.symm

/-! ### Calls -/

/-- A call of `apn_insert`, or one of `apn_add` for a block that is no SFS block. -/
def Op.leavesSfs : Op → Prop
  | .add b => b.kind ≠ .sfs
  | .insert _ _ => True
  | _ => False

theorem assignBlock_kind {sel : ℕ → Bool} {ix ix' : Index} {b b' : Block}
    (h : assignBlock sel ix b = some (b', ix')) : b'.kind = b.kind := by
  rw [assignBlock] at h
  obtain ⟨⟨chain, ix₁⟩, -, h⟩ := bind_eq_some_iff.mp h
  dsimp only at h
  split at h
  · obtain ⟨⟨nid, ix₂⟩, -, h⟩ := bind_eq_some_iff.mp h
    cases h
    rfl
  · cases h
    rfl

theorem sfsQueue_setQueue {s : RsState} {k : Kind} (hk : k ≠ .sfs) (q : List Block) :
    (s.setQueue k q).rs.sfsQueue = s.rs.sfsQueue :=
  queue_setQueue_of_ne s.rs hk.symm q

/-- A block of another kind does not reach the SFS queue. -/
theorem enter_sfsQueue {s : RsState} {b b' : Block} {ix : Index} {q : List Block}
    (hk : b.kind ≠ .sfs) (h : apnUpdateIds s.index b = some (b', ix)) :
    ((s.setIndex ix).setQueue b'.kind q).rs.sfsQueue = s.rs.sfsQueue := by
  rw [sfsQueue_setQueue (by rwa [assignBlock_kind h])]
  rfl

theorem applyOp_sfsQueue {s s' : RsState} {op : Op} {ret : ℤ} (hop : op.leavesSfs)
    (hne : s.rs.sfsQueue ≠ []) (h : applyOp s op = some (ret, s')) : s'.rs.sfsQueue = s.rs.sfsQueue := by
  cases op with
  | add b =>
    rw [applyOp, apnAdd] at h
    split at h
    · cases h
      rfl
    · obtain ⟨⟨b', ix⟩, hb, h⟩ := bind_eq_some_iff.mp h
      cases h
      exact enter_sfsQueue hop hb
  | insert b id =>
    rw [applyOp, apnInsert] at h
    split at h
    · cases h
      rfl
    · rename_i place hplace
      obtain ⟨⟨b', ix⟩, hb, h⟩ := bind_eq_some_iff.mp h
      cases h
      have hk : b.kind ≠ .sfs := by
        intro hk
        rw [insertPlace, hk] at hplace
        simp [hne] at hplace
      exact enter_sfsQueue hk hb
  | _ => exact hop.elim

theorem applyOps_sfsQueue {ops : List Op} : ∀ {s s' : RsState}, (∀ op ∈ ops, op.leavesSfs) →
    s.rs.sfsQueue ≠ [] → applyOps s ops = some s' → s'.rs.sfsQueue = s.rs.sfsQueue := by
  induction ops with
  | nil =>
    intro s s' _ _ h
    rw [← some.inj h]
  | cons op ops ih =>
    intro s s' hops hne h
    obtain ⟨⟨ret, s₁⟩, hop, h⟩ := bind_eq_some_iff.mp h
    have hq := applyOp_sfsQueue (hops op mem_cons_self) hne hop
    rw [← hq] at hne ⊢
    exact ih (fun o ho => hops o (mem_cons_of_mem _ ho)) hne h

/-- Every SFS rule is in the block that `pe_sfs_getrules` takes its candidates from. -/
def SfsEnforced (rs : Ruleset) : Prop :=
  ∃ b, rs.sfsQueue = [b] ∧ rs.sfsQueue.head? = some b ∧
    ∀ r ∈ rs.sfsQueue.flatMap (·.chain), r ∈ b.chain

/-- One SFS block with all SFS rules, after an accepted text with at most one SFS module and any calls
    of `apn_add` and `apn_insert`, none of which adds an SFS block. -/
theorem sfs_rules_enforced {i : Input} {st : Statics} {rnd : Rand} {r : ParseResult} {ops : List Op}
    {s : RsState} (h : apnParse i st rnd = some r) (hret : r.ret = 0)
    (hone : (inputTokens i st).count (.kw .sfs) ≤ 1) (hops : ∀ op ∈ ops, op.leavesSfs)
    (hrun : applyOps ⟨r.rs, r.rnd⟩ ops = some s) : SfsEnforced s.rs := by
  obtain ⟨b, hb⟩ := accepted_one_sfs (apnParse_outcome h) hret hone
  have hs : s.rs.sfsQueue = [b] := by
    rw [applyOps_sfsQueue hops (by simp [hb]) hrun, hb]
  exact ⟨b, hs, by simp [hs], by simp [hs]⟩

/-- One SFS module, and a sandbox block for `apn_add`. -/
def oneSfsText : String := "sfs \x7b\ndefault any deny\n\x7d\n"

theorem sfs_rules_enforced_add : ∃ r s, apnParse (plain oneSfsText) Statics.init zeros = some r ∧
    applyOps ⟨r.rs, r.rnd⟩ [.add ⟨100, 0, .sb, [], Flags.none, []⟩] = some s ∧
    s.rs.sbQueue.length = 1 ∧ SfsEnforced s.rs := by
  have h : ((apnParse (plain oneSfsText) Statics.init zeros).bind fun r =>
      (applyOps ⟨r.rs, r.rnd⟩ [.add ⟨100, 0, .sb, [], Flags.none, []⟩]).map fun s =>
        (r.ret, s.rs.sbQueue.length)) = some (0, 1) := by decide +kernel
  obtain ⟨r, hr, h⟩ := Option.bind_eq_some_iff.mp h
  obtain ⟨s, hs, h⟩ := Option.map_eq_some_iff.mp h
  obtain ⟨hret, hlen⟩ := Prod.mk.inj h
  refine ⟨r, s, hr, hs, hlen, sfs_rules_enforced hr hret (by decide +kernel) ?_ hs⟩
  simp [Op.leavesSfs]

/-- The rule of the second module is never looked at. -/
def twoSfsText : String := "sfs \x7b\ndefault any allow\n\x7d\nsfs \x7b\ndefault any deny\n\x7d\n"

theorem second_sfs_block_ignored : ∃ r, apnParse (plain twoSfsText) Statics.init zeros = some r ∧
    r.ret = 0 ∧ r.rs.sfsQueue.length = 2 ∧ ¬ SfsEnforced r.rs := by
  have h : (apnParse (plain twoSfsText) Statics.init zeros).map
      (fun r => (r.ret, r.rs.sfsQueue.length)) = some (0, 2) := by decide +kernel
  obtain ⟨r, hr, h⟩ := Option.map_eq_some_iff.mp h
  obtain ⟨hret, hlen⟩ := Prod.mk.inj h
  refine ⟨r, hr, hret, hlen, ?_⟩
  rintro ⟨b, hb, -⟩
  simp [hb] at hlen

end Anoubis.Apn

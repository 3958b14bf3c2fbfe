import Anoubis.Apn.IndexRuns
import Anoubis.Lib.Threaded

/-! Calls of `apn_assign_id`.

    `apn_assign_id` takes random numbers modulo `maxid`, doubles `maxid` if they do not help and ends in a
    linear search from `e % maxid` on. It is entered for the rules of a text that have no ID, for the SFS
    block that `init_sfs_rule` makes, and by every function that adds rules.

        maxid ≠ 0 and 0 free --> call --> maxid ≠ 0 and 0 free --> call --> …

    Explicit IDs are the way out of this invariant: `apn_insert_id` puts a 64 bit ID into the 32 bit
    `maxid`, and what is left of a multiple of `2 ^ 32` is 0. -/

namespace Anoubis.Apn

open List

open Anoubis.Lib Option

/-! ### The calls of a run -/

/-- A call of `apn_assign_id`: the index when it is entered, and the address of the rule. -/
abbrev AssignCall := Index × ℕ

/-- The calls for the rules of a chain whose ID satisfies `sel`. -/
def chainCalls (sel : ℕ → Bool) : Index → List Rule → List AssignCall
  | _, [] => []
  | ix, r :: chain =>
    if sel r.id then [(ix, r.ptr)] ++ (apnAssignId ix r.ptr).elim [] (fun p => chainCalls sel p.2 chain)
    else chainCalls sel ix chain

/-- The calls for a block. -/
def blockCalls (sel : ℕ → Bool) (ix : Index) (b : Block) : List AssignCall :=
  chainCalls sel ix b.chain ++
    (assignChain sel ix b.chain).elim [] (fun p => if sel b.id then [(p.2, b.ptr)] else [])

/-- The calls of `apn_assign_ids_chain`. -/
def queueCalls : Index → List Block → List AssignCall
  | _, [] => []
  | ix, b :: queue => blockCalls (fun id => id = 0) ix b ++
      (apnAssignIdsOne ix b).elim [] (fun p => queueCalls p.2 queue)

/-- The calls of `apn_assign_ids`: the queues in the order ALF, SFS, sandbox, context. -/
def idsCalls (s : RsState) : List AssignCall :=
  queueCalls s.index s.rs.alfQueue ++ (apnAssignIdsChain s.index s.rs.alfQueue).elim [] fun p =>
    queueCalls p.2 s.rs.sfsQueue ++ (apnAssignIdsChain p.2 s.rs.sfsQueue).elim [] fun p =>
      queueCalls p.2 s.rs.sbQueue ++ (apnAssignIdsChain p.2 s.rs.sbQueue).elim [] fun p =>
        queueCalls p.2 s.rs.ctxQueue

/-- The calls of `apn_insert`. -/
def insertCalls (s : RsState) (b : Block) (id : ℕ) : List AssignCall :=
  (insertPlace s.rs b.kind id).elim [] (fun _ => blockCalls (fun _ => true) s.index b)

/-- The calls of `init_sfs_rule`. -/
def sfsCalls (s : RsState) (ptr : ℕ) : List AssignCall :=
  if s.rs.sfsQueue ≠ [] then [] else insertCalls s ⟨ptr, 0, .sfs, [], Flags.none, []⟩ 0

/-- The calls of `apn_parse1` behind `yyparse`. -/
def finishCalls (ok : Bool) (s : RsState) (ptr : ℕ) : List AssignCall :=
  idsCalls s ++ (apnAssignIds s).elim [] (fun s => if ok then sfsCalls s ptr else [])

/-- The calls of `apn_parse1`. -/
def parse1Calls (d : Dialect) (i : Input) (st : Statics) (rnd : Rand) : List AssignCall :=
  let p := yyparse (i.env d) (st.get d) i.text
  finishCalls p.errs.isEmpty ⟨p.rs, rnd⟩ (i.addr p.next)

/-- The calls of `apn_parse`: those of the old grammar come behind those of the current one. -/
def parseCalls (i : Input) (st : Statics) (rnd : Rand) : List AssignCall :=
  parse1Calls .current i st rnd ++ (apnParse1 .current i st rnd).elim [] (fun r =>
    if r.ret ≠ 0 ∧ r.rs.version ≠ 0 ∧ minVersion .v042 ≤ r.rs.version ∧ r.rs.version ≤ maxVersion .v042 then
      parse1Calls .v042 i r.statics r.rnd
    else [])

/-- The calls of `apn_escalation_splice`. -/
def spliceCalls : Index → List Rule → List AssignCall := chainCalls (fun _ => true)

/-- The calls of one operation. -/
def opCalls (s : RsState) : Op → List AssignCall
  | .add b => if s.rs.maxid = uintMax then [] else blockCalls (fun _ => true) s.index b
  | .insert b id => insertCalls s b (id % uintMod)
  | .insertRule k rule id =>
    if apnVerifyTypes k rule.body then
      (rulePlace s.rs k rule (anchorId s.rs k (id % uintMod))).elim []
        (fun _ => if rule.id = 0 then [(s.index, rule.ptr)] else [])
    else []
  | .copyinsert k nrule id filename subject alloc =>
    (copyBlock s.rs nrule (id % uintMod) filename subject k alloc).elim []
      (fun p => insertCalls s p.1 (p.2 % uintMod))
  | .splice k anchor chain =>
    (splicePlace s.rs k anchor chain).elim [] (fun _ => spliceCalls s.index chain)
  | .remove _ | .clean _ => []

/-- The calls of a sequence of operations. -/
def opsCalls : RsState → List Op → List AssignCall
  | _, [] => []
  | s, op :: ops => opCalls s op ++ (applyOp s op).elim [] (fun p => opsCalls p.2 ops)

/-- All calls for a text and the operations on its ruleset. -/
def runCalls (i : Input) (st : Statics) (rnd : Rand) (ops : List Op) : List AssignCall :=
  parseCalls i st rnd ++ (apnParse i st rnd).elim [] (fun r => opsCalls ⟨r.rs, r.rnd⟩ ops)

/-! ### One call -/

/-- The division is defined, and the ID that is assigned is a free one from 1 to UINT_MAX. -/
def SafeCall (ix : Index) (e : ℕ) : Prop :=
  ix.maxid ≠ 0 ∧ ∃ nid ix', apnAssignId ix e = some (nid, ix') ∧ 1 ≤ nid ∧ nid ≤ uintMax ∧
    rbFind ix.idtree nid = none

/-- `maxid` is not 0, and no rule has the ID 0. -/
structure Sane (ix : Index) : Prop where
  pos : 0 < ix.maxid
  lt : ix.maxid < uintMod
  zero : rbFind ix.idtree 0 = none

/-- A search that does not end at 0 has not come to 0. -/
theorem linearSearch_pos {root : List IdEntry} {maxid : ℕ} (hzero : rbFind root 0 = none) (n : ℕ) :
    ∀ {start nid : ℕ}, start < maxid → linearSearch root maxid n start = some nid → 0 < nid →
      0 < start ∧ start ≤ nid ∧ nid < maxid ∧ rbFind root nid = none := by
  have hstop : ∀ {n nid}, linearSearch root maxid n 0 = some nid → nid = 0 := by
    intro n nid h
    cases n with
    | zero => cases h
    | succ n =>
      rw [linearSearch, hzero] at h
      exact (some.inj h).symm
  induction n with
  | zero => intro start nid _ h; cases h
  | succ n ih =>
    intro start nid hlt h hpos
    have hstart : start ≠ 0 := by
      rintro rfl
      exact absurd (hstop h) hpos.ne'
    rw [linearSearch] at h
    split at h
    · rename_i hfound
      by_cases hend : start + 1 < maxid
      · rw [Nat.mod_eq_of_lt hend] at h
        obtain ⟨-, h2, h3, h4⟩ := ih hend h hpos
        exact ⟨by omega, by omega, h3, h4⟩
      · have hwrap : (start + 1) % maxid = 0 := by
          rw [show start + 1 = maxid by omega, Nat.mod_self]
        rw [hwrap] at h
        exact absurd (hstop h) hpos.ne'
    · rename_i hfree
      cases h
      exact ⟨by omega, le_refl _, hlt, by simpa using hfree⟩

/-- A call goes well if and only if a random ID is found or the linear search ends before it wraps around. -/
theorem Sane.safe_iff {ix : Index} (h : Sane ix) (e : ℕ) : SafeCall ix e ↔ AssignOk ix e := by
  obtain ⟨hm, hfound⟩ := randomLoop_spec ix.idtree 32 ix.rnd h.pos h.lt
  rw [SafeCall, apnAssignId, if_neg h.pos.ne', AssignOk]
  generalize randomLoop ix.idtree 32 ix.maxid ix.rnd = res at hm hfound
  obtain ⟨found, maxid, rnd⟩ := res
  simp only at hm
  cases found with
  | some nid =>
    obtain ⟨hfree, hpos, hlt⟩ := hfound nid rfl
    refine iff_of_true ⟨h.pos.ne', nid, _, rfl, hpos, ?_, hfree⟩ (.inl rfl)
    rw [uintMax]
    omega
  | none =>
    have hstart : e % maxid < maxid := Nat.mod_lt _ hm.1
    constructor
    · rintro ⟨-, nid, ix', hassign, hpos, -, hfree⟩
      obtain ⟨n, hs, heq⟩ := map_eq_some_iff.mp hassign
      obtain ⟨rfl, -⟩ := Prod.mk.inj heq
      obtain ⟨h1, h2, h3, h4⟩ := linearSearch_pos h.zero maxid hstart hs hpos
      exact .inr ⟨h1, n, h2, h3, h4⟩
    · intro hok
      obtain ⟨hpos, k, hle, hk, hfree⟩ := hok.resolve_left (by simp)
      simp only at hpos hle hk
      obtain ⟨nid, hs, hge, hlek, hnfree⟩ := linearSearch_spec hk hfree maxid hle (by omega)
      refine ⟨h.pos.ne', nid, ⟨rbInsertEntry ix.idtree ⟨nid, e⟩, maxid, rnd⟩, by simp [hs], ?_, ?_, hnfree⟩
      · omega
      · rw [uintMax]
        omega

theorem rbFind_rbInsertEntry_zero {root : List IdEntry} {n : IdEntry} (h : rbFind root 0 = none)
    (hn : n.key ≠ 0) : rbFind (rbInsertEntry root n) 0 = none := by
  rw [rbFind_eq_none_iff, mem_keys_rbInsertEntry, not_or, ← rbFind_eq_none_iff]
  exact ⟨hn.symm, h⟩

/-- A call that goes well keeps the invariant. -/
theorem Sane.assign {ix ix' : Index} {e nid : ℕ} (h : Sane ix) (hok : AssignOk ix e)
    (ha : apnAssignId ix e = some (nid, ix')) : Sane ix' := by
  obtain ⟨-, nid', ix₁, ha', hpos, -, -⟩ := (h.safe_iff e).mpr hok
  rw [ha] at ha'
  cases ha'
  obtain ⟨hm, -⟩ := randomLoop_spec ix.idtree 32 ix.rnd h.pos h.lt
  rw [apnAssignId, if_neg h.pos.ne'] at ha
  obtain ⟨n, -, heq⟩ := map_eq_some_iff.mp ha
  cases heq
  exact ⟨hm.1, hm.2, rbFind_rbInsertEntry_zero h.zero (by dsimp only; omega)⟩

/-- IDs that leave something of themselves in 32 bit. -/
def Narrows (id : ℕ) : Prop := id = 0 ∨ id % uintMod ≠ 0

theorem Sane.insertId {ix : Index} (h : Sane ix) {key : ℕ} (hkey : key % uintMod ≠ 0) (data : ℕ) :
    Sane (apnInsertId ix key data) := by
  have h0 : key ≠ 0 := by
    rintro rfl
    exact hkey rfl
  have hmax : 0 < (if ix.maxid < 10 then 10 else ix.maxid) ∧
      (if ix.maxid < 10 then 10 else ix.maxid) < uintMod := by
    have := h.lt
    split
    · exact ⟨by omega, by decide⟩
    · exact ⟨by omega, this⟩
  have hzero : rbFind (rbInsertEntry ix.idtree ⟨key, data⟩) 0 = none := rbFind_rbInsertEntry_zero h.zero h0
  rw [apnInsertId]
  generalize (if ix.maxid < 10 then 10 else ix.maxid) = m at hmax
  refine ⟨?_, ?_, hzero⟩
  · dsimp only
    split
    · exact Nat.pos_of_ne_zero hkey
    · exact hmax.1
  · dsimp only
    split
    · exact Nat.mod_lt _ (by decide)
    · exact hmax.2

theorem Sane.insertIds {b : Block} {ix : Index} (h : Sane ix) (hb : ∀ id ∈ b.explicit, Narrows id) :
    Sane (insertIds ix b) := by
  refine insertIds_keeps (fun ix e he hsane => ?_) h
  have h0 : e.key ≠ 0 := by simpa using (mem_filter.mp he).2
  exact hsane.insertId ((hb e.key he).resolve_left h0) e.data

/-! ### The calls and the index -/

/-- `apn_assign_id` as a step of the index. -/
def assignStep (ix : Index) (e : ℕ) : Option Index := (apnAssignId ix e).map (·.2)

/-- Calls of `apn_assign_id`, and changes of the index that keep the invariant. -/
abbrev AssignRun : Index → List AssignCall → Option Index → Prop :=
  Threaded assignStep (fun ix ix' => Sane ix → Sane ix')

/-- In a run all calls go well iff a random ID is found or the linear search ends early enough at each. -/
theorem AssignRun.safe_iff {ix : Index} {calls : List AssignCall} {fin : Option Index}
    (h : AssignRun ix calls fin) (hix : Sane ix) :
    (∀ c ∈ calls, SafeCall c.1 c.2) ↔ ∀ c ∈ calls, AssignOk c.1 c.2 := by
  refine h.forall_iff (fun hs hsane => hs hsane) (fun hsane => hsane.safe_iff _) ?_ hix
  intro ix ix' e hsane hok hstep
  obtain ⟨⟨nid, ix₁⟩, ha, rfl⟩ := map_eq_some_iff.mp hstep
  exact hsane.assign hok ha

/-- What is done with the value does not matter for the index. -/
theorem map_snd_bind {α β : Type} (x : Option (α × Index)) (f : α → β) :
    (x.bind fun p => some (f p.1, p.2)).map (·.2) = x.map (·.2) := by
  cases x <;> rfl

theorem assignRun_chain {sel : ℕ → Bool} {chain : List Rule} : ∀ {ix : Index},
    AssignRun ix (chainCalls sel ix chain) ((assignChain sel ix chain).map (·.2)) := by
  induction chain with
  | nil => intro ix; exact .done ix
  | cons r chain ih =>
    intro ix
    rw [chainCalls, assignChain]
    by_cases hsel : sel r.id = true
    · rw [if_pos hsel, if_pos hsel]
      refine Threaded.seq (.single ix r.ptr) fun p _ => ?_
      have hrest := @ih p.2
      rw [← map_snd_bind _ (List.cons { r with id := p.1 })] at hrest
      exact hrest
    · rw [if_neg hsel, if_neg hsel]
      have hrest := @ih ix
      rw [← map_snd_bind _ (List.cons r)] at hrest
      exact hrest

theorem assignRun_block {sel : ℕ → Bool} {ix : Index} {b : Block} :
    AssignRun ix (blockCalls sel ix b) ((assignBlock sel ix b).map (·.2)) := by
  rw [blockCalls, assignBlock]
  refine Threaded.seq assignRun_chain fun p _ => ?_
  by_cases hsel : sel b.id = true
  · simp only [hsel, if_true]
    have hlast : AssignRun p.2 [(p.2, b.ptr)] (assignStep p.2 b.ptr) := .single p.2 b.ptr
    rw [assignStep, ← map_snd_bind _ (fun nid => { b with id := nid, chain := p.1 })] at hlast
    exact hlast
  · simp only [hsel, Bool.false_eq_true, if_false]
    exact .done p.2

theorem assignRun_queue {q : List Block} : ∀ {ix : Index},
    AssignRun ix (queueCalls ix q) ((apnAssignIdsChain ix q).map (·.2)) := by
  induction q with
  | nil => intro ix; exact .done ix
  | cons b q ih =>
    intro ix
    rw [queueCalls, apnAssignIdsChain]
    refine Threaded.seq assignRun_block fun p _ => ?_
    have hrest := @ih p.2
    rw [← map_snd_bind _ (List.cons p.1)] at hrest
    exact hrest

theorem assignRun_ids (s : RsState) : AssignRun s.index (idsCalls s) ((apnAssignIds s).map (·.index)) := by
  rw [idsCalls, apnAssignIds]
  refine Threaded.seq assignRun_queue fun alf _ => ?_
  refine Threaded.seq assignRun_queue fun sfs _ => ?_
  refine Threaded.seq assignRun_queue fun sb _ => ?_
  have hctx := @assignRun_queue s.rs.ctxQueue sb.2
  exact hctx.andThen fun ctx _ => ⟨_, rfl, id⟩

theorem assignRun_insert (s : RsState) (b : Block) (id : ℕ) :
    AssignRun s.index (insertCalls s b id) ((apnInsert s b id).map (·.2.index)) := by
  rw [insertCalls, apnInsert]
  cases insertPlace s.rs b.kind id with
  | none => exact .done s.index
  | some place =>
    have hblock := @assignRun_block (fun _ => true) s.index b
    exact hblock.andThen fun p _ => ⟨_, rfl, by rw [index_setQueue, index_setIndex]; exact fun h => h⟩

theorem assignRun_finish (ok : Bool) (s : RsState) (ptr : ℕ) :
    AssignRun s.index (finishCalls ok s ptr) ((finishParse ok s ptr).map (·.2.index)) := by
  rw [finishCalls, finishParse]
  refine Threaded.seq (assignRun_ids s) fun s₁ _ => ?_
  have hinit : AssignRun s₁.index (if ok then sfsCalls s₁ ptr else [])
      ((initIfOk ok s₁ ptr).map (·.2.index)) := by
    rw [initIfOk]
    cases ok with
    | false => exact .done s₁.index
    | true =>
      rw [if_pos rfl, if_pos rfl, sfsCalls, initSfsRule]
      split
      · exact .done s₁.index
      · exact assignRun_insert s₁ _ 0
  refine hinit.andThen fun p _ => ⟨_, rfl, fun h => ?_⟩
  dsimp only
  split
  · exact h
  · exact ⟨h.pos, h.lt, rfl⟩

/-! ### Operations -/

theorem Sane.of_sublist {ix ix' : Index} (h : Sane ix) (hm : ix'.maxid = ix.maxid)
    (hs : ix'.idtree.Sublist ix.idtree) : Sane ix' where
  pos := hm ▸ h.pos
  lt := hm ▸ h.lt
  zero := by
    have hz := h.zero
    rw [rbFind_eq_none_iff] at hz ⊢
    exact fun hmem => hz ((hs.map _).subset hmem)

theorem rbRemoveEntries_sublist (ptrs : List ℕ) : ∀ root : List IdEntry,
    (ptrs.foldl rbRemoveEntry root).Sublist root := by
  induction ptrs with
  | nil => intro root; exact .refl root
  | cons p ptrs ih => intro root; exact (ih _).trans eraseP_sublist

/-- Removing rules leaves a part of the index. -/
theorem apnRemove_index (s : RsState) (id : ℕ) : (apnRemove s id).2.rs.maxid = s.rs.maxid ∧
    (apnRemove s id).2.rs.idtree.Sublist s.rs.idtree := by
  have hset (rs : Ruleset) (k : Kind) (q : List Block) :
      (rs.setQueue k q).maxid = rs.maxid ∧ (rs.setQueue k q).idtree = rs.idtree := by
    cases k <;> exact ⟨rfl, rfl⟩
  have hsame : s.rs.maxid = s.rs.maxid ∧ s.rs.idtree.Sublist s.rs.idtree := ⟨rfl, .refl _⟩
  rw [apnRemove]
  split
  · exact hsame
  · split
    · exact hsame
    · split
      · split
        · exact hsame
        · split
          · exact hsame
          · rw [rs_setQueue, (hset _ _ _).1, (hset _ _ _).2]
            exact ⟨rfl, eraseP_sublist.trans (rbRemoveEntries_sublist _ _)⟩
      · split
        · exact hsame
        · split
          · exact hsame
          · rw [rs_setQueue, (hset _ _ _).1, (hset _ _ _).2]
            exact ⟨rfl, eraseP_sublist⟩

theorem apnCleanRuleset_index (rs : Ruleset) (check : Scope → Bool) :
    (apnCleanRuleset rs check).maxid = rs.maxid ∧ (apnCleanRuleset rs check).idtree.Sublist rs.idtree := by
  have hone (rs : Ruleset) (k : Kind) : (apnCleanRuleq check rs k).maxid = rs.maxid ∧
      (apnCleanRuleq check rs k).idtree.Sublist rs.idtree := by
    rw [apnCleanRuleq]
    cases k <;> exact ⟨rfl, rbRemoveEntries_sublist _ _⟩
  have hfold : ∀ (ks : List Kind) (rs : Ruleset), (ks.foldl (apnCleanRuleq check) rs).maxid = rs.maxid ∧
      (ks.foldl (apnCleanRuleq check) rs).idtree.Sublist rs.idtree := by
    intro ks
    induction ks with
    | nil => intro rs; exact ⟨rfl, .refl _⟩
    | cons k ks ih =>
      intro rs
      obtain ⟨h1, h2⟩ := ih (apnCleanRuleq check rs k)
      exact ⟨h1.trans (hone rs k).1, h2.trans (hone rs k).2⟩
  exact hfold Kind.all rs

theorem assignRun_splice {append : Bool} {anchor : ℕ} {chain : List Rule} :
    ∀ {ix : Index} {dst : List Rule}, AssignRun ix (spliceCalls ix chain)
      ((spliceLoop append anchor ix dst chain).map (·.2)) := by
  induction chain with
  | nil => intro ix dst; exact .done ix
  | cons r chain ih =>
    intro ix dst
    rw [spliceCalls, chainCalls, if_pos rfl, spliceLoop]
    exact Threaded.seq (.single ix r.ptr) fun p _ => ih

/-- The rule that an operation takes over has no ID that 32 bit turn into 0. -/
def Op.Narrows : Op → Prop
  | .insertRule _ rule _ => Apn.Narrows rule.id
  | _ => True

theorem assignRun_insertRule (s : RsState) (k : Kind) (rule : Rule) (id : ℕ)
    (hid : Narrows rule.id) : AssignRun s.index (opCalls s (.insertRule k rule id))
      ((applyOp s (.insertRule k rule id)).map (·.2.index)) := by
  rw [opCalls, applyOp, apnInsertRule]
  split
  · rw [apnInsertRuleCommon]
    cases rulePlace s.rs k rule (anchorId s.rs k (id % uintMod)) with
    | none => exact .done s.index
    | some bp =>
      have henter : AssignRun s.index (if rule.id = 0 then [(s.index, rule.ptr)] else [])
          ((enterRule s.index rule).map (·.2)) := by
        rw [enterRule]
        by_cases h0 : rule.id = 0
        · rw [if_pos h0, if_pos h0]
          exact .single s.index rule.ptr
        · rw [if_neg h0, if_neg h0]
          exact .silent (fun h => h.insertId (hid.resolve_left h0) rule.ptr) (.done _)
      exact henter.andThen fun p _ => ⟨_, rfl, by rw [index_setQueue, index_setIndex]; exact fun h => h⟩
  · exact .done s.index

/-- The calls of an operation. -/
theorem assignRun_op (s : RsState) (op : Op) (hop : op.Narrows) :
    AssignRun s.index (opCalls s op) ((applyOp s op).map (·.2.index)) := by
  cases op with
  | add b =>
    rw [opCalls, applyOp, apnAdd]
    split
    · exact .done s.index
    · have hblock := @assignRun_block (fun _ => true) s.index b
      exact hblock.andThen fun p _ => ⟨_, rfl, by rw [index_setQueue, index_setIndex]; exact fun h => h⟩
  | insert b id => exact assignRun_insert s b (id % uintMod)
  | insertRule k rule id => exact assignRun_insertRule s k rule id hop
  | copyinsert k nrule id filename subject alloc =>
    rw [opCalls, applyOp, apnCopyinsertCommon]
    cases copyBlock s.rs nrule (id % uintMod) filename subject k alloc with
    | none => exact .done s.index
    | some p => exact assignRun_insert s p.1 (p.2 % uintMod)
  | splice k anchor chain =>
    rw [opCalls, applyOp, apnEscalationSplice]
    cases splicePlace s.rs k anchor chain with
    | none => exact .done s.index
    | some p =>
      have hloop := @assignRun_splice p.2 anchor chain s.index p.1.chain
      exact hloop.andThen fun q _ => ⟨_, rfl, by rw [index_setQueue, index_setIndex]; exact fun h => h⟩
  | remove id =>
    obtain ⟨h1, h2⟩ := apnRemove_index s (id % uintMod)
    have hrnd : (apnRemove s (id % uintMod)).2.index.maxid = s.index.maxid := h1
    exact .silent (fun h => h.of_sublist hrnd h2) (.done _)
  | clean check =>
    obtain ⟨h1, h2⟩ := apnCleanRuleset_index s.rs check
    have hix : AssignRun s.index [] (some (⟨apnCleanRuleset s.rs check, s.rnd⟩ : RsState).index) :=
      .silent (fun h => h.of_sublist h1 h2) (.done _)
    exact hix

theorem assignRun_ops {ops : List Op} : ∀ {s : RsState}, (∀ op ∈ ops, op.Narrows) →
    AssignRun s.index (opsCalls s ops) ((applyOps s ops).map (·.index)) := by
  induction ops with
  | nil => intro s _; exact .done s.index
  | cons op ops ih =>
    intro s hops
    rw [opsCalls, applyOps]
    exact Threaded.seq (assignRun_op s op (hops op mem_cons_self)) fun p _ =>
      ih fun x hx => hops x (mem_cons_of_mem _ hx)

end Anoubis.Apn

import Anoubis.Apn.Scan
import Anoubis.Apn.IdOps

/-! The outcome of a parse.

    `apn_parse` is `yyparse` with one of the two grammars, followed by the assignment of IDs. The
    outcome depends on the random numbers only through the IDs that are assigned: whether the text is
    accepted, and the rules as they were written, are functions of the text, the flags and the
    characters that were pushed back before. -/

namespace Anoubis.Apn

open List

open Anoubis.Lib Option

/-! ### Assigned IDs -/

/-- `r'` is `r`, with a new ID if it had none. -/
structure AutoRule (r r' : Rule) : Prop where
  id : r.id ≠ 0 → r'.id = r.id
  same : r' = { r with id := r'.id }

/-- `b'` is `b`, with a new ID if it had none, and the same for its rules. -/
structure AutoBlock (b b' : Block) : Prop where
  id : b.id ≠ 0 → b'.id = b.id
  chain : List.Forall₂ AutoRule b.chain b'.chain
  same : b' = { b with id := b'.id, chain := b'.chain }

/-- The same blocks in the same order, up to IDs that were assigned. -/
abbrev AutoQueue (q q' : List Block) : Prop := List.Forall₂ AutoBlock q q'

/-- Doubling never makes UINT_MAX of another number, and it leaves UINT_MAX alone. -/
theorem randomLoop_maxid (root : List IdEntry) (n : ℕ) : ∀ (maxid : ℕ) (rnd : Rand),
    (randomLoop root n maxid rnd).2.1 = uintMax ↔ maxid = uintMax := by
  induction n with
  | zero => intro maxid rnd; rfl
  | succ n ih =>
    intro maxid rnd
    rw [randomLoop]
    split
    · rfl
    · split
      · rename_i hlt
        rw [ih]
        simp only [uintMax, uintMod] at hlt ⊢
        omega
      · rfl

variable {ix ix' : Index} {sel : ℕ → Bool} {b b' : Block} {q : List Block} {s s' : RsState} {ret : ℤ}
variable {p : Parsed}

theorem apnAssignId_maxid {e nid : ℕ} (h : apnAssignId ix e = some (nid, ix')) :
    ix'.maxid = uintMax ↔ ix.maxid = uintMax := by
  rw [apnAssignId] at h
  split at h
  · cases h
  · have hmax := randomLoop_maxid ix.idtree 32 ix.maxid ix.rnd
    generalize randomLoop ix.idtree 32 ix.maxid ix.rnd = r at h hmax
    obtain ⟨found, maxid, rnd⟩ := r
    obtain ⟨k, -, heq⟩ := map_eq_some_iff.mp h
    cases heq
    exact hmax

/-- Rules without ID get one, the others keep theirs. -/
theorem assignChain_auto {chain : List Rule} :
    ∀ {ix ix' : Index} {chain' : List Rule}, (∀ r ∈ chain, sel r.id = true → r.id = 0) →
      assignChain sel ix chain = some (chain', ix') →
      List.Forall₂ AutoRule chain chain' ∧ (ix'.maxid = uintMax ↔ ix.maxid = uintMax) := by
  induction chain with
  | nil =>
    intro ix ix' chain' _ h
    cases h
    exact ⟨List.Forall₂.nil, .rfl⟩
  | cons r chain ih =>
    intro ix ix' chain' hsel h
    have hsel' : ∀ r ∈ chain, sel r.id = true → r.id = 0 := fun x hx =>
      hsel x (mem_cons_of_mem _ hx)
    rw [assignChain] at h
    split at h
    · rename_i hs
      obtain ⟨⟨nid, ix₁⟩, ha, h⟩ := bind_eq_some_iff.mp h
      obtain ⟨⟨chain₁, ix₂⟩, hc, h⟩ := bind_eq_some_iff.mp h
      cases h
      obtain ⟨h1, h2⟩ := ih hsel' hc
      exact ⟨List.Forall₂.cons ⟨fun hne => absurd (hsel r mem_cons_self hs) hne, rfl⟩ h1,
        h2.trans (apnAssignId_maxid ha)⟩
    · obtain ⟨⟨chain₁, ix₂⟩, hc, h⟩ := bind_eq_some_iff.mp h
      cases h
      obtain ⟨h1, h2⟩ := ih hsel' hc
      exact ⟨List.Forall₂.cons ⟨fun _ => rfl, rfl⟩ h1, h2⟩

theorem assignBlock_auto (hsel : ∀ id ∈ b.id :: b.chain.map (·.id), sel id = true → id = 0)
    (h : assignBlock sel ix b = some (b', ix')) : AutoBlock b b' ∧ (ix'.maxid = uintMax ↔ ix.maxid = uintMax) := by
  rw [assignBlock] at h
  obtain ⟨⟨chain, ix₁⟩, hc, h⟩ := bind_eq_some_iff.mp h
  obtain ⟨h1, h2⟩ := assignChain_auto (fun r hr => hsel r.id (mem_cons_of_mem _ (mem_map_of_mem hr))) hc
  dsimp only at h
  split at h
  · rename_i hs
    obtain ⟨⟨nid, ix₂⟩, ha, h⟩ := bind_eq_some_iff.mp h
    cases h
    exact ⟨⟨fun hne => absurd (hsel _ mem_cons_self hs) hne, h1, rfl⟩,
      (apnAssignId_maxid ha).trans h2⟩
  · cases h
    exact ⟨⟨fun _ => rfl, h1, rfl⟩, h2⟩

theorem apnAssignIdsChain_auto : ∀ {ix ix' : Index} {q' : List Block},
    apnAssignIdsChain ix q = some (q', ix') → AutoQueue q q' ∧ (ix'.maxid = uintMax ↔ ix.maxid = uintMax) := by
  induction q with
  | nil =>
    intro ix ix' q' h
    cases h
    exact ⟨List.Forall₂.nil, .rfl⟩
  | cons b q ih =>
    intro ix ix' q' h
    obtain ⟨⟨b₁, ix₁⟩, hb, h⟩ := bind_eq_some_iff.mp h
    obtain ⟨⟨q₁, ix₂⟩, hq, h⟩ := bind_eq_some_iff.mp h
    cases h
    obtain ⟨h1, h2⟩ := assignBlock_auto (by simp) hb
    obtain ⟨h3, h4⟩ := ih hq
    exact ⟨List.Forall₂.cons h1 h3, h4.trans h2⟩

/-- `apn_assign_ids` changes nothing but IDs that are 0. -/
theorem apnAssignIds_auto (h : apnAssignIds s = some s') : (∀ k, AutoQueue (s.rs.queue k) (s'.rs.queue k)) ∧
      (s'.rs.maxid = uintMax ↔ s.rs.maxid = uintMax) ∧ s'.rs.version = s.rs.version := by
  obtain ⟨⟨alf, ix₁⟩, h1, h⟩ := bind_eq_some_iff.mp h
  obtain ⟨⟨sfs, ix₂⟩, h2, h⟩ := bind_eq_some_iff.mp h
  obtain ⟨⟨sb, ix₃⟩, h3, h⟩ := bind_eq_some_iff.mp h
  obtain ⟨⟨ctx, ix₄⟩, h4, h⟩ := bind_eq_some_iff.mp h
  cases h
  obtain ⟨a1, m1⟩ := apnAssignIdsChain_auto h1
  obtain ⟨a2, m2⟩ := apnAssignIdsChain_auto h2
  obtain ⟨a3, m3⟩ := apnAssignIdsChain_auto h3
  obtain ⟨a4, m4⟩ := apnAssignIdsChain_auto h4
  refine ⟨fun k => ?_, m4.trans (m3.trans (m2.trans m1)), rfl⟩
  cases k with
  | alf => exact a1
  | sfs => exact a2
  | sb => exact a3
  | ctx => exact a4

/-! ### One grammar -/

/-- `apn_parse1` accepts what `yyparse` has left behind: no errors, and `init_sfs_rule` works. -/
def Parsed.accepts (p : Parsed) : Bool :=
  p.errs.isEmpty && (!p.rs.sfsQueue.isEmpty || p.rs.maxid ≠ uintMax)

/-- The SFS block of `init_sfs_rule`. -/
def emptySfs (ptr : ℕ) : Block := ⟨ptr, 0, .sfs, [], Flags.none, []⟩

/-- The rules of a text as they were written, with an empty SFS block if the text has none. -/
def Parsed.written (i : Input) (p : Parsed) (k : Kind) : List Block :=
  if k = .sfs ∧ p.rs.sfsQueue = [] then [emptySfs (i.addr p.next)] else p.rs.queue k

theorem AutoBlock.kind (h : AutoBlock b b') : b'.kind = b.kind := by
  rw [h.same]

/-- What `init_sfs_rule` does to a ruleset. -/
theorem initSfsRule_auto {ptr : ℕ} (h : initSfsRule s ptr = some (ret, s')) :
    s'.rs.version = s.rs.version ∧ ret = (if s.rs.sfsQueue = [] ∧ s.rs.maxid = uintMax then 1 else 0) ∧
    (ret = 0 → ∀ k, if k = .sfs ∧ s.rs.sfsQueue = [] then AutoQueue [emptySfs ptr] (s'.rs.queue k)
      else s'.rs.queue k = s.rs.queue k) := by
  rw [initSfsRule] at h
  by_cases hsfs : s.rs.sfsQueue = []
  · rw [if_neg (not_not_intro hsfs), apnInsert, insertPlace] at h
    by_cases hmax : s.rs.maxid = uintMax
    · rw [if_pos hmax] at h
      cases h
      exact ⟨rfl, by rw [if_pos ⟨hsfs, hmax⟩], by simp⟩
    · rw [if_neg hmax, if_neg (by simp [hsfs]), if_pos rfl, if_neg (by simpa [Ruleset.queue] using hsfs)] at h
      obtain ⟨⟨b, ix⟩, hb, h⟩ := bind_eq_some_iff.mp h
      cases h
      have hauto := (assignBlock_auto (by simp) hb).1
      have hkind : b.kind = .sfs := hauto.kind
      refine ⟨by rw [hkind]; rfl, by rw [if_neg (fun hc => hmax hc.2)], fun _ k => ?_⟩
      rw [hkind]
      cases k with
      | sfs =>
        rw [if_pos ⟨rfl, hsfs⟩]
        refine List.Forall₂.cons hauto ?_
        rw [Ruleset.queue, hsfs]
        exact List.Forall₂.nil
      | alf => rfl
      | sb => rfl
      | ctx => rfl
  · rw [if_pos hsfs] at h
    cases h
    refine ⟨rfl, by rw [if_neg (fun hc => hsfs hc.1)], fun _ k => ?_⟩
    rw [if_neg (fun hc => hsfs hc.2)]

theorem AutoQueue.nil_iff {q' : List Block} (h : AutoQueue q q') : q' = [] ↔ q = [] := by
  cases h with
  | nil => simp
  | cons _ _ => simp

/-- The outcome of a parse with one grammar. -/
structure Outcome (i : Input) (p : Parsed) (r : ParseResult) : Prop where
  ret : r.ret = if p.accepts then 0 else 1
  queues : r.ret = 0 → ∀ k, AutoQueue (p.written i k) (r.rs.queue k)
  empty : r.ret ≠ 0 → ∀ k, r.rs.queue k = []

variable {i : Input} {rnd : Rand} {st : Statics} {r : ParseResult}

theorem finishParse_outcome (h : finishParse p.errs.isEmpty ⟨p.rs, rnd⟩ (i.addr p.next) = some (ret, s)) :
    Outcome i p ⟨ret, s.rs, s.rnd, st⟩ ∧ s.rs.version = p.rs.version := by
  rw [finishParse] at h
  obtain ⟨s₁, ha, h⟩ := bind_eq_some_iff.mp h
  obtain ⟨hauto, hmax, hver⟩ := apnAssignIds_auto ha
  have hsfs : s₁.rs.sfsQueue = [] ↔ p.rs.sfsQueue = [] := AutoQueue.nil_iff (hauto .sfs)
  obtain ⟨⟨ret', s₂⟩, hi, h⟩ := bind_eq_some_iff.mp h
  cases h
  rw [initIfOk] at hi
  cases herr : p.errs.isEmpty with
  | false =>
    rw [herr, if_neg (by simp)] at hi
    cases hi
    refine ⟨⟨by simp [Parsed.accepts, herr], fun hc => absurd hc (Int.one_ne_zero), fun _ k => ?_⟩, hver⟩
    cases k <;> rfl
  | true =>
    rw [herr, if_pos rfl] at hi
    obtain ⟨hver', hret, hq⟩ := initSfsRule_auto hi
    have hacc : p.accepts = decide ¬ (s₁.rs.sfsQueue = [] ∧ s₁.rs.maxid = uintMax) := by
      simp only [Parsed.accepts, herr, hsfs, hmax, Bool.true_and, not_and]
      by_cases hnil : p.rs.sfsQueue = [] <;> simp [hnil]
    refine ⟨⟨?_, fun h0 k => ?_, fun h0 k => ?_⟩, ?_⟩
    · rw [hret, hacc]
      by_cases hc : s₁.rs.sfsQueue = [] ∧ s₁.rs.maxid = uintMax <;> simp [hc]
    · have hqk := hq h0 k
      simp only at h0 ⊢
      rw [if_pos h0, Parsed.written]
      simp only [hsfs] at hqk
      split at hqk
      · rename_i hc
        rwa [if_pos hc]
      · rename_i hc
        rw [if_neg hc, hqk]
        exact hauto k
    · simp only at h0 ⊢
      rw [if_neg h0]
      cases k <;> rfl
    · split
      · exact hver'.trans hver
      · exact hver'.trans hver

theorem apnParse1_outcome {d : Dialect} (h : apnParse1 d i st rnd = some r) :
    Outcome i (yyparse (i.env d) (st.get d) i.text) r ∧
      r.rs.version = (yyparse (i.env d) (st.get d) i.text).rs.version ∧
      r.statics = st.set d (yyparse (i.env d) (st.get d) i.text).pushback := by
  rw [apnParse1] at h
  obtain ⟨⟨ret, s⟩, hf, h⟩ := bind_eq_some_iff.mp h
  cases h
  obtain ⟨h1, h2⟩ := finishParse_outcome hf
  exact ⟨h1, h2, rfl⟩

/-! ### Both grammars -/

/-- The old grammar is tried. -/
def Parsed.fallsBack (p : Parsed) : Bool :=
  !p.accepts && decide (p.rs.version ≠ 0 ∧ minVersion .v042 ≤ p.rs.version ∧
    p.rs.version ≤ maxVersion .v042)

/-- The grammar whose result counts. -/
def decides (i : Input) (st : Statics) : Dialect :=
  if (yyparse (i.env .current) (st.get .current) i.text).fallsBack then .v042 else .current

/-- What the grammar whose result counts has left behind. -/
def parsed (i : Input) (st : Statics) : Parsed :=
  yyparse (i.env (decides i st)) (st.get (decides i st)) i.text

theorem Outcome.converted (h : Outcome i p r) : Outcome i p r.converted := by
  rw [ParseResult.converted]
  split
  · exact ⟨h.ret, fun h0 k => by have := h.queues h0 k; cases k <;> exact this,
      fun h0 k => by have := h.empty h0 k; cases k <;> exact this⟩
  · exact h

theorem Outcome.fallsBack_iff (h : Outcome i p r) (hver : r.rs.version = p.rs.version) :
    (r.ret ≠ 0 ∧ r.rs.version ≠ 0 ∧ minVersion .v042 ≤ r.rs.version ∧
      r.rs.version ≤ maxVersion .v042) ↔ p.fallsBack = true := by
  rw [hver, h.ret, Parsed.fallsBack, Bool.and_eq_true, decide_eq_true_eq]
  cases p.accepts <;> simp

/-- The random numbers when the IDs of the grammar that counts are assigned. -/
def randAt (i : Input) (st : Statics) (rnd : Rand) : Rand :=
  match decides i st with
  | .current => rnd
  | .v042 => ((apnParse1 .current i st rnd).map (·.rnd)).getD rnd

/-- `apn_parse` is `apn_parse1` with the grammar that counts. -/
theorem apnParse_eq (h : apnParse i st rnd = some r) : ∃ st' r₁, st'.get (decides i st) = st.get (decides i st) ∧
      apnParse1 (decides i st) i st' (randAt i st rnd) = some r₁ ∧ r = r₁.converted := by
  rw [apnParse] at h
  obtain ⟨r₁, h1, h⟩ := bind_eq_some_iff.mp h
  obtain ⟨ho, hver, hst⟩ := apnParse1_outcome h1
  have hcond := ho.fallsBack_iff hver
  split at h
  · rename_i hc
    obtain ⟨r₂, h2, h⟩ := bind_eq_some_iff.mp h
    have hd : decides i st = .v042 := by rw [decides, if_pos (hcond.mp hc)]
    rw [randAt, hd, h1]
    refine ⟨r₁.statics, r₂, ?_, h2, (some.inj h).symm⟩
    rw [hst]
    rfl
  · rename_i hc
    have hd : decides i st = .current := by rw [decides, if_neg (fun hf => hc (hcond.mpr hf))]
    rw [randAt, hd]
    exact ⟨st, r₁, rfl, h1, (some.inj h).symm⟩

/-- The outcome of `apn_parse`. -/
theorem apnParse_outcome (h : apnParse i st rnd = some r) : Outcome i (parsed i st) r := by
  obtain ⟨st', r₁, hst, h1, rfl⟩ := apnParse_eq h
  have ho := (apnParse1_outcome h1).1
  rw [hst] at ho
  rw [parsed]
  exact ho.converted

end Anoubis.Apn

import Anoubis.Pe.Alf
import Anoubis.Pe.Sfs

/-! Rules out of scope.

    A rule with a scope is a temporary permission: it counts for one task and until a deadline. The
    evaluators should decide as if rules out of scope did not exist. `scopeDb` and `scopeProc` delete
    them from the database and from the blocks that contexts point to; the results compare the three
    `pe_decide_*` functions before and after.

    ALF and SFS skip rules out of scope. The sandbox loop tests the scope of access rules only: a
    default rule counts even when its scope is over (`StaleDefault`). -/

namespace Anoubis.Pe

open List

open Anoubis.Apn Anoubis.Lib Option

/-- The rule is in scope for the task. -/
def inScope (task now : ℕ) (r : Rule) : Bool := peInScope r.scope task now

def scopeBlock (task now : ℕ) (b : Block) : Block :=
  { b with chain := b.chain.filter (inScope task now) }

/-- Delete the rules out of scope from the ALF, SFS and sandbox blocks of a ruleset. -/
def scopeRs (task now : ℕ) (rs : Ruleset) : Ruleset :=
  { rs with
    alfQueue := rs.alfQueue.map (scopeBlock task now)
    sfsQueue := rs.sfsQueue.map (scopeBlock task now)
    sbQueue := rs.sbQueue.map (scopeBlock task now) }

def ByPrio.map {α β : Type} (f : α → β) (v : ByPrio α) : ByPrio β := ⟨f v.admin, f v.user1⟩

@[simp] theorem ByPrio.get_map {α β : Type} (f : α → β) (v : ByPrio α) (p : Prio) :
    (v.map f).get p = f (v.get p) := by
  cases p <;> rfl

def scopeUser (task now : ℕ) (u : User) : User :=
  { u with prio := u.prio.map (Option.map (scopeRs task now)) }

def scopeDb (task now : ℕ) (db : PolicyDb) : PolicyDb := db.map (scopeUser task now)

/-- The context after its blocks lost the rules out of scope. -/
def scopeCtx (task now : ℕ) (c : Ctx) : Ctx :=
  { c with
    alfrule := c.alfrule.map (scopeBlock task now)
    sbrule := c.sbrule.map (scopeBlock task now) }

def scopeProc (task now : ℕ) (p : Proc) : Proc :=
  { p with
    context := p.context.map (Option.map (scopeCtx task now))
    savedCtx := p.savedCtx.map (Option.map (scopeCtx task now)) }

/-! ### Lookups commute with the deletion -/

section Lookup

variable (task now : ℕ)

theorem storedRuleset_scope (uid : ℕ) (prio : Prio) (db : PolicyDb) : storedRuleset uid prio (scopeDb task now db) =
      (storedRuleset uid prio db).map (scopeRs task now) := by
  rw [storedRuleset, storedRuleset, peUserGet, peUserGet, scopeDb, find?_map]
  have hp : (fun u : User => decide (u.uid = uid)) ∘ scopeUser task now =
      fun u => decide (u.uid = uid) := rfl
  rw [hp]
  cases db.find? (fun u => decide (u.uid = uid)) with
  | none => rfl
  | some u => simp [scopeUser]

theorem peUserGetRuleset_scope (uid : ℕ) (prio : Prio) (db : PolicyDb) :
    peUserGetRuleset uid prio (scopeDb task now db) = (peUserGetRuleset uid prio db).map (scopeRs task now) := by
  rw [peUserGetRuleset, peUserGetRuleset, storedRuleset_scope, storedRuleset_scope]
  cases storedRuleset uid prio db <;> rfl

theorem defaultBlock_scope (ispg : Bool) (queue : List Block) : defaultBlock ispg (queue.map (scopeBlock task now)) =
      (defaultBlock ispg queue).map (scopeBlock task now) := by
  rw [defaultBlock, find?_map]
  rfl

theorem peProcGetContext_scope (proc : Option Proc) (prio : Prio) :
    peProcGetContext (proc.map (scopeProc task now)) prio = (peProcGetContext proc prio).map (scopeCtx task now) := by
  cases proc with
  | none => rfl
  | some p => simp [peProcGetContext, scopeProc]

theorem any_uid_scope (proc : Option Proc) (uid : ℕ) :
    (proc.map (scopeProc task now)).any (fun p => p.uid = uid) = proc.any (fun p => p.uid = uid) := by
  cases proc <;> rfl

theorem inPlayground_scope (proc : Option Proc) :
    inPlayground (proc.map (scopeProc task now)) = inPlayground proc := by
  cases proc <;> rfl

theorem isNosfs_scope (proc : Option Proc) (i : Prio) :
    isNosfs (proc.map (scopeProc task now)) i = isNosfs proc i := by
  rw [isNosfs, isNosfs, peProcGetContext_scope]
  cases proc with
  | none => rfl
  | some p => cases h : peProcGetContext (some p) i <;> simp [scopeProc, scopeCtx, Option.any]

theorem alfBlock_scope (db : PolicyDb) (proc : Option Proc) (prio : Prio) (msg : AlfEvent) :
    alfBlock (scopeDb task now db) (proc.map (scopeProc task now)) prio msg =
      (alfBlock db proc prio msg).map (scopeBlock task now) := by
  rw [alfBlock, alfBlock, any_uid_scope, peProcGetContext_scope, peUserGetRuleset_scope]
  split
  · cases peProcGetContext proc prio <;> rfl
  · cases peUserGetRuleset msg.uid prio db with
    | none => rfl
    | some rs => exact defaultBlock_scope task now _ rs.alfQueue

theorem sbBlock_scope (db : PolicyDb) (proc : Option Proc) (uid : ℕ) (prio : Prio) :
    sbBlock (scopeDb task now db) (proc.map (scopeProc task now)) uid prio =
      (sbBlock db proc uid prio).map (scopeBlock task now) := by
  rw [sbBlock, sbBlock, any_uid_scope, peProcGetContext_scope, peUserGetRuleset_scope, inPlayground_scope]
  split
  · cases peProcGetContext proc prio <;> rfl
  · cases peUserGetRuleset uid prio db with
    | none => rfl
    | some rs => exact defaultBlock_scope task now _ rs.sbQueue

/-- The SFS block `pe_sfs_getrules` consults. -/
def sfsBlock (db : PolicyDb) (uid : ℕ) (prio : Prio) : Option Block :=
  (peUserGetRuleset uid prio db).bind (fun rs => rs.sfsQueue.head?)

theorem sfsBlock_scope (db : PolicyDb) (uid : ℕ) (prio : Prio) :
    sfsBlock (scopeDb task now db) uid prio = (sfsBlock db uid prio).map (scopeBlock task now) := by
  rw [sfsBlock, sfsBlock, peUserGetRuleset_scope]
  cases peUserGetRuleset uid prio db with
  | none => rfl
  | some rs => simp [scopeRs]

end Lookup

/-! ### ALF -/

theorem alfLoop_scope (msg : AlfEvent) (now : ℕ) (res : AlfResult) (chain : List Rule) :
    alfLoop msg now res (chain.filter (inScope msg.taskCookie now)) = alfLoop msg now res chain := by
  refine (run_filter (alfLoop msg now) ?_ ?_ chain res).symm
  · intro st r rs hr
    rw [alfLoop, if_pos (by rw [inScope] at hr; simp [hr])]
  · intro r rs rs' h st
    rw [alfLoop, alfLoop]
    cases r.body <;> simp only [h]

theorem peAlfEvaluate_scope (db : PolicyDb) (proc : Option Proc) (prio : Prio) (msg : AlfEvent) (ruleId now : ℕ) :
    peAlfEvaluate (scopeDb msg.taskCookie now db) (proc.map (scopeProc msg.taskCookie now)) prio msg
      ruleId now = peAlfEvaluate db proc prio msg ruleId now := by
  rw [peAlfEvaluate, peAlfEvaluate, alfBlock_scope]
  cases alfBlock db proc prio msg with
  | none => rfl
  | some b =>
    simp only [map_some, scopeBlock, peAlfEvaluateRule, alfLoop_scope]

/-- ALF decisions do not depend on rules out of scope. -/
theorem verdict_alf_scope (db : PolicyDb) (proc : Option Proc) (msg : AlfEvent) (now : ℕ) :
    (peDecideAlf (scopeDb msg.taskCookie now db) (proc.map (scopeProc msg.taskCookie now)) msg
      now).verdict = (peDecideAlf db proc msg now).verdict := by
  simp only [peDecideAlf, peAlfEvaluate_scope]
  generalize alfPrioLoop _ _ _ = st
  cases st.decision <;> rfl

/-! ### Chains as the parser builds them -/

/-- A chain that can be filed in a prefix hash: rule types with a prefix, and canonical prefixes. -/
def Filed (chain : List Rule) : Prop :=
  (∀ r ∈ chain, rulePrefix r.body ≠ none) ∧ CanonicalPrefixes chain

variable {chain : List Rule} {w : World} {db : PolicyDb} {proc : Option Proc} {ev : FileEvent}

theorem Filed.filter (h : Filed chain) (p : Rule → Bool) : Filed (chain.filter p) :=
  ⟨fun r hr => h.1 r (mem_of_mem_filter hr), fun r hr => h.2 r (mem_of_mem_filter hr)⟩

theorem buildLoop_ok (hash : Text → ℕ) (h : ∀ r ∈ chain, rulePrefix r.body ≠ none) :
    ∀ (t : Prefixhash) (i : ℕ), ∃ t', buildLoop hash t i chain = .ok t' := by
  induction chain with
  | nil => intro t i; exact ⟨t, rfl⟩
  | cons r rs ih =>
    intro t i
    obtain ⟨pfx, hp⟩ := ne_none_iff_exists'.mp (h r mem_cons_self)
    rw [buildLoop]
    simp only [hp]
    exact ih (fun r hr => h r (mem_cons_of_mem _ hr)) _ _

/-- The lookup fails for relative paths and otherwise loses nothing. -/
theorem blockCandidates_spec (hash : Text → ℕ) (h : Filed chain) (path : Option Text) :
    if isRelative path then blockCandidates hash chain path = .error einval
    else ∃ out, blockCandidates hash chain path = .ok out ∧ Selects (applies path) chain out := by
  obtain ⟨t, ht⟩ := buildLoop_ok hash h.1 (pePrefixhashCreate chain.length) 1
  have hb : peBuildPrefixhash hash chain = .ok t := ht
  rw [blockCandidates, hb]
  split
  · rename_i hrel
    simp [pePrefixhashGetrules, hrel]
  · rename_i hrel
    exact getrules_selects hash ht h.2 (by simpa using hrel)

/-! ### SFS -/

/-- A rule that is out of scope is skipped. -/
theorem sfsRules_scope (w : World) (ev : FileEvent) (now : ℕ) (i : Prio) (st : SfsState) (chain : List Rule) :
    sfsRules w ev now i st (chain.filter (inScope ev.cookie now)) = sfsRules w ev now i st chain := by
  refine (run_filter (sfsRules w ev now i) ?_ ?_ chain st).symm
  · intro st r rs hr
    refine sfsRules_skip w now i st rs ?_
    rw [peSfsMatchOne, if_pos (by rw [inScope] at hr; simp [hr])]
  · intro r rs rs' h st
    exact sfsRules_congr w ev now i r h st

/-- The chain of the SFS block, empty if there is none. -/
def sfsChain (db : PolicyDb) (uid : ℕ) (prio : Prio) : List Rule :=
  ((sfsBlock db uid prio).map (·.chain)).getD []

theorem peSfsGetrules_eq (hash : Text → ℕ) (db : PolicyDb) (uid : ℕ) (prio : Prio)
    (path : Option Text) : peSfsGetrules hash db uid prio path =
      if (sfsChain db uid prio).isEmpty then .ok []
      else blockCandidates hash (sfsChain db uid prio) path := by
  rw [peSfsGetrules, sfsChain, sfsBlock]
  cases (peUserGetRuleset uid prio db).bind (fun rs => rs.sfsQueue.head?) <;> rfl

theorem sfsChain_scope (task now : ℕ) (db : PolicyDb) (uid : ℕ) (prio : Prio) :
    sfsChain (scopeDb task now db) uid prio = (sfsChain db uid prio).filter (inScope task now) := by
  rw [sfsChain, sfsChain, sfsBlock_scope]
  cases sfsBlock db uid prio <;> rfl

/-- What one priority contributes, in terms of the chain: an error if the path is relative and there
    is a rule, else the first match. -/
def sfsSpec (w : World) (nosfs : Prio → Bool) (chain : Prio → List Rule) (ev : FileEvent) (now : ℕ) :
    List Prio → SfsState → SfsState
  | [], st => st
  | i :: is, st =>
    if nosfs i then sfsSpec w nosfs chain ev now is st
    else if isRelative ev.path ∧ chain i ≠ [] then { st with decision := some .deny }
    else
      let st := sfsRules w ev now i st (chain i)
      if st.decision ≠ none ∧ st.decision ≠ some .allow then st
      else sfsSpec w nosfs chain ev now is st

theorem sfsLoop_eq_spec (w : World) (hash : Text → ℕ) (db : PolicyDb) (nosfs : Prio → Bool)
    (ev : FileEvent) (now : ℕ) (hf : ∀ i, Filed (sfsChain db ev.uid i)) :
    ∀ (is : List Prio) (st : SfsState),
      sfsLoop w nosfs (fun i => peSfsGetrules hash db ev.uid i ev.path) ev now is st =
        sfsSpec w nosfs (sfsChain db ev.uid) ev now is st := by
  intro is
  induction is with
  | nil => intro st; rfl
  | cons i is ih =>
    intro st
    rw [sfsLoop, sfsSpec]
    split
    · exact ih st
    · simp only [peSfsGetrules_eq hash db ev.uid i]
      have hspec := blockCandidates_spec hash (hf i) ev.path
      by_cases hnil : sfsChain db ev.uid i = []
      · simp only [hnil, isEmpty_nil, if_true, ne_eq, not_true_eq_false, and_false, if_false, sfsRules, ih]
      · have hne : (sfsChain db ev.uid i).isEmpty = false := by simpa using hnil
        rw [hne]
        by_cases hrel : isRelative ev.path = true
        · rw [if_pos hrel] at hspec
          simp [hspec, hrel, hnil]
        · rw [if_neg hrel] at hspec
          obtain ⟨out, hout, hsel⟩ := hspec
          simp only [hout, hrel, Bool.false_eq_true, if_false, false_and, sfsRules_selects w hsel, ih]

/-- The deletion takes away the only reason for an error: every rule of a non-empty chain is out of
    scope. -/
def Emptied (db : PolicyDb) (proc : Option Proc) (ev : FileEvent) (now : ℕ) (i : Prio) : Prop :=
  isNosfs proc i = false ∧ sfsChain db ev.uid i ≠ [] ∧
    (sfsChain db ev.uid i).filter (inScope ev.cookie now) = []

/-- No priority that is reached with a relative path is emptied. -/
def SfsClean (db : PolicyDb) (proc : Option Proc) (ev : FileEvent) (now : ℕ) : Prop :=
  isRelative ev.path = false ∨ ¬ Emptied db proc ev now .admin ∧
    (isNosfs proc .admin = false ∧ sfsChain db ev.uid .admin ≠ [] ∨ ¬ Emptied db proc ev now .user1)

/-- One priority decides the same without the rules out of scope. -/
theorem sfsSpec_cons_scope {now : ℕ} {i : Prio} {is : List Prio}
    (hi : isRelative ev.path = false ∨ ¬ Emptied db proc ev now i)
    (his : isRelative ev.path = true ∧ isNosfs proc i = false ∧ sfsChain db ev.uid i ≠ [] ∨ ∀ st,
      sfsSpec w (isNosfs proc) (fun i => (sfsChain db ev.uid i).filter (inScope ev.cookie now)) ev now
        is st = sfsSpec w (isNosfs proc) (sfsChain db ev.uid) ev now is st) (st : SfsState) :
    sfsSpec w (isNosfs proc) (fun i => (sfsChain db ev.uid i).filter (inScope ev.cookie now)) ev now
      (i :: is) st = sfsSpec w (isNosfs proc) (sfsChain db ev.uid) ev now (i :: is) st := by
  rw [sfsSpec, sfsSpec]
  by_cases hno : isNosfs proc i = true
  · rw [if_pos hno, if_pos hno]
    rcases his with ⟨-, h, -⟩ | h
    · simp [h] at hno
    · exact h st
  · rw [if_neg hno, if_neg hno]
    by_cases hrel : isRelative ev.path = true
    · by_cases hnil : sfsChain db ev.uid i = []
      · rcases his with ⟨-, -, h⟩ | h
        · exact absurd hnil h
        · simp only [hnil, filter_nil, ne_eq, not_true_eq_false, and_false, if_false, h]
      · have hne : (sfsChain db ev.uid i).filter (inScope ev.cookie now) ≠ [] := by
          rcases hi with h | h
          · simp [h] at hrel
          · exact fun hf => h ⟨by simpa using hno, hnil, hf⟩
        rw [if_pos ⟨hrel, hne⟩, if_pos ⟨hrel, hnil⟩]
    · rcases his with ⟨h, -⟩ | h
      · exact absurd h hrel
      · simp only [hrel, Bool.false_eq_true, false_and, if_false, sfsRules_scope, h]

/-- SFS decisions do not depend on rules out of scope. -/
theorem verdict_sfs_scope (hash : Text → ℕ) (w : World) {now : ℕ} (hf : ∀ i, Filed (sfsChain db ev.uid i))
    (hc : SfsClean db proc ev now) :
    (peDecideSfs hash w (scopeDb ev.cookie now db) (proc.map (scopeProc ev.cookie now)) ev
      now).verdict = (peDecideSfs hash w db proc ev now).verdict := by
  have hnosfs : isNosfs (proc.map (scopeProc ev.cookie now)) = isNosfs proc :=
    funext (isNosfs_scope ev.cookie now proc)
  have hchain : sfsChain (scopeDb ev.cookie now db) ev.uid =
      fun i => (sfsChain db ev.uid i).filter (inScope ev.cookie now) :=
    funext (sfsChain_scope ev.cookie now db ev.uid)
  simp only [peDecideSfs]
  rw [sfsLoop_eq_spec w hash db _ ev now hf, sfsLoop_eq_spec w hash _ _ ev now
    (fun i => by rw [sfsChain_scope]; exact (hf i).filter _), hnosfs, hchain]
  have hspec : sfsSpec w (isNosfs proc)
      (fun i => (sfsChain db ev.uid i).filter (inScope ev.cookie now)) ev now Prio.all SfsState.init =
      sfsSpec w (isNosfs proc) (sfsChain db ev.uid) ev now Prio.all SfsState.init := by
    refine sfsSpec_cons_scope (hc.imp id And.left) ?_ _
    rcases hc with h | ⟨-, h | h⟩
    · exact .inr (sfsSpec_cons_scope (.inl h) (.inr fun _ => rfl))
    · by_cases hrel : isRelative ev.path = true
      · exact .inl ⟨hrel, h⟩
      · exact .inr (sfsSpec_cons_scope (.inl (by simpa using hrel)) (.inr fun _ => rfl))
    · exact .inr (sfsSpec_cons_scope (.inr h) (.inr fun _ => rfl))
  rw [hspec]
  rfl

/-! ### Sandbox -/

/-- An access rule in scope that applies to the event. -/
def sbHit (w : World) (ev : FileEvent) (now atype : ℕ) (r : Rule) : Bool :=
  match r.body with
  | .sbAccess path cs amask _ _ => inScope ev.cookie now r && sbApplies w ev atype path cs amask
  | _ => false

def isDefault (r : Rule) : Bool :=
  match r.body with
  | .default _ => true
  | _ => false

/-- The loop of `pe_sb_evaluate` finds the first access rule that applies, else the first default
    rule, whatever its scope. -/
theorem sbMatch_eq (w : World) (ev : FileEvent) (now atype : ℕ) (chain : List Rule) :
    ∀ fallback : Option Rule, sbMatch w ev now atype fallback chain =
      (chain.find? (sbHit w ev now atype)).or (fallback.or (chain.find? isDefault)) := by
  induction chain with
  | nil => intro fb; cases fb <;> rfl
  | cons r rs ih =>
    intro fb
    rw [sbMatch]
    cases hb : r.body with
    | default d =>
      have h1 : sbHit w ev now atype r = false := by simp [sbHit, hb]
      have h2 : isDefault r = true := by simp [isDefault, hb]
      simp only [ih, find?_cons, h1, h2]
      cases fb <;> cases rs.find? (sbHit w ev now atype) <;> simp
    | sbAccess path cs amask log action =>
      have h1 : sbHit w ev now atype r =
          (peInScope r.scope ev.cookie now && sbApplies w ev atype path cs amask) := by
        simp [sbHit, hb, inScope]
      have h2 : isDefault r = false := by simp [isDefault, hb]
      simp only [find?_cons, h1, h2]
      cases peInScope r.scope ev.cookie now <;> cases sbApplies w ev atype path cs amask <;> simp [ih]
    | _ =>
      have h1 : sbHit w ev now atype r = false := by simp [sbHit, hb]
      have h2 : isDefault r = false := by simp [isDefault, hb]
      simp only [ih, find?_cons, h1, h2]

/-- No access rule decides, and the first default rule of the chain is out of scope. -/
def StaleDefault (w : World) (ev : FileEvent) (now : ℕ) (chain : List Rule) : Prop :=
  ∃ m, Requested ev m ∧ (∀ r ∈ chain, sbHit w ev now m.atype r = false) ∧
    ∃ r, chain.find? isDefault = some r ∧ inScope ev.cookie now r = false

/-- Deleting rules in front of the first hit does not change it. -/
theorem find?_filter_of_imp {α : Type} (p q : α → Bool) (h : ∀ x, q x = true → p x = true)
    (l : List α) : (l.filter p).find? q = l.find? q := by
  rw [find?_filter]
  congr 1
  funext x
  cases hq : q x <;> simp_all

theorem find?_filter_of_head {α : Type} {p q : α → Bool} {l : List α}
    (h : ∀ x, l.find? q = some x → p x = true) : (l.filter p).find? q = l.find? q := by
  induction l with
  | nil => rfl
  | cons a l ih =>
    by_cases hq : q a = true
    · have hp : p a = true := h a (by simp [hq])
      simp [hp, hq]
    · have hq' : q a = false := by simpa using hq
      have htail : ∀ x, l.find? q = some x → p x = true := fun x hx =>
        h x (by simpa [find?_cons, hq'] using hx)
      rw [find?_cons, hq', ← ih htail]
      cases hp : p a <;> simp [hp, hq']

/-- Without a stale default rule the first match is the same after the deletion. -/
theorem sbMatch_scope {now : ℕ} (hs : ¬ StaleDefault w ev now chain) {m : Mode} (hm : Requested ev m) :
    sbMatch w ev now m.atype none (chain.filter (inScope ev.cookie now)) = sbMatch w ev now m.atype none chain := by
  have hhit : ∀ r, sbHit w ev now m.atype r = true → inScope ev.cookie now r = true := by
    intro r hr
    cases hb : r.body <;> simp_all [sbHit]
  rw [sbMatch_eq, sbMatch_eq, find?_filter_of_imp _ _ hhit]
  cases hfind : chain.find? (sbHit w ev now m.atype) with
  | some r => rfl
  | none =>
    rw [find?_filter_of_head]
    intro r hr
    by_contra hout
    refine hs ⟨m, hm, ?_, r, hr, by simpa using hout⟩
    simpa using find?_eq_none.mp hfind

/-- The chain of the sandbox block, empty if there is none. -/
def sbChain (db : PolicyDb) (proc : Option Proc) (uid : ℕ) (prio : Prio) : List Rule :=
  ((sbBlock db proc uid prio).map (·.chain)).getD []

theorem sbChain_scope (task now : ℕ) (db : PolicyDb) (proc : Option Proc) (uid : ℕ) (prio : Prio) :
    sbChain (scopeDb task now db) (proc.map (scopeProc task now)) uid prio =
      (sbChain db proc uid prio).filter (inScope task now) := by
  rw [sbChain, sbChain, sbBlock_scope]
  cases sbBlock db proc uid prio <;> rfl

/-- First matches at a priority; a block that cannot be looked up has none. -/
def sbFirst (w : World) (db : PolicyDb) (proc : Option Proc) (ev : FileEvent) (now : ℕ) (i : Prio) :
    Option (Mode → Option Rule) :=
  if isRelative ev.path ∧ (sbBlock db proc ev.uid i).isSome then none
  else some (fun m => sbMatch w ev now m.atype none (sbChain db proc ev.uid i))

/-- `pe_decide_sandbox` in terms of the blocks. -/
theorem verdict_sandbox (hash : Text → ℕ) (w : World) {now : ℕ} (hf : ∀ i, Filed (sbChain db proc ev.uid i)) :
    (peDecideSandbox hash w db proc ev now).verdict =
      specVerdict (specLoop ev (sbFirst w db proc ev now) Prio.all Results.init) := by
  rw [peDecideSandbox]
  refine verdict_sbLoop w proc ev now _ _ ?_ ?_ _ _ _ _ (sbSim_init ev) rfl (.inl ⟨rfl, rfl⟩)
  · intro i e he
    rw [peSbGetrules] at he
    have hfi := hf i
    rw [sbChain] at hfi
    rw [sbFirst]
    cases hb : sbBlock db proc ev.uid i with
    | none => simp [hb] at he
    | some b =>
      simp only [hb, map_some, getD_some] at he hfi
      have hspec := blockCandidates_spec hash hfi ev.path
      split at hspec
      · rename_i hrel
        simp [hrel]
      · obtain ⟨out, hout, -⟩ := hspec
        simp [hout] at he
  · intro i rules hr
    rw [peSbGetrules] at hr
    have hfi := hf i
    rw [sbChain] at hfi
    rw [sbFirst, sbChain]
    cases hb : sbBlock db proc ev.uid i with
    | none =>
      simp only [hb, Except.ok.injEq] at hr
      subst hr
      simp
    | some b =>
      simp only [hb, map_some, getD_some] at hr hfi
      have hspec := blockCandidates_spec hash hfi ev.path
      split at hspec
      · simp [hspec] at hr
      · rename_i hrel
        obtain ⟨out, hout, hsel⟩ := hspec
        obtain rfl : out = rules := by simpa [hout] using hr
        simp only [hrel, Bool.false_eq_true, false_and, if_false, map_some, getD_some, Option.some.injEq]
        funext m
        exact (hsel.run_eq (sbMatch w ev now m.atype) (fun st _ rs hx => sbMatch_skip w now m.atype st rs hx)
          (fun r _ _ h => sbMatch_congr w ev now m.atype r h) none).symm

/-- The action of a matching sandbox rule. -/
def sbAction (r : Rule) : Action :=
  match r.body with
  | .default d => d.action
  | .sbAccess _ _ _ _ action => action
  | _ => .deny

theorem decision_applyMatch (res : Result) (prio : Prio) (r : Rule) :
    (applyMatch res prio r).decision = some (sbAction r) := by
  rw [applyMatch, sbAction]
  cases r.body <;> rfl

/-- Some requested mode is denied or asked, so that the search ends at this block. -/
def Stops (w : World) (ev : FileEvent) (now : ℕ) (chain : List Rule) : Prop :=
  ∃ m r, Requested ev m ∧ sbMatch w ev now m.atype none chain = some r ∧
    (sbAction r = .deny ∨ sbAction r = .ask)

theorem worst_ne_allow {ds : List (Option Action)} {a : Action} (ha : a = .deny ∨ a = .ask)
    (h : some a ∈ ds) : worst ds ≠ .allow := by
  rw [worst]
  rcases ha with rfl | rfl
  · simp [h]
  · by_cases hd : some Action.deny ∈ ds <;> simp [hd, h]

theorem stops_worst {now : ℕ} (h : Stops w ev now chain) (i : Prio) (res : Results) :
    worst (specAll ev (fun m => sbMatch w ev now m.atype none chain) i res).decisions ≠ .allow := by
  obtain ⟨m, r, hm, hr, ha⟩ := h
  refine worst_ne_allow ha (mem_decisions.mpr ⟨m, ?_⟩)
  rw [get_specAll, specMode, if_pos hm, hr, elim_some, decision_applyMatch]

theorem specAll_congr {f g : Mode → Option Rule} (h : ∀ m, Requested ev m → f m = g m) (i : Prio) (res : Results) :
    specAll ev f i res = specAll ev g i res := by
  have hmode : ∀ m r, specMode ev (f m) i m r = specMode ev (g m) i m r := by
    intro m r
    by_cases hm : Requested ev m
    · rw [specMode, specMode, h m hm]
    · rw [specMode, specMode, if_neg hm, if_neg hm]
  simp only [specAll, hmode]

/-- No priority that is reached is decided by a default rule out of scope. -/
def SandboxClean (w : World) (db : PolicyDb) (proc : Option Proc) (ev : FileEvent) (now : ℕ) : Prop :=
  isRelative ev.path = true ∨ ¬ StaleDefault w ev now (sbChain db proc ev.uid .admin) ∧
    (Stops w ev now (sbChain db proc ev.uid .admin) ∨
      ¬ StaleDefault w ev now (sbChain db proc ev.uid .user1))

/-- One priority of the specification without the rules out of scope. -/
theorem specLoop_cons_scope {now : ℕ} {chain : Prio → List Rule} {i : Prio} {is : List Prio}
    (hi : ¬ StaleDefault w ev now (chain i)) (his : Stops w ev now (chain i) ∨ ∀ res,
      specLoop ev (fun i => some fun m => sbMatch w ev now m.atype none
        ((chain i).filter (inScope ev.cookie now))) is res =
      specLoop ev (fun i => some fun m => sbMatch w ev now m.atype none (chain i)) is res) (res : Results) :
    specLoop ev (fun i => some fun m => sbMatch w ev now m.atype none
        ((chain i).filter (inScope ev.cookie now))) (i :: is) res =
      specLoop ev (fun i => some fun m => sbMatch w ev now m.atype none (chain i)) (i :: is) res := by
  simp only [specLoop]
  rw [specAll_congr (fun m hm => sbMatch_scope hi hm) i res]
  rcases his with h | h
  · rw [if_pos (stops_worst h i res), if_pos (stops_worst h i res)]
  · simp only [h]

/-- Sandbox decisions do not depend on rules out of scope unless a stale default rule decides. -/
theorem verdict_sandbox_scope (hash : Text → ℕ) (w : World) {now : ℕ} (hf : ∀ i, Filed (sbChain db proc ev.uid i))
    (hc : SandboxClean w db proc ev now) :
    (peDecideSandbox hash w (scopeDb ev.cookie now db) (proc.map (scopeProc ev.cookie now)) ev
      now).verdict = (peDecideSandbox hash w db proc ev now).verdict := by
  rw [verdict_sandbox hash w hf, verdict_sandbox hash w (fun i => by rw [sbChain_scope]; exact (hf i).filter _)]
  have hsome : ∀ i, (sbBlock (scopeDb ev.cookie now db) (proc.map (scopeProc ev.cookie now)) ev.uid
      i).isSome = (sbBlock db proc ev.uid i).isSome := by
    intro i
    rw [sbBlock_scope, isSome_map]
  congr 1
  by_cases hrel : isRelative ev.path = true
  · have hfirst : sbFirst w (scopeDb ev.cookie now db) (proc.map (scopeProc ev.cookie now)) ev now =
        sbFirst w db proc ev now := by
      funext i
      rw [sbFirst, sbFirst, hsome]
      cases hb : sbBlock db proc ev.uid i with
      | some b => simp [hrel]
      | none =>
        have hch : sbChain db proc ev.uid i = [] := by simp [sbChain, hb]
        rw [sbChain_scope, hch, filter_nil]
    rw [hfirst]
  · have hfirst : ∀ (db' : PolicyDb) (proc' : Option Proc), sbFirst w db' proc' ev now =
        fun i => some fun m => sbMatch w ev now m.atype none (sbChain db' proc' ev.uid i) := by
      intro db' proc'
      funext i
      rw [sbFirst, if_neg (fun h => hrel h.1)]
    simp only [hfirst, sbChain_scope]
    rcases hc with h | ⟨h0, h1⟩
    · exact absurd h hrel
    · exact specLoop_cons_scope h0 (h1.imp id fun h => specLoop_cons_scope h (.inr fun _ => rfl)) _

/-! ### All three evaluators -/

/-- The blocks of a database and of the contexts of a process are filed as the parser builds them. -/
structure FiledState (db : PolicyDb) (proc : Option Proc) : Prop where
  sfs : ∀ u ∈ db, ∀ prio rs, u.prio.get prio = some rs → ∀ b ∈ rs.sfsQueue, Filed b.chain
  sb : ∀ u ∈ db, ∀ prio rs, u.prio.get prio = some rs → ∀ b ∈ rs.sbQueue, Filed b.chain
  ctx : ∀ p, proc = some p → ∀ prio c, p.context.get prio = some c → ∀ b, c.sbrule = some b →
    Filed b.chain

theorem filed_nil : Filed [] := ⟨by simp, by simp [CanonicalPrefixes]⟩

/-- The ruleset of a user comes from the database. -/
theorem exists_of_peUserGetRuleset {uid : ℕ} {prio : Prio} {rs : Ruleset}
    (h : peUserGetRuleset uid prio db = some rs) : ∃ u ∈ db, u.prio.get prio = some rs := by
  have hstored : ∀ v, storedRuleset v prio db = some rs → ∃ u ∈ db, u.prio.get prio = some rs := by
    intro v hv
    obtain ⟨u, hu, hrs⟩ := bind_eq_some_iff.mp hv
    exact ⟨u, mem_of_find?_eq_some hu, hrs⟩
  rw [peUserGetRuleset] at h
  cases hs : storedRuleset uid prio db with
  | some rs' =>
    rw [hs] at h
    exact hstored uid (hs.trans h)
  | none =>
    rw [hs] at h
    exact hstored _ h

theorem FiledState.sfsChain (h : FiledState db proc) (uid : ℕ) (i : Prio) : Filed (sfsChain db uid i) := by
  rw [Pe.sfsChain, sfsBlock]
  cases hrs : peUserGetRuleset uid i db with
  | none => exact filed_nil
  | some rs =>
    obtain ⟨u, hu, hp⟩ := exists_of_peUserGetRuleset hrs
    cases hq : rs.sfsQueue with
    | nil => simpa [hq] using filed_nil
    | cons b bs => simpa [hq] using h.sfs u hu i rs hp b (by simp [hq])

theorem FiledState.sbChain (h : FiledState db proc) (uid : ℕ) (i : Prio) : Filed (sbChain db proc uid i) := by
  rw [Pe.sbChain]
  cases hb : sbBlock db proc uid i with
  | none => exact filed_nil
  | some b =>
    rw [sbBlock] at hb
    simp only [map_some, getD_some]
    split at hb
    · obtain ⟨c, hc, hsb⟩ := bind_eq_some_iff.mp hb
      obtain ⟨p, hp, hctx⟩ := bind_eq_some_iff.mp hc
      exact h.ctx p hp i c hctx b hsb
    · obtain ⟨rs, hrs, hd⟩ := bind_eq_some_iff.mp hb
      obtain ⟨u, hu, hp⟩ := exists_of_peUserGetRuleset hrs
      exact h.sb u hu i rs hp b (mem_of_find?_eq_some hd)

def demoWorld : World := ⟨fun _ _ => [], fun _ _ => [], fun _ => none⟩

def demoRs : Ruleset :=
  { ptr := 1, flags := 0, version := 0, maxid := 2, idtree := [⟨1, 2⟩, ⟨2, 3⟩], alfQueue := [],
    sfsQueue := [],
    sbQueue := [⟨2, 1, .sb, [], Flags.none, [⟨3, 2, some ⟨5, 0⟩, .default ⟨.deny, .alert⟩⟩]⟩],
    ctxQueue := [] }

def demoDb : PolicyDb := [⟨1000, ⟨none, some demoRs⟩⟩]

def demoEvent : FileEvent := ⟨7, some "/etc/passwd".toList, [], sbaRead, 1000, false, false⟩

def demoMsg : AlfEvent :=
  ⟨1000, 7, 0, .connect, .inet, .stream, 6, ⟨0, 0, 0⟩, ⟨0, 0, 0⟩⟩

theorem demo_filed : FiledState demoDb none where
  sfs := by
    intro u hu prio rs hrs b hb
    rw [demoDb, mem_singleton] at hu
    subst hu
    cases prio <;> simp [ByPrio.get, demoRs] at hrs
    simp [← hrs] at hb
  sb := by
    intro u hu prio rs hrs b hb
    rw [demoDb, mem_singleton] at hu
    subst hu
    cases prio <;> simp [ByPrio.get, demoRs] at hrs
    simp only [← hrs, mem_singleton] at hb
    subst hb
    exact ⟨by simp [rulePrefix], by simp [CanonicalPrefixes, rulePrefix]⟩
  ctx := by simp

end Anoubis.Pe

import Anoubis.Pe.Sandbox

/-! SFS decisions (`pe_sfs.c`).

    At each priority the candidate rules of the user's SFS block are tried in order. A matching rule
    raises the log level; its action is final unless it is `continue`. -/

namespace Anoubis.Pe

open Anoubis.Apn Anoubis.Lib

/-- The checksum test of an access rule: which of its three actions applies. -/
def sfsCsumMatch (w : World) (ev : FileEvent) (subject : Subject) : SfsMatch :=
  let csum := subjectCsum w ev subject
  if csum = [] then .unknown
  else if ev.upgradeTouched ∧ (ev.csum.length = csLen ∨ ev.upgradeWriteok) then .valid
  else if ev.csum.length ≠ csLen ∨ csum ≠ ev.csum then .invalid
  else .valid

/-- `pe_sfs_match_one`. -/
def peSfsMatchOne (w : World) (ev : FileEvent) (now : ℕ) (r : Rule) : Option (Default × SfsMatch) :=
  if !peInScope r.scope ev.cookie now then none
  else match r.body with
    | .sfsAccess path subject valid invalid unknown =>
      if !prefixApplies path ev.path then none
      else match sfsCsumMatch w ev subject with
        | .unknown => some (unknown, .unknown)
        | .invalid => some (invalid, .invalid)
        | m => some (valid, m)
    | .sfsDefault path log action =>
      if !prefixApplies path ev.path then none else some (⟨action, log⟩, .default)
    | _ => none

/-- `pe_sfs_getrules`: the candidates of the first SFS block of the user's ruleset. -/
def peSfsGetrules (hash : Text → ℕ) (db : PolicyDb) (uid : ℕ) (prio : Prio) (path : Option Text) :
    Except ℕ (List Rule) :=
  match (peUserGetRuleset uid prio db).bind (fun rs => rs.sfsQueue.head?) with
  | none => .ok []
  | some b => if b.chain.isEmpty then .ok [] else blockCandidates hash b.chain path

/-- The variables of `pe_decide_sfs` that the loops change. -/
structure SfsState where
  decision : Option Action
  sfsmatch : SfsMatch
  ruleId : ℕ
  prio : Prio
  log : Log
  deriving DecidableEq

/-- The loop over the candidates at priority `i`. -/
def sfsRules (w : World) (ev : FileEvent) (now : ℕ) (i : Prio) : SfsState → List Rule → SfsState
  | st, [] => st
  | st, r :: rs =>
    match peSfsMatchOne w ev now r with
    | none => sfsRules w ev now i st rs
    | some (d, m) =>
      let st := { st with log := st.log.raise d.log }
      if d.action = .continue then sfsRules w ev now i st rs
      else ⟨some d.action, m, replyId r.id, i, st.log⟩

/-- `pe_context_is_nosfs` on the context of a process that did a secure exec. -/
def isNosfs (proc : Option Proc) (i : Prio) : Bool :=
  proc.any (fun p => p.secureexec) &&
    ((peProcGetContext proc i).bind (·.ctxrule)).any (fun b => b.flags.nosfs)

/-- The loop over the priorities, given the candidates at each of them. -/
def sfsLoop (w : World) (nosfs : Prio → Bool) (cands : Prio → Except ℕ (List Rule)) (ev : FileEvent)
    (now : ℕ) : List Prio → SfsState → SfsState
  | [], st => st
  | i :: is, st =>
    if nosfs i then sfsLoop w nosfs cands ev now is st
    else match cands i with
      | .error _ => { st with decision := some .deny }
      | .ok rules =>
        let st := sfsRules w ev now i st rules
        if st.decision ≠ none ∧ st.decision ≠ some .allow then st
        else sfsLoop w nosfs cands ev now is st

def SfsState.init : SfsState := ⟨none, .none, 0, .admin, .none⟩

/-- `pe_decide_sfs`. -/
def peDecideSfs (hash : Text → ℕ) (w : World) (db : PolicyDb) (proc : Option Proc) (ev : FileEvent)
    (now : ℕ) : Reply :=
  let st := sfsLoop w (isNosfs proc) (fun i => peSfsGetrules hash db ev.uid i ev.path) ev now
    Prio.all SfsState.init
  decisionReply proc (st.decision.getD .allow) st.log st.ruleId (some st.prio) st.sfsmatch

/-! ### Evaluation of a selection -/

variable {ev : FileEvent} {r : Rule}

theorem peSfsMatchOne_skip (w : World) (now : ℕ) (h : applies ev.path r = false) :
    peSfsMatchOne w ev now r = none := by
  rw [peSfsMatchOne]
  rw [applies] at h
  split
  · rfl
  · cases hb : r.body with
    | sfsAccess path subject valid invalid unknown =>
      have hp : prefixApplies path ev.path = false := by simpa [hb, rulePrefix] using h
      simp [hp]
    | sfsDefault path log action =>
      have hp : prefixApplies path ev.path = false := by simpa [hb, rulePrefix] using h
      simp [hp]
    | _ => rfl

theorem sfsRules_skip (w : World) (now : ℕ) (i : Prio) (st : SfsState) (rs : List Rule)
    (h : peSfsMatchOne w ev now r = none) : sfsRules w ev now i st (r :: rs) = sfsRules w ev now i st rs := by
  rw [sfsRules, h]

theorem sfsRules_congr (w : World) (ev : FileEvent) (now : ℕ) (i : Prio) (r : Rule)
    {rs rs' : List Rule} (h : ∀ st, sfsRules w ev now i st rs = sfsRules w ev now i st rs')
    (st : SfsState) : sfsRules w ev now i st (r :: rs) = sfsRules w ev now i st (r :: rs') := by
  rw [sfsRules, sfsRules]
  cases peSfsMatchOne w ev now r with
  | none => exact h st
  | some dm => simp only [h]

/-- A selection that keeps the applicable rules gives the same first match as the whole chain. -/
theorem sfsRules_selects (w : World) {chain out : List Rule} (hs : Selects (applies ev.path) chain out) (now : ℕ)
    (i : Prio) (st : SfsState) : sfsRules w ev now i st out = sfsRules w ev now i st chain :=
  hs.run_eq (sfsRules w ev now i)
    (fun st _ rs hx => sfsRules_skip w now i st rs (peSfsMatchOne_skip w now hx))
    (fun r _ _ h => sfsRules_congr w ev now i r h) st

/-! ### Preselection is lossless -/

/-- Whatever the hash function and the table size, the candidates for an absolute or missing path
    are a selection from the chain in chain order. It contains every rule without prefix and every
    rule whose prefix matches, and both evaluators see no difference. -/
theorem preselection_lossless (hash : Text → ℕ) (n : ℕ) {chain : List Rule} {h : Prefixhash}
    (hb : buildLoop hash ⟨n, fun _ => []⟩ 1 chain = .ok h) (hc : CanonicalPrefixes chain)
    (path : Option Text) (hp : isRelative path = false) :
    ∃ out, pePrefixhashGetrules hash h path = .ok out ∧ out.Sublist chain ∧
      ((chain.map (·.ptr)).Nodup → (out.map (·.ptr)).Nodup) ∧
      (∀ r ∈ chain, rulePrefix r.body = some none → r ∈ out) ∧
      (∀ r ∈ chain, ∀ p s, rulePrefix r.body = some (some p) → path = some s →
        pathMatch p s = true → r ∈ out) ∧
      (∀ w ev now res atype prio, ev.path = path →
        peSbEvaluate w out ev now res atype prio = peSbEvaluate w chain ev now res atype prio) ∧
      ∀ w ev now i st, ev.path = path → sfsRules w ev now i st out = sfsRules w ev now i st chain := by
  obtain ⟨out, hout, hsel⟩ := getrules_selects hash hb hc hp
  refine ⟨out, hout, hsel.sub, (hsel.sub.map _).nodup, ?_, ?_, ?_, ?_⟩
  · intro r hr hpf
    exact hsel.mem hr (by simp [applies, hpf, prefixApplies])
  · rintro r hr p s hpf rfl hm
    exact hsel.mem hr (by simp [applies, hpf, prefixApplies, hm])
  · rintro w ev now res atype prio rfl
    exact peSbEvaluate_selects w hsel now res atype prio
  · rintro w ev now i st rfl
    exact sfsRules_selects w hsel now i st

/-- A deny rule for `/a` behind a default rule, in a table of ten slots. -/
def demoChain : List Rule :=
  [⟨1, 1, none, .default ⟨.allow, .none⟩⟩,
    ⟨2, 2, none, .sbAccess (some "/a".toList) .none 7 .none .deny⟩]

def demoTable : Prefixhash :=
  pePrefixhashAdd hashFn (pePrefixhashAdd hashFn (pePrefixhashCreate 2) none ⟨1, 1, none,
    .default ⟨.allow, .none⟩⟩ 1) (some "/a".toList)
    ⟨2, 2, none, .sbAccess (some "/a".toList) .none 7 .none .deny⟩ 2

theorem preselection_lossless_demo :
    ∃ out, pePrefixhashGetrules hashFn demoTable (some "/a/b".toList) = .ok out ∧
      ⟨2, 2, none, .sbAccess (some "/a".toList) .none 7 .none .deny⟩ ∈ out := by
  have hcan : CanonicalPrefixes demoChain := by
    intro r hr p hpf
    have hp : p = "/a".toList := by
      simp only [demoChain, List.mem_cons, List.not_mem_nil, or_false] at hr
      rcases hr with rfl | rfl
      · simp [rulePrefix] at hpf
      · simpa [rulePrefix] using hpf.symm
    exact ⟨["a".toList], by rw [hp]; rfl, by
      intro c hc
      rw [List.mem_singleton.mp hc]
      exact ⟨by decide, by decide, by decide, by decide⟩⟩
  have hb : buildLoop hashFn ⟨10, fun _ => []⟩ 1 demoChain = .ok demoTable := rfl
  obtain ⟨out, hout, -, -, -, hmem, -⟩ :=
    preselection_lossless hashFn 10 hb hcan (some "/a/b".toList) rfl
  exact ⟨out, hout, hmem _ (by simp [demoChain]) "/a".toList "/a/b".toList rfl rfl (by decide)⟩

end Anoubis.Pe

import Anoubis.Lib.FirstMatch
import Anoubis.Pe.Alf

/-! What the evaluation of an ALF block returns (`pe_alf_evaluate_rule`).

    The first matching rule in scope decides, default rules come last. The loop returns the action of
    that rule. Its ID is returned in 32 bits. The log level of a capability rule is read through the
    filter member of the union:

        afilt:  action │ (gap) │ filtspec.log │ …
        acap:   action │ log   │ capability             -/

namespace Anoubis.Pe

open Anoubis.Apn Anoubis.Lib

variable (msg : AlfEvent) (now : ℕ)

/-- A filter or capability rule in scope that matches the event. -/
def alfHit (r : Rule) : Bool :=
  peInScope r.scope msg.taskCookie now &&
    match r.body with
    | .alfFilter _ f => filterApplies msg f
    | .alfCapability _ _ cap => !isFilter msg && peAlfCapmatch cap msg.type
    | _ => false

/-- A default rule in scope. -/
def alfDefault (r : Rule) : Bool :=
  peInScope r.scope msg.taskCookie now &&
    match r.body with
    | .default _ => true
    | _ => false

/-- The action that the author of a rule wrote. -/
def alfAction (r : Rule) : Option Action :=
  match r.body with
  | .alfFilter action _ => some action
  | .alfCapability action _ _ => some action
  | .default d => some d.action
  | _ => none

/-- The log level that the author of a rule wrote. -/
def alfLog (r : Rule) : Log :=
  match r.body with
  | .alfFilter _ f => f.log
  | .alfCapability _ log _ => log
  | .default d => d.log
  | _ => .none

/-- The log level that the code finds in a rule. -/
def alfCodeLog (r : Rule) : Log :=
  match r.body with
  | .alfCapability _ _ cap => Capability.asFiltspecLog cap
  | _ => alfLog r

/-- What the code returns for the rule that decides. -/
def alfResult (r : Rule) : AlfResult := ⟨alfAction r, alfCodeLog r, replyId r.id⟩

/-- What it should return. -/
def alfAuthored (r : Rule) : AlfResult := ⟨alfAction r, alfLog r, r.id⟩

variable {msg now}

/-- The loop for one rule. -/
theorem alfLoop_cons (res : AlfResult) (r : Rule) (rs : List Rule) :
    alfLoop msg now res (r :: rs) =
      if alfHit msg now r then alfResult r
      else if alfDefault msg now r ∧ res.decision = none then alfLoop msg now (alfResult r) rs
      else alfLoop msg now res rs := by
  rw [alfLoop]
  cases hs : peInScope r.scope msg.taskCookie now with
  | false => simp [alfHit, alfDefault, hs]
  | true =>
    cases hb : r.body with
    | alfFilter action f =>
      cases hf : filterApplies msg f <;>
        simp [alfHit, alfDefault, hs, hb, hf, alfResult, alfAction, alfCodeLog, alfLog]
    | alfCapability action log cap =>
      cases hi : isFilter msg <;> cases hc : peAlfCapmatch cap msg.type <;>
        simp [alfHit, alfDefault, hs, hb, hi, hc, alfResult, alfAction, alfCodeLog]
    | default d =>
      simp [alfHit, alfDefault, hs, hb, alfResult, alfAction, alfCodeLog, alfLog]
    | ctxRule application type => simp [alfHit, alfDefault, hb]
    | sfsAccess path subject valid invalid unknown => simp [alfHit, alfDefault, hb]
    | sfsDefault path log action => simp [alfHit, alfDefault, hb]
    | sbAccess path cs amask log action => simp [alfHit, alfDefault, hb]

/-- A default rule has an action, so the loop keeps the first one. -/
theorem result_decision_ne_none {r : Rule} (h : alfDefault msg now r = true) : (alfResult r).decision ≠ none := by
  cases hb : r.body <;> simp_all [alfDefault, alfResult, alfAction]

theorem alfLoop_eq (chain : List Rule) : ∀ res : AlfResult, alfLoop msg now res chain =
    ((chain.find? (alfHit msg now)).or
      (if res.decision = none then chain.find? (alfDefault msg now) else none)).elim res alfResult := by
  induction chain with
  | nil =>
    intro res
    rw [alfLoop]
    split <;> rfl
  | cons r rs ih =>
    intro res
    rw [alfLoop_cons, List.find?_cons, List.find?_cons]
    cases hh : alfHit msg now r with
    | true => rfl
    | false =>
      rw [if_neg Bool.false_ne_true]
      by_cases hd : alfDefault msg now r = true ∧ res.decision = none
      · rw [if_pos hd, ih, if_neg (result_decision_ne_none hd.1), if_pos hd.2, hd.1]
        cases rs.find? (alfHit msg now) <;> rfl
      · rw [if_neg hd, ih]
        by_cases hn : res.decision = none
        · have hd' : alfDefault msg now r = false := by simpa [hn] using hd
          rw [if_pos hn, if_pos hn, hd']
        · rw [if_neg hn, if_neg hn]

/-- The evaluation is the first match. -/
theorem peAlfEvaluateRule_eq (chain : List Rule) (ruleId : ℕ) (h : alwaysAllowed msg = false) :
    peAlfEvaluateRule chain msg ruleId now =
      (firstMatch (alfHit msg now) (alfDefault msg now) chain).elim ⟨none, .none, ruleId⟩ alfResult := by
  rw [peAlfEvaluateRule, h, if_neg Bool.false_ne_true, alfLoop_eq, if_pos rfl, firstMatch]

/-- A rule whose ID and log level come out as they are written: the ID fits into 32 bits, and a
    capability rule has the log level that its capability reads as. -/
def Faithful (r : Rule) : Prop :=
  r.id < 2 ^ 32 ∧ ∀ action log cap, r.body = .alfCapability action log cap →
    log = Capability.asFiltspecLog cap

theorem codeLog_eq_iff (r : Rule) : alfCodeLog r = alfLog r ↔
    ∀ action log cap, r.body = .alfCapability action log cap → log = Capability.asFiltspecLog cap := by
  cases hb : r.body with
  | alfCapability action log cap =>
    simp only [alfCodeLog, alfLog, hb]
    constructor
    · intro h a l c hc
      obtain ⟨-, rfl, rfl⟩ := Body.alfCapability.inj hc
      exact h.symm
    · intro h
      exact (h action log cap rfl).symm
  | _ => simp [alfCodeLog, alfLog, hb]

theorem replyId_eq_iff (id : ℕ) : replyId id = id ↔ id < 2 ^ 32 := by
  rw [replyId]
  exact ⟨fun h => h ▸ Nat.mod_lt id (by decide), Nat.mod_eq_of_lt⟩

theorem result_eq_authored_iff (r : Rule) : alfResult r = alfAuthored r ↔ Faithful r := by
  rw [alfResult, alfAuthored, AlfResult.mk.injEq, codeLog_eq_iff, replyId_eq_iff, Faithful]
  tauto

/-- What `pe_alf_evaluate_rule` should return. -/
def alfSpec (chain : List Rule) (msg : AlfEvent) (ruleId now : ℕ) : AlfResult :=
  match firstMatch (alfHit msg now) (alfDefault msg now) chain with
  | some r => alfAuthored r
  | none => ⟨none, .none, ruleId⟩

/-- For an event that is not allowed in any case: action, log level and ID of the first match are
    returned iff the rule that decides is faithful. Without a match nothing is. -/
theorem alf_evaluate_iff {chain : List Rule} {ruleId : ℕ} (h : alwaysAllowed msg = false) :
    peAlfEvaluateRule chain msg ruleId now = alfSpec chain msg ruleId now ↔
      ∀ r ∈ firstMatch (alfHit msg now) (alfDefault msg now) chain, Faithful r := by
  rw [peAlfEvaluateRule_eq chain ruleId h, alfSpec]
  cases firstMatch (alfHit msg now) (alfDefault msg now) chain with
  | none => simp
  | some r =>
    simp only [Option.elim_some, Option.mem_def, Option.some.injEq, forall_eq']
    exact result_eq_authored_iff r

/-- A raw socket and the rules `allow raw` and `default deny`, the first one with a log level. -/
def rawMsg : AlfEvent := ⟨1000, 7, 0, .any, .inet, .raw, 1, ⟨0, 0, 0⟩, ⟨0, 0, 0⟩⟩

def rawChain (log : Log) : List Rule :=
  [⟨1, 5, none, .alfCapability .allow log .raw⟩, ⟨2, 6, none, .default ⟨.deny, .alert⟩⟩]

/-- With the log level `none` the capability rule comes out right. -/
theorem alf_evaluate_iff_raw :
    peAlfEvaluateRule (rawChain .none) rawMsg 0 0 = alfSpec (rawChain .none) rawMsg 0 0 ↔
      ∀ r ∈ firstMatch (alfHit rawMsg 0) (alfDefault rawMsg 0) (rawChain .none), Faithful r :=
  alf_evaluate_iff (by decide)

/-- The alert of the rule `allow alert raw` is lost. -/
theorem raw_alert_lost :
    ¬ ∀ (chain : List Rule) (msg : AlfEvent) (ruleId now : ℕ), alwaysAllowed msg = false →
      peAlfEvaluateRule chain msg ruleId now = alfSpec chain msg ruleId now := by
  intro h
  have hraw := h (rawChain .alert) rawMsg 0 0 (by decide)
  exact absurd hraw (by decide)

end Anoubis.Pe

import Anoubis.Pe.Event
import Anoubis.Pe.PrefixHash

/-! Sandbox decisions (`pe_sandbox.c`).

    For each priority the candidate rules of the active sandbox block are evaluated once per access
    mode; the three partial results are merged, and a priority whose merged result is deny or ask
    ends the search. -/

namespace Anoubis.Pe

open Anoubis.Apn Anoubis.Lib

/-- `struct result`. A missing decision is -1. -/
structure Result where
  log : Log
  ruleId : ℕ
  prio : Prio
  decision : Option Action
  deriving DecidableEq

/-- The checksum that the subject of a rule demands for the path of the event. -/
def subjectCsum (w : World) (ev : FileEvent) : Subject → Csum
  | .none => []
  | .uidSelf => w.sfshashGetUid ev.path ev.uid
  | .uid uid => w.sfshashGetUid ev.path uid
  | .keySelf =>
    match w.certKeyidForUid ev.uid with
    | none => []
    | some keyid => w.sfshashGetKey ev.path keyid
  | .key keyid => w.sfshashGetKey ev.path keyid

/-- The checksum part of `pe_sb_evaluate`. -/
def sbCsumMatch (w : World) (ev : FileEvent) (cs : Subject) : Bool :=
  if cs = .none then true
  else if ev.csum.length ≠ csLen ∧ ev.upgradeTouched = false then false
  else
    let csum := subjectCsum w ev cs
    if csum = [] then false
    else if ev.upgradeTouched then ev.upgradeWriteok || ev.csum.length = csLen
    else csum = ev.csum

/-- An access rule applies to the event and access mode. -/
def sbApplies (w : World) (ev : FileEvent) (atype : ℕ) (path : Option Text) (cs : Subject)
    (amask : ℕ) : Bool :=
  amask &&& atype ≠ 0 && prefixApplies path ev.path && sbCsumMatch w ev cs

/-- The loop of `pe_sb_evaluate`; `fallback` is the variable `match`, which holds the first default
    rule until an access rule matches. -/
def sbMatch (w : World) (ev : FileEvent) (now atype : ℕ) : Option Rule → List Rule → Option Rule
  | fallback, [] => fallback
  | fallback, r :: rs =>
    match r.body with
    | .default _ => sbMatch w ev now atype (fallback.or (some r)) rs
    | .sbAccess path cs amask _ _ =>
      if !peInScope r.scope ev.cookie now then sbMatch w ev now atype fallback rs
      else if sbApplies w ev atype path cs amask then some r
      else sbMatch w ev now atype fallback rs
    | _ => sbMatch w ev now atype fallback rs

/-- The code behind `have_match`. -/
def applyMatch (res : Result) (prio : Prio) (r : Rule) : Result :=
  match r.body with
  | .default d => ⟨res.log.raise d.log, replyId r.id, prio, some d.action⟩
  | .sbAccess _ _ _ log action => ⟨res.log.raise log, replyId r.id, prio, some action⟩
  | _ => ⟨.none, 0, .admin, some .deny⟩

/-- `pe_sb_evaluate`. -/
def peSbEvaluate (w : World) (rules : List Rule) (ev : FileEvent) (now : ℕ) (res : Result)
    (atype : ℕ) (prio : Prio) : Result :=
  if ev.amask &&& atype = 0 then { res with decision := some .allow }
  else match sbMatch w ev now atype none rules with
    | none => res
    | some r => applyMatch res prio r

/-- The sandbox block that applies: the one of the context for events of the user of the process,
    else the default block of the user's ruleset. -/
def sbBlock (db : PolicyDb) (proc : Option Proc) (uid : ℕ) (prio : Prio) : Option Block :=
  if proc.any (fun p => p.uid = uid) then (peProcGetContext proc prio).bind (·.sbrule)
  else (peUserGetRuleset uid prio db).bind (fun rs => defaultBlock (inPlayground proc) rs.sbQueue)

/-- Candidates of a block: build the hash and look the path up. -/
def blockCandidates (hash : Text → ℕ) (chain : List Rule) (path : Option Text) :
    Except ℕ (List Rule) :=
  match peBuildPrefixhash hash chain with
  | .error e => .error e
  | .ok h => pePrefixhashGetrules hash h path

/-- `pe_sb_getrules`. -/
def peSbGetrules (hash : Text → ℕ) (db : PolicyDb) (proc : Option Proc) (uid : ℕ) (prio : Prio)
    (path : Option Text) : Except ℕ (List Rule) :=
  match sbBlock db proc uid prio with
  | none => .ok []
  | some b => blockCandidates hash b.chain path

/-- The results of the three access modes. -/
structure Results where
  read : Result
  write : Result
  exec : Result
  deriving DecidableEq

/-- The three calls of `pe_sb_evaluate` at one priority. -/
def evaluateAll (w : World) (rules : List Rule) (ev : FileEvent) (now : ℕ) (res : Results)
    (prio : Prio) : Results :=
  ⟨peSbEvaluate w rules ev now res.read sbaRead prio,
    peSbEvaluate w rules ev now res.write sbaWrite prio,
    peSbEvaluate w rules ev now res.exec sbaExec prio⟩

/-- The merging loop over the three partial decisions. -/
def mergeDecisions : Option Action → List (Option Action) → Option Action
  | final, [] => final
  | final, d :: ds =>
    if d = some .deny then some .deny
    else if d = some .ask then mergeDecisions (some .ask) ds
    else if final = none then mergeDecisions (some .allow) ds
    else mergeDecisions final ds

def Results.decisions (res : Results) : List (Option Action) :=
  [res.read.decision, res.write.decision, res.exec.decision]

/-- The loop of `pe_decide_sandbox` over the priorities, given the candidates at each of them. -/
def sbLoop (w : World) (cands : Prio → Except ℕ (List Rule)) (ev : FileEvent) (now : ℕ) :
    List Prio → Results → Option Action → Results × Option Action
  | [], res, final => (res, final)
  | i :: is, res, final =>
    match cands i with
    | .error _ => (res, some .deny)
    | .ok rules =>
      if rules.isEmpty then sbLoop w cands ev now is res final
      else
        let res := evaluateAll w rules ev now res i
        let final := mergeDecisions final res.decisions
        if final ≠ none ∧ final ≠ some .allow then (res, final)
        else sbLoop w cands ev now is res final

/-- One round of the reporting loop: always take the higher log level, take rule and priority only
    from a partial result that agrees with the verdict. -/
def reportStep (decision : Action) (acc : Log × ℕ × Prio) (r : Result) : Log × ℕ × Prio :=
  (acc.1.raise r.log, if r.decision = some decision then (r.ruleId, r.prio) else acc.2)

/-- The report of a partial match. -/
def report (decision : Action) (res : Results) : Log × ℕ × Prio :=
  [res.read, res.write, res.exec].foldl (reportStep decision) (.none, 0, .admin)

/-- Turn the outcome of the loop into a reply. -/
def sbReply (proc : Option Proc) : Results × Option Action → Reply
  | (_, none) => decisionReply proc .allow .none 0 (some .admin) .none
  | (res, some d) =>
    let rep := report d res
    decisionReply proc d rep.1 rep.2.1 (some rep.2.2) .none

def Result.init : Result := ⟨.none, 0, .admin, none⟩

def Results.init : Results := ⟨Result.init, Result.init, Result.init⟩

/-- `pe_decide_sandbox`. -/
def peDecideSandbox (hash : Text → ℕ) (w : World) (db : PolicyDb) (proc : Option Proc)
    (ev : FileEvent) (now : ℕ) : Reply :=
  sbReply proc (sbLoop w (fun i => peSbGetrules hash db proc ev.uid i ev.path) ev now Prio.all
    Results.init none)

/-! ### Evaluation of a selection -/

variable {ev : FileEvent} {res sres : Results}
variable (w : World)

/-- Rules whose prefix does not fit are skipped by the loop of `pe_sb_evaluate`. -/
theorem sbMatch_skip (now atype : ℕ) (fallback : Option Rule) {r : Rule} (rs : List Rule)
    (h : applies ev.path r = false) :
    sbMatch w ev now atype fallback (r :: rs) = sbMatch w ev now atype fallback rs := by
  rw [sbMatch]
  rw [applies] at h
  cases hb : r.body with
  | sbAccess path cs amask log action =>
    have hp : prefixApplies path ev.path = false := by simpa [hb, rulePrefix] using h
    simp [sbApplies, hp]
  | default d => simp [hb, rulePrefix, prefixApplies] at h
  | _ => rfl

theorem sbMatch_congr (ev : FileEvent) (now atype : ℕ) (r : Rule) {rs rs' : List Rule}
    (h : ∀ m, sbMatch w ev now atype m rs = sbMatch w ev now atype m rs') (m : Option Rule) :
    sbMatch w ev now atype m (r :: rs) = sbMatch w ev now atype m (r :: rs') := by
  rw [sbMatch, sbMatch]
  cases r.body <;> simp only [h]

/-- A selection that keeps the applicable rules is evaluated like the whole chain. -/
theorem peSbEvaluate_selects {chain out : List Rule} (hs : Selects (applies ev.path) chain out)
    (now : ℕ) (res : Result) (atype : ℕ) (prio : Prio) :
    peSbEvaluate w out ev now res atype prio = peSbEvaluate w chain ev now res atype prio := by
  have hm : sbMatch w ev now atype none out = sbMatch w ev now atype none chain :=
    hs.run_eq (sbMatch w ev now atype) (fun m _ rs hx => sbMatch_skip w now atype m rs hx)
      (fun r _ _ h => sbMatch_congr w ev now atype r h) none
  rw [peSbEvaluate, peSbEvaluate, hm]

/-! ### What the loop computes

    `specLoop` is the decision without the bookkeeping of the code: at each priority every requested
    access mode takes its first match, and the worst of the partial decisions stops the search
    unless it is allow. -/

/-- Read, write and execute. -/
inductive Mode where
  | read
  | write
  | exec
  deriving DecidableEq

def Mode.atype : Mode → ℕ
  | .read => sbaRead
  | .write => sbaWrite
  | .exec => sbaExec

def Results.get (res : Results) : Mode → Result
  | .read => res.read
  | .write => res.write
  | .exec => res.exec

/-- The event asks for this access mode. -/
def Requested (ev : FileEvent) (m : Mode) : Prop := ev.amask &&& m.atype ≠ 0

instance (ev : FileEvent) (m : Mode) : Decidable (Requested ev m) :=
  inferInstanceAs (Decidable (_ ≠ _))

/-- Deny before ask before allow. -/
def worst (ds : List (Option Action)) : Action :=
  if some .deny ∈ ds then .deny else if some .ask ∈ ds then .ask else .allow

/-- One priority for one access mode, given the first match. -/
def specMode (ev : FileEvent) (fm : Option Rule) (prio : Prio) (m : Mode) (res : Result) : Result :=
  if Requested ev m then fm.elim res (applyMatch res prio) else res

def specAll (ev : FileEvent) (fm : Mode → Option Rule) (prio : Prio) (res : Results) : Results :=
  ⟨specMode ev (fm .read) prio .read res.read, specMode ev (fm .write) prio .write res.write,
    specMode ev (fm .exec) prio .exec res.exec⟩

/-- The decision in terms of first matches. A priority without a first match function is one whose
    rules cannot be looked up. -/
def specLoop (ev : FileEvent) (fm : Prio → Option (Mode → Option Rule)) :
    List Prio → Results → Results × Action
  | [], res => (res, .allow)
  | i :: is, res =>
    match fm i with
    | none => (res, .deny)
    | some f =>
      let res := specAll ev f i res
      if worst res.decisions ≠ .allow then (res, worst res.decisions) else specLoop ev fm is res

/-- The highest log level of the three partial results. -/
def maxLog (res : Results) : Log := ((Log.none.raise res.read.log).raise res.write.log).raise res.exec.log

def specVerdict (x : Results × Action) : ℕ × Bool × Log :=
  (if x.2 = .deny then eperm else 0, x.2 = .ask, maxLog x.1)

theorem get_evaluateAll (rules : List Rule) (ev : FileEvent) (now : ℕ) (res : Results)
    (prio : Prio) (m : Mode) : (evaluateAll w rules ev now res prio).get m =
      peSbEvaluate w rules ev now (res.get m) m.atype prio := by
  cases m <;> rfl

theorem get_specAll (ev : FileEvent) (fm : Mode → Option Rule) (prio : Prio) (res : Results)
    (m : Mode) : (specAll ev fm prio res).get m = specMode ev (fm m) prio m (res.get m) := by
  cases m <;> rfl

theorem mem_decisions {d : Option Action} : d ∈ res.decisions ↔ ∃ m, (res.get m).decision = d := by
  constructor
  · intro h
    simp only [Results.decisions, List.mem_cons, List.not_mem_nil, or_false] at h
    rcases h with rfl | rfl | rfl
    · exact ⟨.read, rfl⟩
    · exact ⟨.write, rfl⟩
    · exact ⟨.exec, rfl⟩
  · rintro ⟨m, rfl⟩
    cases m <;> simp [Results.decisions, Results.get]

/-- The merging loop finds the worst decision. -/
theorem mergeDecisions_eq (ds : List (Option Action)) : ∀ d : Action, d ≠ .deny → mergeDecisions (some d) ds =
      some (if some .deny ∈ ds then .deny else if some .ask ∈ ds then .ask else d) := by
  induction ds with
  | nil => intro d _; rfl
  | cons e ds ih =>
    intro d hd
    rw [mergeDecisions]
    by_cases h1 : e = some .deny
    · simp [h1]
    · by_cases h2 : e = some .ask
      · simp only [h2, if_neg (show ¬ (some Action.ask = some .deny) by decide), if_true,
          ih .ask (by decide), List.mem_cons]
        simp
      · rw [if_neg h1, if_neg h2, if_neg (by simp), ih d hd]
        simp [List.mem_cons, Ne.symm h1, Ne.symm h2]

theorem mergeDecisions_worst {final : Option Action} (hf : final = none ∨ final = some .allow)
    (res : Results) : mergeDecisions final res.decisions = some (worst res.decisions) := by
  have hallow : mergeDecisions (some .allow) res.decisions = some (worst res.decisions) :=
    mergeDecisions_eq _ .allow (by decide)
  rcases hf with rfl | rfl
  · rw [← hallow]
    rfl
  · exact hallow

/-- Code and specification agree on requested modes; the others never carry a log level or a
    verdict. -/
structure SbSim (ev : FileEvent) (res sres : Results) : Prop where
  req : ∀ m, Requested ev m → res.get m = sres.get m
  noreq : ∀ m, ¬ Requested ev m → (res.get m).log = .none ∧ sres.get m = Result.init ∧
    ((res.get m).decision = none ∨ (res.get m).decision = some .allow)

theorem SbSim.log (h : SbSim ev res sres) (m : Mode) : (res.get m).log = (sres.get m).log := by
  by_cases hm : Requested ev m
  · rw [h.req m hm]
  · obtain ⟨h1, h2, -⟩ := h.noreq m hm
    rw [h1, h2]
    rfl

theorem SbSim.maxLog (h : SbSim ev res sres) : maxLog res = maxLog sres := by
  have h1 := h.log .read
  have h2 := h.log .write
  have h3 := h.log .exec
  simp only [Results.get] at h1 h2 h3
  rw [Pe.maxLog, Pe.maxLog, h1, h2, h3]

/-- A stopping decision comes from a requested mode. -/
theorem SbSim.mem (h : SbSim ev res sres) {a : Action} (ha : a ≠ .allow) :
    some a ∈ res.decisions ↔ some a ∈ sres.decisions := by
  rw [mem_decisions, mem_decisions]
  refine exists_congr fun m => ?_
  by_cases hm : Requested ev m
  · rw [h.req m hm]
  · obtain ⟨-, h2, h3⟩ := h.noreq m hm
    rw [h2]
    rcases h3 with h3 | h3 <;> simp [h3, Result.init, Ne.symm ha]

theorem SbSim.worst (h : SbSim ev res sres) : worst res.decisions = worst sres.decisions := by
  simp only [Pe.worst, h.mem (show Action.deny ≠ .allow by decide),
    h.mem (show Action.ask ≠ .allow by decide)]

/-- One priority with at least one candidate. -/
theorem sbSim_evaluateAll {w : World} (h : SbSim ev res sres) (rules : List Rule) (now : ℕ) (i : Prio) :
    SbSim ev (evaluateAll w rules ev now res i)
      (specAll ev (fun m => sbMatch w ev now m.atype none rules) i sres) where
  req m hm := by
    rw [get_evaluateAll, get_specAll, peSbEvaluate, specMode, if_neg hm, if_pos hm, h.req m hm]
    cases sbMatch w ev now m.atype none rules <;> rfl
  noreq m hm := by
    obtain ⟨h1, h2, -⟩ := h.noreq m hm
    rw [get_evaluateAll, get_specAll, peSbEvaluate, specMode, if_neg hm, if_pos (not_not.mp hm)]
    exact ⟨h1, h2, .inr rfl⟩

/-- A priority without candidates changes nothing in the specification either. -/
theorem specAll_nil (ev : FileEvent) (now : ℕ) (i : Prio) (res : Results) :
    specAll ev (fun m => sbMatch w ev now m.atype none []) i res = res := by
  simp [specAll, specMode, sbMatch]

theorem maxLog_report (d : Action) (res : Results) : (report d res).1 = maxLog res := rfl

/-- The bookkeeping of `pe_decide_sandbox` computes the specification. -/
theorem verdict_sbLoop (proc : Option Proc) (ev : FileEvent) (now : ℕ)
    (cands : Prio → Except ℕ (List Rule)) (fm : Prio → Option (Mode → Option Rule))
    (herr : ∀ i e, cands i = .error e → fm i = none) (hok : ∀ i rules, cands i = .ok rules →
      fm i = some (fun m => sbMatch w ev now m.atype none rules)) :
    ∀ (is : List Prio) (res sres : Results) (final : Option Action), SbSim ev res sres →
      worst res.decisions = .allow → (final = none ∧ maxLog res = .none ∨ final = some .allow) →
      (sbReply proc (sbLoop w cands ev now is res final)).verdict = specVerdict (specLoop ev fm is sres) := by
  intro is
  induction is with
  | nil =>
    intro res sres final hsim _ hf
    rcases hf with ⟨rfl, hlog⟩ | rfl
    · simp [sbLoop, sbReply, specLoop, specVerdict, ← hsim.maxLog, hlog]
    · simp [sbLoop, sbReply, specLoop, specVerdict, ← hsim.maxLog, maxLog_report]
  | cons i is ih =>
    intro res sres final hsim hw hf
    rw [sbLoop, specLoop]
    cases hc : cands i with
    | error e =>
      simp [herr i e hc, sbReply, specVerdict, ← hsim.maxLog, maxLog_report]
    | ok rules =>
      simp only [hok i rules hc]
      have hfinal : final = none ∨ final = some .allow := hf.imp And.left id
      by_cases hnil : rules = []
      · -- nothing to evaluate: the specification keeps its results, which stop nothing
        subst hnil
        rw [specAll_nil, ← hsim.worst, hw, if_neg (not_not_intro rfl)]
        simpa using ih res sres final hsim hw hf
      · have hsim' := sbSim_evaluateAll (w := w) hsim rules now i
        rw [if_neg (by simpa using hnil), mergeDecisions_worst hfinal, ← hsim'.worst]
        by_cases hstop : worst (evaluateAll w rules ev now res i).decisions = .allow
        · rw [if_neg (by simp [hstop]), if_neg (by simp [hstop]), hstop]
          exact ih _ _ _ hsim' hstop (.inr rfl)
        · rw [if_pos ⟨by simp, by simpa using hstop⟩, if_pos hstop]
          simp [sbReply, specVerdict, ← hsim'.maxLog, maxLog_report]

theorem sbSim_init (ev : FileEvent) : SbSim ev Results.init Results.init where
  req _ _ := rfl
  noreq m _ := by cases m <;> exact ⟨rfl, rfl, .inl rfl⟩

end Anoubis.Pe

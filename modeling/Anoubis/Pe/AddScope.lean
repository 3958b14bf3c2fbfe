import Anoubis.Pe.Event
import Mathlib.Data.List.Forall2

/-! Restricting a chain of rules to a scope (`apnescalations.c`).

    The answer to an escalation is a chain of new rules. `apn_escalation_addscope` narrows the scope of
    each of them: to the scope of the rule that asked, to a deadline and to a task, where zero stands
    for "no restriction". The rules afterwards are in scope exactly when they were before and all three
    restrictions hold. -/

namespace Anoubis.Pe

open Anoubis.Apn

/-- A `time_t`. The parser stores a deadline as the 64 bits of a number that may be negative. -/
def timeT (t : ℕ) : ℤ := (BitVec.ofNat 64 t).toInt

/-- `pe_in_scope` at a signed time. -/
def peInScopeAt (scope : Option Scope) (task : ℕ) (now : ℤ) : Bool :=
  match scope with
  | none => true
  | some s =>
    if s.timeout ≠ 0 ∧ timeT s.timeout < now then false
    else if s.task ≠ 0 ∧ task ≠ s.task then false
    else true

/-! ### The function -/

/-- The assignments to `timeout` and `task` before the loop. -/
def oldScope (old : Option Scope) (timeout task : ℕ) : Option (ℕ × ℕ) :=
  match old with
  | none => some (timeout, task)
  | some o =>
    let timeout := if o.timeout ≠ 0 ∧ (timeout = 0 ∨ timeT o.timeout < timeT timeout) then o.timeout
      else timeout
    if task ≠ 0 ∧ o.task ≠ 0 ∧ task ≠ o.task then none
    else some (timeout, if o.task ≠ 0 then o.task else task)

/-- The branch of the loop for a rule that has a scope. -/
def narrowScope (timeout task : ℕ) (s : Scope) : Option Scope :=
  if task ≠ 0 ∧ s.task ≠ 0 ∧ task ≠ s.task then none
  else some {
    task := if task ≠ 0 then task else s.task
    timeout :=
      if timeout ≠ 0 then
        if s.timeout = 0 then timeout
        else if timeT timeout < timeT s.timeout then timeout
        else s.timeout
      else s.timeout }

/-- The loop over the chain; `mem n` tells if the n-th allocation succeeds. An error leaves the rules
    before the failing one narrowed. -/
def addscopeLoop (mem : ℕ → Bool) (timeout task : ℕ) : ℕ → List Rule → ℤ × List Rule
  | _, [] => (0, [])
  | n, rule :: rules =>
    match rule.scope with
    | none =>
      if !mem n then (-(enomem : ℤ), rule :: rules)
      else
        let res := addscopeLoop mem timeout task (n + 1) rules
        (res.1, { rule with scope := some ⟨timeout, task⟩ } :: res.2)
    | some s =>
      match narrowScope timeout task s with
      | none => (-(einval : ℤ), rule :: rules)
      | some s =>
        let res := addscopeLoop mem timeout task n rules
        (res.1, { rule with scope := some s } :: res.2)

/-- `apn_escalation_addscope`: the return value and the chain as it is afterwards. -/
def apnEscalationAddscope (mem : ℕ → Bool) (chain : List Rule) (old : Option Scope)
    (timeout task : ℕ) : ℤ × List Rule :=
  match oldScope old timeout task with
  | none => (-(einval : ℤ), chain)
  | some (timeout, task) =>
    if task = 0 ∧ timeout = 0 then (0, chain) else addscopeLoop mem timeout task 0 chain

/-! ### Restrictions -/

/-- The time is not after the deadline. -/
def Within (timeout : ℕ) (now : ℤ) : Prop := timeout = 0 ∨ now ≤ timeT timeout

/-- The task is the one that is meant. -/
def ForTask (task t : ℕ) : Prop := task = 0 ∨ t = task

variable {s : Scope} {t u v timeout task : ℕ} {now : ℤ}

theorem peInScopeAt_some : peInScopeAt (some s) t now = true ↔ Within s.timeout now ∧ ForTask s.task t := by
  simp only [peInScopeAt, Within, ForTask]
  by_cases hd : s.timeout ≠ 0 ∧ timeT s.timeout < now
  · have hw : ¬ (s.timeout = 0 ∨ now ≤ timeT s.timeout) := by omega
    rw [if_pos hd]
    exact iff_of_false Bool.false_ne_true fun h => hw h.1
  · rw [if_neg hd]
    have hw : s.timeout = 0 ∨ now ≤ timeT s.timeout := by omega
    by_cases hk : s.task ≠ 0 ∧ t ≠ s.task
    · simp [hk]
    · simp only [if_neg hk, hw, true_and, true_iff]
      omega

/-- The earlier of two deadlines, as the code chooses it for its arguments. -/
theorem within_min :
    Within (if u ≠ 0 ∧ (v = 0 ∨ timeT u < timeT v) then u else v) now ↔ Within u now ∧ Within v now := by
  simp only [Within]
  split <;> omega

/-- The same minimum, as the code chooses it for a rule. -/
theorem within_narrow : Within (if u ≠ 0 then if v = 0 then u else if timeT u < timeT v then u else v else v) now ↔
      Within v now ∧ Within u now := by
  simp only [Within]
  repeat' split
  all_goals omega

theorem forTask_both {k l : ℕ} (h : ¬ (k ≠ 0 ∧ l ≠ 0 ∧ k ≠ l)) :
    ForTask (if l ≠ 0 then l else k) t ↔ ForTask l t ∧ ForTask k t := by
  simp only [ForTask]
  split <;> omega

/-- The merged arguments stand for the arguments and the old scope. -/
theorem oldScope_spec {old : Option Scope} {timeout' task' : ℕ}
    (h : oldScope old timeout task = some (timeout', task')) (t : ℕ) (now : ℤ) :
    Within timeout' now ∧ ForTask task' t ↔ peInScopeAt old t now = true ∧ Within timeout now ∧ ForTask task t := by
  cases old with
  | none =>
    simp only [oldScope, Option.some.injEq, Prod.mk.injEq] at h
    obtain ⟨rfl, rfl⟩ := h
    simp [peInScopeAt]
  | some o =>
    simp only [oldScope] at h
    split at h
    · simp at h
    · rename_i hk
      simp only [Option.some.injEq, Prod.mk.injEq] at h
      obtain ⟨rfl, rfl⟩ := h
      rw [within_min, forTask_both hk, peInScopeAt_some]
      tauto

/-- A rule that has a scope. -/
theorem narrowScope_spec {s' : Scope} (h : narrowScope timeout task s = some s') (t : ℕ) (now : ℤ) :
    peInScopeAt (some s') t now = true ↔ peInScopeAt (some s) t now = true ∧ Within timeout now ∧ ForTask task t := by
  rw [narrowScope] at h
  split at h
  · simp at h
  · rename_i hk
    cases h
    rw [peInScopeAt_some, peInScopeAt_some, within_narrow, forTask_both (by tauto)]
    tauto

/-- The rule `r` became `r'`: only its scope changed, and it is restricted by `P` in addition. -/
def Narrowed (P : ℕ → ℤ → Prop) (r r' : Rule) : Prop :=
  (∃ scope, r' = { r with scope := scope }) ∧
    ∀ t now, peInScopeAt r'.scope t now = true ↔ peInScopeAt r.scope t now = true ∧ P t now

theorem addscopeLoop_spec {mem : ℕ → Bool} :
    ∀ {chain chain' : List Rule} {n : ℕ}, addscopeLoop mem timeout task n chain = (0, chain') →
      List.Forall₂ (Narrowed fun t now => Within timeout now ∧ ForTask task t) chain chain' := by
  intro chain
  induction chain with
  | nil =>
    intro chain' n h
    rw [addscopeLoop, Prod.mk.injEq] at h
    rw [← h.2]
    exact .nil
  | cons r rs ih =>
    intro chain' n h
    rw [addscopeLoop] at h
    cases hs : r.scope with
    | none =>
      simp only [hs] at h
      cases hm : mem n with
      | false => simp [hm, enomem] at h
      | true =>
        simp only [hm, Bool.not_true, Bool.false_eq_true, if_false, Prod.mk.injEq] at h
        rw [← h.2]
        refine .cons ⟨⟨_, rfl⟩, fun t now => ?_⟩ (ih (Prod.ext h.1 rfl))
        rw [peInScopeAt_some, hs]
        simp [peInScopeAt]
    | some s =>
      simp only [hs] at h
      cases hn : narrowScope timeout task s with
      | none => simp [hn, einval] at h
      | some s' =>
        simp only [hn, Prod.mk.injEq] at h
        rw [← h.2]
        refine .cons ⟨⟨_, rfl⟩, fun t now => ?_⟩ (ih (Prod.ext h.1 rfl))
        rw [hs]
        exact narrowScope_spec hn t now

/-- After a success every rule is in scope iff it was, the old scope holds, the deadline is not over
    and the task is the right one; zero is no restriction. Nothing but the scopes changes. -/
theorem addscope_inScope {mem : ℕ → Bool} {chain chain' : List Rule} {old : Option Scope}
    {timeout task : ℕ} (h : apnEscalationAddscope mem chain old timeout task = (0, chain')) :
    List.Forall₂ (fun r r' => (∃ scope, r' = { r with scope := scope }) ∧
      ∀ (t : ℕ) (now : ℤ), peInScopeAt r'.scope t now = true ↔
        peInScopeAt r.scope t now = true ∧ peInScopeAt old t now = true ∧
          (timeout = 0 ∨ now ≤ timeT timeout) ∧ (task = 0 ∨ t = task)) chain chain' := by
  rw [apnEscalationAddscope] at h
  cases ho : oldScope old timeout task with
  | none => simp [ho, einval] at h
  | some m =>
    obtain ⟨timeout', task'⟩ := m
    have hmeans := oldScope_spec ho
    simp only [ho] at h
    split at h
    · rename_i hz
      obtain rfl := (Prod.mk.inj h).2
      refine List.forall₂_same.mpr fun r _ => ⟨⟨r.scope, rfl⟩, fun t now => ?_⟩
      have hall := (hmeans t now).mp ⟨.inl hz.2, .inl hz.1⟩
      exact (and_iff_left hall).symm
    · refine (addscopeLoop_spec h).imp fun r r' hr => ⟨hr.1, fun t now => ?_⟩
      rw [hr.2 t now]
      exact and_congr_right fun _ => hmeans t now

/-- A rule without a scope and one that ends at 50, restricted to task 7 until 100 by the caller and
    until 80 by the old scope. -/
theorem addscope_inScope_two :
    apnEscalationAddscope (fun _ => true)
        [⟨1, 0, none, .default ⟨.deny, .none⟩⟩, ⟨2, 0, some ⟨50, 0⟩, .default ⟨.ask, .none⟩⟩]
        (some ⟨80, 0⟩) 100 7 =
      (0, [⟨1, 0, some ⟨80, 7⟩, .default ⟨.deny, .none⟩⟩,
        ⟨2, 0, some ⟨50, 7⟩, .default ⟨.ask, .none⟩⟩]) ∧
    (peInScopeAt (some ⟨50, 7⟩) 7 50 = true ↔
      peInScopeAt (some ⟨50, 0⟩) 7 50 = true ∧ peInScopeAt (some ⟨80, 0⟩) 7 50 = true ∧
        (100 = 0 ∨ (50 : ℤ) ≤ timeT 100) ∧ (7 = 0 ∨ 7 = 7)) := by
  have h : apnEscalationAddscope (fun _ => true)
        [⟨1, 0, none, .default ⟨.deny, .none⟩⟩, ⟨2, 0, some ⟨50, 0⟩, .default ⟨.ask, .none⟩⟩]
        (some ⟨80, 0⟩) 100 7 =
      (0, [⟨1, 0, some ⟨80, 7⟩, .default ⟨.deny, .none⟩⟩,
        ⟨2, 0, some ⟨50, 7⟩, .default ⟨.ask, .none⟩⟩]) := by decide
  have hall := addscope_inScope h
  rw [List.forall₂_cons, List.forall₂_cons] at hall
  exact ⟨h, hall.2.1.2 7 50⟩

end Anoubis.Pe

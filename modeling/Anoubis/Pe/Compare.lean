import Anoubis.Pe.Scope
import Anoubis.Apn.Invariant

/-! Renames and hard links (`pe_compare` in `pe.c`).

    A file may get another name only if no rule tells the two names apart. The code looks at eight
    candidate lists: sandbox and SFS rules, admin and user, and for each of them the candidates of the
    old and of the new path. A rule whose prefix matches exactly one of the paths is a candidate for
    that path, so the eight lists together miss nothing.

        x = 0 … 7:   x & 4 -- sandbox | SFS       x & 2 -- admin | user       x & 1 -- path      -/

namespace Anoubis.Pe

open Anoubis.Apn Anoubis.Lib List

/-! ### Rulesets of the parser -/

/-- A body that can be filed: sandbox and SFS rules with a canonical prefix or none. -/
theorem filed_of_bodyOk {lc : Libc} {k : Kind} (hk : k = .sb ∨ k = .sfs) {body : Body}
    (h : bodyOk lc k body) : rulePrefix body ≠ none ∧
      ∀ p, rulePrefix body = some (some p) → Canonical p := by
  obtain ⟨htype, hwf⟩ := h
  rcases hk with rfl | rfl <;> cases body <;>
    simp_all [apnVerifyTypes, rulePrefix, Body.WF, optPathWF] <;> exact fun p hp => (hwf.1 p hp).canonical

/-- Sandbox and SFS blocks of an accepted text can be filed, so a state of the policy engine, whose
    rulesets all come from the parser, is a `FiledState`. -/
theorem accepted_filed {i : Input} {st : Statics} {rnd : Rand} {r : ParseResult}
    (h : apnParse i st rnd = some r) (hret : r.ret = 0) {k : Kind} (hk : k = .sb ∨ k = .sfs) :
    ∀ b ∈ r.rs.queue k, Filed b.chain := by
  intro b hb
  have hbody := accepted_bodies h hret (givesBodies_ok (inputEnv i st)) k b hb
  exact ⟨fun x hx => (filed_of_bodyOk hk (hbody x hx)).1,
    fun x hx => (filed_of_bodyOk hk (hbody x hx)).2⟩

/-! ### The comparison -/

/-- `struct pe_path_event` of a rename or a hard link. -/
structure PathEvent where
  cookie : ℕ
  uid : ℕ
  path0 : Text
  path1 : Text
  deriving DecidableEq

/-- `event->path[pidx]`. -/
def PathEvent.path (ev : PathEvent) (second : Bool) : Text := if second then ev.path1 else ev.path0

/-- The prefix of a rule. The source reads the path of an SFS rule through the sandbox member of the
    union and the other way round; both structures begin with it. -/
def comparePrefix : Body → Option Text
  | .sfsAccess path .. => path
  | .sfsDefault path .. => path
  | .sbAccess path .. => path
  | _ => none

/-- `pe_compare_path`: the error number, if a rule in scope matches exactly one of the paths. -/
def peComparePath (ev : PathEvent) (now : ℕ) : List Rule → Option ℕ
  | [] => none
  | r :: rs =>
    if !peInScope r.scope ev.cookie now then peComparePath ev now rs
    else match comparePrefix r.body with
      | none => peComparePath ev now rs
      | some p => if pathMatch p ev.path0 ≠ pathMatch p ev.path1 then some exdev else peComparePath ev now rs

/-- One of the eight rounds: SFS or sandbox rules, the priority, the first or the second path. -/
structure Round where
  sfs : Bool
  prio : Prio
  second : Bool
  deriving DecidableEq

/-- `types[!!(x & 4)]`, `prios[!!(x & 2)]` and `x & 1`. -/
def Round.ofIndex (x : ℕ) : Round :=
  ⟨x &&& 4 ≠ 0, if x &&& 2 ≠ 0 then .user1 else .admin, x &&& 1 ≠ 0⟩

/-- The rules that a round looks at. -/
def roundRules (hash : Text → ℕ) (db : PolicyDb) (proc : Option Proc) (ev : PathEvent) (x : Round) :
    Except ℕ (List Rule) :=
  if x.sfs then peSfsGetrules hash db ev.uid x.prio (some (ev.path x.second))
  else peSbGetrules hash db proc ev.uid x.prio (some (ev.path x.second))

/-- The loop of `pe_compare`, given the rules of each round. -/
def compareLoop (ev : PathEvent) (now : ℕ) (rules : Round → Except ℕ (List Rule)) : List Round → ℤ
  | [] => 0
  | x :: xs =>
    match rules x with
    | .error e => -e
    | .ok rs =>
      if rs.isEmpty then compareLoop ev now rules xs
      else match peComparePath ev now rs with
        | some e => -e
        | none => compareLoop ev now rules xs

/-- `pe_compare`. -/
def peCompare (hash : Text → ℕ) (db : PolicyDb) (proc : Option Proc) (ev : PathEvent) (now : ℕ) : ℤ :=
  compareLoop ev now (roundRules hash db proc ev) ((List.range 8).map Round.ofIndex)

/-! ### One list of rules -/

/-- The prefix of the rule, if it has one, does not tell the two paths apart. -/
def Indifferent (ev : PathEvent) (r : Rule) : Prop :=
  ∀ p, comparePrefix r.body = some p → (pathMatch p ev.path0 = true ↔ pathMatch p ev.path1 = true)

/-- Every rule in scope is indifferent. -/
def AllIndifferent (ev : PathEvent) (now : ℕ) (rules : List Rule) : Prop :=
  ∀ r ∈ rules, peInScope r.scope ev.cookie now = true → Indifferent ev r

theorem peComparePath_spec (ev : PathEvent) (now : ℕ) (rules : List Rule) :
    (peComparePath ev now rules = none ↔ AllIndifferent ev now rules) ∧
      ∀ e, peComparePath ev now rules = some e → e = exdev := by
  induction rules with
  | nil => simp [peComparePath, AllIndifferent]
  | cons r rules ih =>
    have hcons : AllIndifferent ev now (r :: rules) ↔
        (peInScope r.scope ev.cookie now = true → Indifferent ev r) ∧ AllIndifferent ev now rules := by
      simp [AllIndifferent]
    rw [peComparePath, hcons]
    cases hs : peInScope r.scope ev.cookie now with
    | false => simpa using ih
    | true =>
      cases hp : comparePrefix r.body with
      | none => simpa [Indifferent, hp] using ih
      | some p =>
        by_cases hm : pathMatch p ev.path0 = pathMatch p ev.path1
        · simpa [Indifferent, hp, hm] using ih
        · have hind : ¬ Indifferent ev r := fun h => hm (Bool.eq_iff_iff.mpr (h p hp))
          refine ⟨by simp [hm, hind], fun e he => ?_⟩
          simpa [hm] using he.symm

/-- The loop returns 0 if no round fails, and a negative number otherwise. -/
theorem compareLoop_spec (ev : PathEvent) (now : ℕ) {rules : Round → Except ℕ (List Rule)}
    (hok : ∀ x, ∃ rs, rules x = .ok rs) (xs : List Round) : (compareLoop ev now rules xs = 0 ↔
      ∀ x ∈ xs, ∀ rs, rules x = .ok rs → AllIndifferent ev now rs) ∧
    (compareLoop ev now rules xs ≠ 0 → compareLoop ev now rules xs < 0) := by
  induction xs with
  | nil => simp [compareLoop]
  | cons x xs ih =>
    obtain ⟨rs, hrs⟩ := hok x
    obtain ⟨hiff, hexdev⟩ := peComparePath_spec ev now rs
    have hcons : (∀ y ∈ x :: xs, ∀ rs, rules y = .ok rs → AllIndifferent ev now rs) ↔
        AllIndifferent ev now rs ∧ ∀ y ∈ xs, ∀ rs, rules y = .ok rs → AllIndifferent ev now rs := by
      simp [hrs]
    rw [compareLoop, hcons]
    simp only [hrs]
    by_cases hnil : rs = []
    · subst hnil
      simpa [AllIndifferent] using ih
    · rw [if_neg (by simpa using hnil)]
      cases hc : peComparePath ev now rs with
      | none => simpa [hiff.mp hc] using ih
      | some e =>
        have hall : ¬ AllIndifferent ev now rs := fun h => by simp [hiff.mpr h] at hc
        obtain rfl := hexdev e hc
        simp [hall, exdev]

/-! ### The candidate lists -/

section Rounds

variable {hash : Text → ℕ} {db : PolicyDb} {proc : Option Proc} {ev : PathEvent} {now : ℕ}

/-- The chain from which a round selects. -/
def roundChain (db : PolicyDb) (proc : Option Proc) (ev : PathEvent) (x : Round) : List Rule :=
  if x.sfs then sfsChain db ev.uid x.prio else sbChain db proc ev.uid x.prio

/-- The candidates are a selection from the chain of the round. -/
theorem roundRules_selects (hash : Text → ℕ) (hf : FiledState db proc)
    (habs : ∀ b, isRelative (some (ev.path b)) = false) (x : Round) :
    ∃ rs, roundRules hash db proc ev x = .ok rs ∧
      Selects (applies (some (ev.path x.second))) (roundChain db proc ev x) rs := by
  have hcand (chain : List Rule) (hc : Filed chain) :
      ∃ rs, blockCandidates hash chain (some (ev.path x.second)) = .ok rs ∧
        Selects (applies (some (ev.path x.second))) chain rs := by
    have hspec := blockCandidates_spec hash hc (some (ev.path x.second))
    rwa [if_neg (by simp [habs])] at hspec
  rw [roundRules, roundChain]
  split
  · rw [peSfsGetrules_eq]
    split
    · rename_i hnil
      rw [isEmpty_iff.mp hnil]
      exact ⟨[], rfl, ⟨.refl _, .refl _⟩⟩
    · exact hcand _ (hf.sfsChain ev.uid x.prio)
  · have hfiled := hf.sbChain ev.uid x.prio
    rw [peSbGetrules]
    rw [sbChain] at hfiled ⊢
    cases hb : sbBlock db proc ev.uid x.prio with
    | none => exact ⟨[], rfl, ⟨.refl _, .refl _⟩⟩
    | some b =>
      rw [hb] at hfiled
      exact hcand b.chain hfiled

/-- A rule with a matching prefix is filed under it. -/
theorem applies_of_match {r : Rule} {p path : Text} (hp : comparePrefix r.body = some p)
    (hm : pathMatch p path = true) : applies (some path) r = true := by
  have hr : rulePrefix r.body = some (some p) := by
    cases hb : r.body <;> simp_all [comparePrefix, rulePrefix]
  simpa [applies, hr, prefixApplies] using hm

/-- The candidates of both paths are enough to find every rule that tells the paths apart. -/
theorem allIndifferent_of_candidates {chain rs₀ rs₁ : List Rule} (h₀ : Selects (applies (some ev.path0)) chain rs₀)
    (h₁ : Selects (applies (some ev.path1)) chain rs₁) :
    AllIndifferent ev now chain ↔ AllIndifferent ev now rs₀ ∧ AllIndifferent ev now rs₁ := by
  constructor
  · intro h
    exact ⟨fun r hr => h r (h₀.sub.subset hr), fun r hr => h r (h₁.sub.subset hr)⟩
  · rintro ⟨ha, hb⟩ r hr hs p hp
    constructor
    · intro hm
      exact (ha r (h₀.mem hr (applies_of_match hp hm)) hs p hp).mp hm
    · intro hm
      exact (hb r (h₁.mem hr (applies_of_match hp hm)) hs p hp).mpr hm

end Rounds

theorem mem_rounds (x : Round) : x ∈ (List.range 8).map Round.ofIndex := by
  obtain ⟨sfs, prio, second⟩ := x
  cases sfs <;> cases prio <;> cases second <;> decide

/-- `pe_compare` allows a rename or hard link between absolute paths if and only if no rule in scope,
    of the SFS block of the user or of the sandbox block of the process at either priority, has a
    prefix that matches exactly one of the paths; otherwise it returns a negative error. -/
theorem peCompare_zero_iff (hash : Text → ℕ) {db : PolicyDb} {proc : Option Proc}
    (hf : FiledState db proc) (ev : PathEvent) (now : ℕ)
    (h₀ : isRelative (some ev.path0) = false) (h₁ : isRelative (some ev.path1) = false) :
    (peCompare hash db proc ev now = 0 ↔ ∀ prio,
      AllIndifferent ev now (sfsChain db ev.uid prio) ∧
      AllIndifferent ev now (sbChain db proc ev.uid prio)) ∧
    (peCompare hash db proc ev now ≠ 0 → peCompare hash db proc ev now < 0) := by
  have habs : ∀ b, isRelative (some (ev.path b)) = false := by
    intro b
    cases b
    · exact h₀
    · exact h₁
  have hsel := roundRules_selects hash hf habs
  obtain ⟨hzero, hneg⟩ := compareLoop_spec ev now
    (fun x => (hsel x).imp fun _ h => h.1) ((List.range 8).map Round.ofIndex)
  refine ⟨?_, hneg⟩
  have hpair (sfs : Bool) (prio : Prio) :
      AllIndifferent ev now (roundChain db proc ev ⟨sfs, prio, false⟩) ↔
        ∀ second rs, roundRules hash db proc ev ⟨sfs, prio, second⟩ = .ok rs →
          AllIndifferent ev now rs := by
    obtain ⟨rs₀, hrs₀, hs₀⟩ := hsel ⟨sfs, prio, false⟩
    obtain ⟨rs₁, hrs₁, hs₁⟩ := hsel ⟨sfs, prio, true⟩
    rw [allIndifferent_of_candidates hs₀ hs₁]
    simp [hrs₀, hrs₁]
  rw [peCompare, hzero]
  constructor
  · intro h prio
    exact ⟨(hpair true prio).mpr fun second => h _ (mem_rounds _),
      (hpair false prio).mpr fun second => h _ (mem_rounds _)⟩
  · rintro h ⟨sfs, prio, second⟩ -
    cases sfs
    · exact (hpair false prio).mp (h prio).2 second
    · exact (hpair true prio).mp (h prio).1 second

/-! User 1000 has a sandbox rule for `/a` and moves a file out of it. -/

def fencedDb : PolicyDb :=
  [⟨1000, ⟨none, some { demoRs with sbQueue := [⟨2, 1, .sb, [], Flags.none, demoChain⟩] }⟩⟩]

theorem fenced_filed : FiledState fencedDb none where
  sfs := by
    intro u hu prio rs hrs b hb
    rw [fencedDb, mem_singleton] at hu
    subst hu
    cases prio <;> simp [ByPrio.get, demoRs] at hrs
    simp [← hrs] at hb
  sb := by
    intro u hu prio rs hrs b hb
    rw [fencedDb, mem_singleton] at hu
    subst hu
    cases prio <;> simp [ByPrio.get, demoRs] at hrs
    simp only [← hrs, mem_singleton] at hb
    subst hb
    refine ⟨by simp [demoChain, rulePrefix], ?_⟩
    intro r hr p hp
    obtain rfl : p = "/a".toList := by
      simp only [demoChain, mem_cons, not_mem_nil, or_false] at hr
      rcases hr with rfl | rfl
      · simp [rulePrefix] at hp
      · simpa [rulePrefix] using hp.symm
    exact ⟨["a".toList], rfl, by
      intro c hc
      rw [mem_singleton.mp hc]
      exact ⟨by decide, by decide, by decide, by decide⟩⟩
  ctx := by simp

theorem peCompare_zero_iff_fenced :
    peCompare hashFn fencedDb none ⟨7, 1000, "/a/x".toList, "/b/x".toList⟩ 0 < 0 := by
  obtain ⟨hiff, hneg⟩ := peCompare_zero_iff hashFn fenced_filed ⟨7, 1000, "/a/x".toList, "/b/x".toList⟩ 0
    rfl rfl
  refine hneg fun h0 => ?_
  have hind := (hiff.mp h0 .user1).2 ⟨2, 2, none, .sbAccess (some "/a".toList) .none 7 .none .deny⟩
    (by decide) rfl "/a".toList rfl
  exact absurd hind (by decide)

end Anoubis.Pe

import Anoubis.Apn.Index
import Anoubis.Pe.AlfEvaluate
import Anoubis.Pe.Scope
import Anoubis.Lib.Forall2

/-! Splicing the answer of an escalation into a block (`apn_escalation_splice`).

    The new rules should be considered before the rule that asked, the anchor. Default rules are
    considered last, so new rules that are not defaults can be appended behind a default anchor:

        anchor no default, or last       … │ new rules │ anchor │ …
        anchor default, rules behind     … │ new defaults │ anchor │ … │ other new rules

    No new rule is considered before a rule that is no default and was considered before the anchor.
    But every new rule that is no default is considered before the defaults in front of the anchor. -/

namespace Anoubis.Pe

open Option

open Anoubis.Apn Anoubis.Lib List

/-! ### The function -/

/-- APN_DEFAULT and APN_SFS_DEFAULT. -/
def isDefaultType (r : Rule) : Bool :=
  match r.body with
  | .default _ => true
  | .sfsDefault _ _ _ => true
  | _ => false

/-- TAILQ_INSERT_BEFORE. -/
def insertBefore (anchor : ℕ) (rule : Rule) : List Rule → List Rule
  | [] => []
  | r :: rs => if r.ptr = anchor then rule :: r :: rs else r :: insertBefore anchor rule rs

/-- TAILQ_NEXT of the anchor is not NULL. -/
def hasNext (anchor : ℕ) : List Rule → Bool
  | [] => false
  | r :: rs => if r.ptr = anchor then !rs.isEmpty else hasNext anchor rs

/-- The ID of a new rule: assigned in the ruleset if there is one, else 0. -/
def spliceId (ix : Option Index) (ptr : ℕ) : Option (ℕ × Option Index) :=
  match ix with
  | none => some (0, none)
  | some ix => (apnAssignId ix ptr).map fun x => (x.1, some x.2)

/-- The loop that moves the new rules into the block. -/
def spliceLoop (append : Bool) (anchor : ℕ) :
    Option Index → List Rule → List Rule → Option (List Rule × Option Index)
  | ix, [], block => some (block, ix)
  | ix, rule :: chain, block => do
    let (id, ix) ← spliceId ix rule.ptr
    let rule := { rule with id := id }
    spliceLoop append anchor ix chain
      (if isDefaultType rule then insertBefore anchor rule block
      else if append then block ++ [rule]
      else insertBefore anchor rule block)

/-- `apn_escalation_splice` on the block of the anchor. There is no result if no ID can be assigned. -/
def apnEscalationSplice (ix : Option Index) (anchor : Rule) (chain block : List Rule) :
    Option (Except ℕ (List Rule × Option Index)) :=
  if isDefaultType anchor then (spliceLoop (hasNext anchor.ptr block) anchor.ptr ix chain block).map .ok
  else if chain.any isDefaultType then some (.error einval)
  else (spliceLoop false anchor.ptr ix chain block).map .ok

/-! ### The lists -/

/-- The rule got another ID. -/
def Renumbered (r r' : Rule) : Prop := ∃ id, r' = { r with id := id }

variable {anchor : Rule} {pre post chain : List Rule}

theorem insertBefore_append (h : ∀ r ∈ pre, r.ptr ≠ anchor.ptr) (rule : Rule) :
    insertBefore anchor.ptr rule (pre ++ anchor :: post) = pre ++ rule :: anchor :: post := by
  induction pre with
  | nil => rw [nil_append, insertBefore, if_pos rfl, nil_append]
  | cons r pre ih =>
    rw [cons_append, insertBefore, if_neg (h r mem_cons_self),
      ih fun x hx => h x (mem_cons_of_mem _ hx), cons_append]

theorem hasNext_append (h : ∀ r ∈ pre, r.ptr ≠ anchor.ptr) :
    hasNext anchor.ptr (pre ++ anchor :: post) = !post.isEmpty := by
  induction pre with
  | nil => rw [nil_append, hasNext, if_pos rfl]
  | cons r pre ih =>
    rw [cons_append, hasNext, if_neg (h r mem_cons_self), ih fun x hx => h x (mem_cons_of_mem _ hx)]

/-- The new rules go in front of the anchor, in their order; with `append` those that are no defaults
    go to the end. -/
theorem spliceLoop_eq {append : Bool} :
    ∀ {ix ix' : Option Index} {pre post block' : List Rule}, (∀ r ∈ pre, r.ptr ≠ anchor.ptr) →
      (∀ r ∈ chain, r.ptr ≠ anchor.ptr) →
      spliceLoop append anchor.ptr ix chain (pre ++ anchor :: post) = some (block', ix') →
      ∃ new, List.Forall₂ Renumbered chain new ∧ block' =
        if append then pre ++ new.filter isDefaultType ++ anchor :: post ++
          new.filter (fun r => !isDefaultType r)
        else pre ++ new ++ anchor :: post := by
  induction chain with
  | nil =>
    intro ix ix' pre post block' _ _ h
    cases h
    exact ⟨[], .nil, by simp⟩
  | cons r chain ih =>
    intro ix ix' pre post block' hpre hchain h
    rw [spliceLoop] at h
    obtain ⟨⟨id, ix₁⟩, -, h⟩ := bind_eq_some_iff.mp h
    have hr : ({ r with id := id } : Rule).ptr ≠ anchor.ptr := hchain r mem_cons_self
    have hrest : ∀ x ∈ chain, x.ptr ≠ anchor.ptr := fun x hx => hchain x (mem_cons_of_mem _ hx)
    have hpre' : ∀ x ∈ pre ++ [({ r with id := id } : Rule)], x.ptr ≠ anchor.ptr := by
      intro x hx
      rcases mem_append.mp hx with hx | hx
      · exact hpre x hx
      · rwa [mem_singleton.mp hx]
    have hinsert : insertBefore anchor.ptr { r with id := id } (pre ++ anchor :: post) =
        pre ++ { r with id := id } :: anchor :: post := insertBefore_append hpre _
    have hsplit : pre ++ ({ r with id := id } : Rule) :: anchor :: post =
        pre ++ [({ r with id := id } : Rule)] ++ anchor :: post := by simp
    have hren : Renumbered r { r with id := id } := ⟨id, rfl⟩
    simp only [hinsert, hsplit] at h
    generalize ({ r with id := id } : Rule) = r' at h hr hpre' hren
    cases hd : isDefaultType r' with
    | true =>
      rw [hd, if_pos rfl] at h
      obtain ⟨new, hnew, rfl⟩ := ih hpre' hrest h
      refine ⟨r' :: new, .cons hren hnew, ?_⟩
      cases append <;> simp [hd]
    | false =>
      rw [hd, if_neg Bool.false_ne_true] at h
      cases append with
      | true =>
        rw [if_pos rfl, append_assoc, cons_append] at h
        obtain ⟨new, hnew, rfl⟩ := ih hpre hrest h
        refine ⟨r' :: new, .cons hren hnew, ?_⟩
        simp [hd]
      | false =>
        rw [if_neg Bool.false_ne_true] at h
        obtain ⟨new, hnew, rfl⟩ := ih hpre' hrest h
        refine ⟨r' :: new, .cons hren hnew, ?_⟩
        simp

/-- The block after a success. -/
theorem apnEscalationSplice_eq {ix ix' : Option Index} {block' : List Rule} (hpre : ∀ r ∈ pre, r.ptr ≠ anchor.ptr)
    (hchain : ∀ r ∈ chain, r.ptr ≠ anchor.ptr)
    (h : apnEscalationSplice ix anchor chain (pre ++ anchor :: post) = some (.ok (block', ix'))) :
    ∃ new, List.Forall₂ Renumbered chain new ∧ (isDefaultType anchor = false → ∀ r ∈ new, isDefaultType r = false) ∧
      block' = spliced isDefaultType pre anchor post new := by
  rw [apnEscalationSplice] at h
  cases ha : isDefaultType anchor with
  | true =>
    rw [ha, if_pos rfl, hasNext_append hpre] at h
    obtain ⟨out, hloop, hout⟩ := map_eq_some_iff.mp h
    cases hout
    obtain ⟨new, hnew, rfl⟩ := spliceLoop_eq hpre hchain hloop
    refine ⟨new, hnew, by simp, ?_⟩
    rw [spliced, ha]
    cases post <;> simp
  | false =>
    rw [ha, if_neg Bool.false_ne_true] at h
    split at h
    · simp at h
    · rename_i hany
      obtain ⟨out, hloop, hout⟩ := map_eq_some_iff.mp h
      cases hout
      obtain ⟨new, hnew, rfl⟩ := spliceLoop_eq hpre hchain hloop
      refine ⟨new, hnew, fun _ r hr => ?_, ?_⟩
      · obtain ⟨r₀, hr₀, id, rfl⟩ := Lib.forall₂_left hnew hr
        have hno := any_eq_false.mp (Bool.eq_false_iff.mpr hany) r₀ hr₀
        exact Bool.eq_false_iff.mpr hno
      · rw [spliced, ha]
        simp

/-! ### The evaluators -/

/-- An event for one of the evaluators; the sandbox is asked for one access mode. -/
inductive Query where
  | alf (msg : AlfEvent) (now : ℕ)
  | sb (w : World) (ev : FileEvent) (now : ℕ) (m : Mode)

/-- A rule that is no default matches. -/
def Query.hit : Query → Rule → Bool
  | .alf msg now => alfHit msg now
  | .sb w ev now m => sbHit w ev now m.atype

/-- A default rule counts. -/
def Query.dflt : Query → Rule → Bool
  | .alf msg now => alfDefault msg now
  | .sb _ _ _ _ => isDefault

/-- The rule that decides. -/
def Query.decider (q : Query) (chain : List Rule) : Option Rule := firstMatch q.hit q.dflt chain

/-- The event is decided by rules. -/
def Query.Asks : Query → Prop
  | .alf msg _ => alwaysAllowed msg = false
  | .sb _ ev _ m => Requested ev m

/-- The verdict of the code. -/
def Query.verdict : Query → List Rule → Option Action
  | .alf msg now, chain => (peAlfEvaluateRule chain msg 0 now).decision
  | .sb w ev now m, chain => (peSbEvaluate w chain ev now Result.init m.atype .admin).decision

def Query.action : Query → Rule → Option Action
  | .alf _ _ => alfAction
  | .sb _ _ _ _ => fun r => some (sbAction r)

theorem Query.verdict_eq {q : Query} (h : q.Asks) (chain : List Rule) :
    q.verdict chain = (q.decider chain).bind q.action := by
  cases q with
  | alf msg now =>
    rw [Query.verdict, peAlfEvaluateRule_eq chain 0 h]
    cases hd : firstMatch (alfHit msg now) (alfDefault msg now) chain <;>
      simp [Query.decider, Query.hit, Query.dflt, hd, Query.action, alfResult]
  | sb w ev now m =>
    have hm : sbMatch w ev now m.atype none chain = (Query.sb w ev now m).decider chain := by
      rw [sbMatch_eq, none_or, Query.decider, firstMatch]
      rfl
    rw [Query.verdict, peSbEvaluate, if_neg h, hm]
    cases (Query.sb w ev now m).decider chain with
    | none => rfl
    | some r => exact decision_applyMatch _ _ _

theorem Query.early_of_hit (q : Query) (r : Rule) (h : q.hit r = true) : isDefaultType r = false := by
  cases q <;> cases hb : r.body <;> simp_all [Query.hit, alfHit, sbHit, isDefaultType]

theorem Query.late_of_dflt (q : Query) (r : Rule) (h : q.dflt r = true) : isDefaultType r = true := by
  cases q <;> cases hb : r.body <;> simp_all [Query.dflt, alfDefault, isDefault, isDefaultType]

theorem Query.matches_of_decider {q : Query} {r : Rule} (h : q.decider chain = some r) :
    (q.hit r || q.dflt r) = true := by
  rw [Bool.or_eq_true]
  exact of_firstMatch h

theorem find?_ne_none {α : Type} {p : α → Bool} {l : List α} {a : α} (ha : a ∈ l) (hp : p a = true) :
    l.find? p ≠ none := by
  intro h
  exact absurd hp (find?_eq_none.mp h a ha)

/-- What a splice does to the decisions: rules that are no defaults and stood in front of the anchor keep
    theirs; a default in front of the anchor loses to new rules that are no defaults; from the anchor on
    the new rules decide what they match; what they do not match stays. No rule is lost. -/
theorem splice_decides {ix ix' : Option Index} {anchor : Rule} {chain pre post block' : List Rule}
    (hptr : ((pre ++ anchor :: post ++ chain).map (·.ptr)).Nodup)
    (h : apnEscalationSplice ix anchor chain (pre ++ anchor :: post) = some (.ok (block', ix'))) :
    ∃ new, List.Forall₂ Renumbered chain new ∧ block'.Perm (pre ++ anchor :: post ++ new) ∧
      ∀ q : Query,
        (q.Asks → ∀ l, q.verdict l = (q.decider l).bind q.action) ∧
        (∀ r ∈ beforeEarly isDefaultType pre anchor post,
          q.decider (pre ++ anchor :: post) = some r → q.decider block' = some r) ∧
        (∀ r ∈ beforeLate isDefaultType pre anchor, q.decider (pre ++ anchor :: post) = some r →
          q.decider block' = (new.find? q.hit).or (some r)) ∧
        ((∀ r ∈ beforeEarly isDefaultType pre anchor post ++ beforeLate isDefaultType pre anchor,
            q.decider (pre ++ anchor :: post) ≠ some r) →
          q.decider new ≠ none → q.decider block' = q.decider new) ∧
        (q.decider new = none → q.decider block' = q.decider (pre ++ anchor :: post)) := by
  have hpre : ∀ r ∈ pre, r.ptr ≠ anchor.ptr := by
    intro r hr heq
    rw [List.append_assoc, List.map_append] at hptr
    exact (List.nodup_append.mp hptr).2.2 _ (List.mem_map_of_mem hr) anchor.ptr (by simp) heq
  have hchain : ∀ r ∈ chain, r.ptr ≠ anchor.ptr := by
    intro r hr heq
    rw [List.map_append] at hptr
    exact (List.nodup_append.mp hptr).2.2 anchor.ptr (by simp) _ (List.mem_map_of_mem hr) heq.symm
  obtain ⟨new, hnew, hlate, rfl⟩ := apnEscalationSplice_eq hpre hchain h
  refine ⟨new, hnew, spliced_perm, fun q => ?_⟩
  have hold : q.decider (pre ++ anchor :: post) = _ := firstMatch_anchor q.early_of_hit q.late_of_dflt
  have hspl : q.decider (spliced isDefaultType pre anchor post new) = _ :=
    firstMatch_spliced q.early_of_hit q.late_of_dflt hlate
  rw [hspl]
  refine ⟨fun hq l => Query.verdict_eq hq l, fun r hr hd => ?_, fun r hr hd => ?_, fun hnot hdec => ?_,
    fun hnone => ?_⟩
  · have hsome := find?_ne_none (p := fun x => q.hit x || q.dflt x) hr (Query.matches_of_decider hd)
    obtain ⟨x, hx⟩ := Option.ne_none_iff_exists'.mp hsome
    rw [hold, hx, Option.some_or] at hd
    rw [hx, Option.some_or, hd]
  · -- nothing early decides, else the decider would not be late
    have hsome := find?_ne_none (p := fun x => q.hit x || q.dflt x) hr (Query.matches_of_decider hd)
    obtain ⟨x, hx⟩ := Option.ne_none_iff_exists'.mp hsome
    have hearly : (beforeEarly isDefaultType pre anchor post).find? (fun x => q.hit x || q.dflt x) = none := by
      cases he : (beforeEarly isDefaultType pre anchor post).find? (fun x => q.hit x || q.dflt x) with
      | none => rfl
      | some y =>
        rw [hold, he, Option.some_or, Option.some.injEq] at hd
        have hy := early_of_beforeEarly (List.mem_of_find?_eq_some he)
        rw [hd, late_of_beforeLate hr] at hy
        exact absurd hy (by decide)
    rw [hold, hearly, Option.none_or, hx, Option.some_or] at hd
    rw [hearly, Option.none_or, hx, Option.some_or, hd]
  · have hnone : ∀ l : List Rule, (∀ r ∈ l, q.decider (pre ++ anchor :: post) ≠ some r) →
        (∀ y, l.find? (fun x => q.hit x || q.dflt x) = some y →
          q.decider (pre ++ anchor :: post) = some y) →
        l.find? (fun x => q.hit x || q.dflt x) = none := by
      intro l hl hfind
      cases hf : l.find? (fun x => q.hit x || q.dflt x) with
      | none => rfl
      | some y => exact absurd (hfind y hf) (hl y (List.mem_of_find?_eq_some hf))
    have hearly := hnone _ (fun r hr => hnot r (List.mem_append_left _ hr)) fun y hy => by
      rw [hold, hy, Option.some_or]
    have hlate := hnone _ (fun r hr => hnot r (List.mem_append_right _ hr)) fun y hy => by
      rw [hold, hearly, Option.none_or, hy, Option.some_or]
    rw [hearly, hlate, Option.none_or, Option.none_or, ← Option.or_assoc]
    obtain ⟨y, hy⟩ := Option.ne_none_iff_exists'.mp hdec
    rw [Query.decider, firstMatch] at hy ⊢
    rw [hy, Option.some_or]
  · obtain ⟨h1, h2⟩ := Option.or_eq_none_iff.mp hnone
    rw [hold, h1, h2, Option.none_or, Option.none_or]

/-! A block `default allow; default deny` whose second rule is the anchor, and the new rule
    `deny accept tcp all`. -/

def tcpMsg : AlfEvent := ⟨1000, 7, 0, .accept, .inet, .stream, 6, ⟨0, 0, 0⟩, ⟨0, 0, 0⟩⟩

def firstDefault : Rule := ⟨1, 1, none, .default ⟨.allow, .none⟩⟩

def secondDefault : Rule := ⟨2, 2, none, .default ⟨.deny, .none⟩⟩

def denyAccept : Rule := ⟨3, 0, none, .alfFilter .deny ⟨.none, .tcp, .accept, [], [], [], []⟩⟩

theorem splice_decides_accept :
    ∃ new, List.Forall₂ Renumbered [denyAccept] new ∧
      [firstDefault, denyAccept, secondDefault].Perm ([firstDefault] ++ secondDefault :: [] ++ new) ∧
      ∀ q : Query,
        (q.Asks → ∀ l, q.verdict l = (q.decider l).bind q.action) ∧
        (∀ r ∈ beforeEarly isDefaultType [firstDefault] secondDefault [],
          q.decider ([firstDefault] ++ secondDefault :: []) = some r →
            q.decider [firstDefault, denyAccept, secondDefault] = some r) ∧
        (∀ r ∈ beforeLate isDefaultType [firstDefault] secondDefault,
          q.decider ([firstDefault] ++ secondDefault :: []) = some r →
            q.decider [firstDefault, denyAccept, secondDefault] = (new.find? q.hit).or (some r)) ∧
        ((∀ r ∈ beforeEarly isDefaultType [firstDefault] secondDefault [] ++
            beforeLate isDefaultType [firstDefault] secondDefault,
            q.decider ([firstDefault] ++ secondDefault :: []) ≠ some r) →
          q.decider new ≠ none → q.decider [firstDefault, denyAccept, secondDefault] = q.decider new) ∧
        (q.decider new = none → q.decider [firstDefault, denyAccept, secondDefault] =
          q.decider ([firstDefault] ++ secondDefault :: [])) :=
  @splice_decides none none secondDefault [denyAccept] [firstDefault] []
    [firstDefault, denyAccept, secondDefault] (by decide) rfl

/-- The first default rule, which is considered before the anchor, allowed the event; now it is denied. -/
theorem earlier_default_loses :
    apnEscalationSplice none secondDefault [denyAccept] [firstDefault, secondDefault] =
        some (.ok ([firstDefault, denyAccept, secondDefault], none)) ∧
      (Query.alf tcpMsg 0).decider [firstDefault, secondDefault] = some firstDefault ∧
      (Query.alf tcpMsg 0).verdict [firstDefault, secondDefault] = some .allow ∧
      (Query.alf tcpMsg 0).verdict [firstDefault, denyAccept, secondDefault] = some .deny :=
  ⟨rfl, rfl, rfl, rfl⟩

end Anoubis.Pe

import Anoubis.Apn.Complete
import Anoubis.Lib.Forall2

/-! Invariants of a parse.

    A policy changes the ruleset in two places only: the version, and the blocks that are added. A
    property of the ruleset (and of the tokens read so far) that both keep holds of every text that
    was read without a counted error, also of one where the parser stopped silently.

        version*  -->  (block of a module | SFS block behind the keyword)*  -->  accepted ruleset -/

namespace Anoubis.Apn

open Anoubis.Lib Anoubis.Lib.Syn List

/-- The rules of each module have bodies in `V`. -/
structure GivesBodies (e : Env) (V : Kind → Body → Prop) : Prop where
  alf : Gives (alfbody e) (V .alf)
  sfs : Gives (sfsbody e) (V .sfs)
  sb : Gives (sbbody e) (V .sb)
  ctx : Gives (ctxbody e) (V .ctx)

theorem GivesBodies.mono {e : Env} {V W : Kind → Body → Prop} (h : GivesBodies e V)
    (hvw : ∀ k b, V k b → W k b) : GivesBodies e W where
  alf := Yields.mono h.alf (hvw .alf)
  sfs := Yields.mono h.sfs (hvw .sfs)
  sb := Yields.mono h.sb (hvw .sb)
  ctx := Yields.mono h.ctx (hvw .ctx)

theorem givesBodies_ok (e : Env) : GivesBodies e (bodyOk e.lc) :=
  ⟨gives_alfbody e, gives_sfsbody e, gives_sbbody e, gives_ctxbody e⟩

/-- `I` is kept while the grammar reads rules whose bodies satisfy `V`. An SFS block comes behind a
    keyword of its own. -/
structure Kept (e : Env) (V : Kind → Body → Prop) (I : Ruleset → List Tok → Prop) : Prop
    extends GivesBodies e V where
  skip : ∀ {rs pre} (ts : List Tok), I rs pre → I rs (pre ++ ts)
  versions : ∀ {rs pre} (v : ℕ), I rs pre → I { rs with version := v } pre
  added : ∀ {rs rs' : Ruleset} {pre : List Tok} {b : Block}, b.kind ≠ .sfs →
    (∀ r ∈ b.chain, V b.kind r.body) → I rs pre →
    apnAddBlockCommon (fun b => (apnPrintRule e.lc b).isSome) rs b = .added rs' → I rs' pre
  addedSfs : ∀ {rs rs' : Ruleset} {pre : List Tok} {b : Block}, b.kind = .sfs →
    (∀ r ∈ b.chain, V b.kind r.body) → I rs pre →
    apnAddBlockCommon (fun b => (apnPrintRule e.lc b).isSome) rs b = .added rs' →
    I rs' (pre ++ [.kw .sfs])
  index : ∀ {rs rs' : Ruleset} {pre : List Tok} {b : Block}, I rs pre →
    apnAddBlockCommon (fun b => (apnPrintRule e.lc b).isSome) rs b = .unprintable rs' → I rs' pre

namespace Kept

variable {e : Env} {V : Kind → Body → Prop} {I : Ruleset → List Tok → Prop}

/-- The invariant after a piece of the grammar, whether it succeeds or stops silently. -/
abbrev Keeps {α : Type} (I J : Ruleset → List Tok → Prop) (p : G α) (W : α → Prop)
    (K : Ruleset → List Tok → Prop) : Prop :=
  Holds Scanned (fun s pre => J s.rs pre) p (fun a s pre => W a ∧ K s.rs pre) (fun s pre => I s.rs pre)

variable {α : Type} {p : G α} {W : α → Prop} {id : ℕ} {as : List App} {f : Flags} {chain : List Rule}

theorem Keeps.next {β : Type} {J K L : Ruleset → List Tok → Prop} {f : α → G β} {X : β → Prop}
    (hp : Keeps I J p W K) (hf : ∀ a, W a → Keeps I K (f a) X L) :
    Keeps I J (p >>= f) X L := Holds.bind scanned_hereditary hp hf

/-- A piece that only has a value. -/
theorem keeps_gives {J : Ruleset → List Tok → Prop} (hJ : ∀ {rs pre} (ts : List Tok), J rs pre → J rs (pre ++ ts))
    (h : Gives p W) : Keeps I J p W J :=
  Yields.holds h fun _ _ ts _ hpre => hJ ts hpre

theorem keeps_pure {J : Ruleset → List Tok → Prop} {a : α} (h : W a) :
    Keeps I J (pure a) W J := Holds.pure fun _ _ hpre => ⟨h, hpre⟩

/-! ### Rules -/

section

variable {J : Ruleset → List Tok → Prop} (hJ : ∀ {rs pre} (ts : List Tok), J rs pre → J rs (pre ++ ts))
  {k : Kind} {body : G Body} (hbody : Gives body (V k))

include hJ

theorem keeps_ruleid : Keeps I J (ruleid e) (fun _ => True) J where
  ok := by
    rintro s pre ts id s' - hpre hd
    obtain ⟨rfl, -, -⟩ := derives_ruleid hd
    exact ⟨trivial, hJ ts hpre⟩
  stop := fun _ _ ha => (aborts_ruleid ha).elim

include hbody

theorem keeps_rule : Keeps I J (rule e body) (fun r => V k r.body) J :=
  (keeps_ruleid hJ).next fun _ _ => (keeps_gives hJ hbody).next fun _ hb =>
    (keeps_gives hJ (gives_scope e)).next fun _ _ => keeps_pure hb

theorem keeps_rules : Keeps I J (rules e body) (fun chain => ∀ r ∈ chain, V k r.body) J := by
  have hone : Keeps I J (do let r ← rule e body; nl e; pure r) (fun r => V k r.body) J :=
    (keeps_rule hJ hbody).next fun _ hr => (keeps_gives hJ (gives_nl e)).next fun _ _ => keeps_pure hr
  exact Holds.many scanned_hereditary (I := fun _ (s : PState) pre => J s.rs pre) fun _ => hone

end

/-! ### Blocks -/

theorem newBlock_bodies {s : PState} {k : Kind} (h : ∀ r ∈ chain, V k r.body) :
    ∀ r ∈ (newBlock e s k id as f chain).chain, V k r.body := by
  intro r hr
  have hbody := mem_map_of_mem (f := Rule.body) hr
  rw [newBlock, map_copyChain Rule.body (fun _ _ => rfl)] at hbody
  obtain ⟨r', hr', heq⟩ := mem_map.mp hbody
  rw [← heq]
  exact h r' hr'

/-- A block that is added brings `J` to `I`; one that is refused leaves at least `I`. -/
theorem keeps_addBlock {J : Ruleset → List Tok → Prop} {look : Bool} {k : Kind} (hchain : ∀ r ∈ chain, V k r.body)
    (hJI : ∀ {rs pre}, J rs pre → I rs pre) (hadd : ∀ {rs rs' : Ruleset} {pre : List Tok} {b : Block}, b.kind = k →
      (∀ r ∈ b.chain, V b.kind r.body) → J rs pre →
      apnAddBlockCommon (fun b => (apnPrintRule e.lc b).isSome) rs b = .added rs' → I rs' pre)
    (hindex : ∀ {rs rs' : Ruleset} {pre : List Tok} {b : Block}, I rs pre →
      apnAddBlockCommon (fun b => (apnPrintRule e.lc b).isSome) rs b = .unprintable rs' → I rs' pre) :
    Keeps I J (addBlock e look k id as f chain) (fun _ => True) I := by
  refine Holds.act (fun s pre b s' hpre hok => ⟨trivial, ?_⟩) (fun s pre s' hpre herr => ?_)
  · cases hres : apnAddBlockCommon (fun b => (apnPrintRule e.lc b).isSome) s.rs
      (newBlock e s k id as f chain) with
    | added rs =>
      simp only [hres, Except.ok.injEq, Prod.mk.injEq] at hok
      obtain ⟨-, rfl⟩ := hok
      exact hadd rfl (newBlock_bodies hchain) hpre hres
    | duplicate => simp [hres] at hok
    | unprintable rs => simp [hres] at hok
  · cases hres : apnAddBlockCommon (fun b => (apnPrintRule e.lc b).isSome) s.rs
      (newBlock e s k id as f chain) with
    | added rs => simp [hres] at herr
    | duplicate =>
      simp only [hres, Except.error.injEq, Prod.mk.injEq] at herr
      obtain ⟨rfl, -⟩ := herr
      exact hJI hpre
    | unprintable rs =>
      simp only [hres, Except.error.injEq, Prod.mk.injEq] at herr
      obtain ⟨rfl, -⟩ := herr
      exact hindex (hJI hpre) hres

section

variable (h : Kept e V I)

include h

theorem keeps_ruleset {k : Kind} {body : G Body} (hbody : Gives body (V k)) (hk : k ≠ .sfs) :
    Keeps I I (ruleset e k body) (fun _ => True) I := by
  refine (keeps_ruleid h.skip).next fun id _ => (keeps_gives h.skip (gives_apps e)).next fun as _ =>
    (keeps_gives h.skip (gives_blockflags k)).next fun f _ =>
    (keeps_gives h.skip (gives_optnl e)).next fun _ _ =>
    (keeps_gives h.skip (gives_char e _)).next fun _ _ =>
    (keeps_gives h.skip (gives_optnl e)).next fun _ _ =>
    (keeps_rules h.skip hbody).next fun chain hchain =>
    (keeps_gives h.skip (gives_char e _)).next fun _ _ => ?_
  have hadd : Keeps I I (addBlock e true k id as f chain) (fun _ => True) I :=
    keeps_addBlock hchain (fun hI => hI) (fun hkind => h.added (hkind ▸ hk)) h.index
  cases e.d with
  | current => exact (keeps_gives h.skip (gives_optnl e)).next fun _ _ => hadd
  | v042 => exact (keeps_gives h.skip (gives_nl e)).next fun _ _ => hadd

theorem keeps_blockmodule {name : Kw} {k : Kind} {body : G Body} (hname : name ≠ .colon)
    (hbody : Gives body (V k)) (hk : k ≠ .sfs) : Keeps I I (blockmodule e name k body) (fun _ => True) I := by
  refine (keeps_gives h.skip (gives_kw e hname)).next fun _ _ =>
    (keeps_gives h.skip (gives_optnl e)).next fun _ _ =>
    (keeps_gives h.skip (gives_char e _)).next fun _ _ =>
    (keeps_gives h.skip (gives_optnl e)).next fun _ _ => ?_
  have hmany : Keeps I I (many (isNot '\x7d') syntaxError (ruleset e k body))
      (fun bs => ∀ b ∈ bs, True) I :=
    Holds.many scanned_hereditary (I := fun _ (s : PState) pre => I s.rs pre) fun _ =>
      h.keeps_ruleset hbody hk
  exact hmany.next fun _ _ => (keeps_gives h.skip (gives_char e _)).next fun _ _ => keeps_pure trivial

/-- The invariant as it was before the keyword of an SFS module. -/
def Behind (I : Ruleset → List Tok → Prop) (rs : Ruleset) (pre : List Tok) : Prop :=
  ∃ pre₀ ts, pre = pre₀ ++ .kw .sfs :: ts ∧ I rs pre₀

omit h in
theorem Behind.skip {rs : Ruleset} {pre : List Tok} (ts : List Tok) (hb : Behind I rs pre) :
    Behind I rs (pre ++ ts) := by
  obtain ⟨pre₀, ts₀, rfl, hI⟩ := hb
  exact ⟨pre₀, ts₀ ++ ts, by simp, hI⟩

omit h in
theorem keeps_sfs : Keeps I I (kw e .sfs) (fun _ => True) (Behind I) where
  ok := by
    rintro s pre ts a s' - hpre ⟨rfl, t, rfl, ht⟩
    have ht' : t = .kw .sfs := by
      by_contra hne
      simp [hne] at ht
    exact ⟨trivial, pre, [], by rw [ht'], hpre⟩
  stop := fun _ _ ha => ha.elim

theorem keeps_sfsmodule : Keeps I I (sfsmodule e) (fun _ => True) I := by
  refine keeps_sfs.next fun _ _ => (keeps_gives Behind.skip (gives_optnl e)).next fun _ _ =>
    (keeps_gives Behind.skip (gives_char e _)).next fun _ _ =>
    (keeps_gives Behind.skip (gives_optnl e)).next fun _ _ =>
    (keeps_rules Behind.skip h.sfs).next fun chain hchain =>
    (keeps_gives Behind.skip (gives_char e _)).next fun _ _ => ?_
  have hadd : Keeps I (Behind I) (addBlock e false .sfs 0 [] Flags.none chain) (fun _ => True) I := by
    refine keeps_addBlock hchain ?_ ?_ h.index
    · rintro rs pre ⟨pre₀, ts, rfl, hI⟩
      exact h.skip _ hI
    · rintro rs rs' pre b hkind hb ⟨pre₀, ts, rfl, hI⟩ hres
      simpa using h.skip ts (h.addedSfs hkind hb hI hres)
  exact hadd.next fun _ _ => keeps_pure trivial

theorem keeps_apnmodule : Keeps I I (apnmodule e) (fun _ => True) I := by
  refine Keeps.next (W := fun _ => True) (K := I) ?_ fun _ _ =>
    (keeps_gives h.skip (gives_optnl e)).next fun _ _ => keeps_pure trivial
  exact Holds.choose (h.keeps_blockmodule (by decide) h.alf (by decide))
    (Holds.choose h.keeps_sfsmodule (Holds.choose
      (h.keeps_blockmodule (by decide) h.sb (by decide))
      (h.keeps_blockmodule (by decide) h.ctx (by decide))))

theorem keeps_version : Keeps I I (version e) (fun _ => True) I := by
  refine (keeps_gives h.skip (gives_kw e (by decide))).next fun _ _ =>
    (keeps_gives h.skip (gives_string e)).next fun t _ =>
    (keeps_gives h.skip (gives_nl e)).next fun _ _ => Holds.act ?_ ?_
  · intro s pre u s' hpre hok
    obtain ⟨v, rfl⟩ := setVersion_spec.1 u s' hok
    exact ⟨trivial, h.versions v hpre⟩
  · intro s pre s' _ herr
    exact absurd herr (setVersion_spec.2 s')

/-- Reading a policy keeps the invariant. -/
theorem keeps_policy : Keeps I I (policy e) (fun _ => True) I := by
  have hversion : Keeps I I (choose (isKw .apnversion) (version e) (pure ())) (fun _ => True) I :=
    Holds.choose h.keeps_version (keeps_pure trivial)
  have hmodules : Keeps I I (many isNotEof syntaxError (apnmodule e)) (fun bss => ∀ bs ∈ bss, True) I :=
    Holds.many scanned_hereditary (I := fun _ (s : PState) pre => I s.rs pre) fun _ =>
      h.keeps_apnmodule
  exact (keeps_gives h.skip (gives_optnl e)).next fun _ _ => hversion.next fun _ _ =>
    hmodules.next fun _ _ => (keeps_gives h.skip (gives_endOfText e)).next fun _ _ =>
    keeps_pure trivial

end

end Kept

/-- What is kept holds of the ruleset of every text without a counted error. -/
theorem Kept.holds_parsed {i : Input} {st : Statics} {V : Kind → Body → Prop} {I : Ruleset → List Tok → Prop}
    (h : Kept (inputEnv i st) V I) (h0 : I (emptyRuleset i.flags) [])
    (herrs : (parsed i st).errs = []) : I (parsed i st).rs (inputTokens i st) := by
  have hscan := tokens_scanned (decides i st) (lexInput i st)
  rcases run_of_parsed herrs with ⟨bs, s, rest, hrun, hrs, -⟩ | ⟨s, unread, hrun, hrs, -⟩
  case inl =>
    obtain ⟨ts, hts, hd⟩ := Syn.sound _ hrun
    rw [inputTokens] at hts
    rw [hts] at hscan
    rw [hrs, inputTokens, hts]
    have hts : I s.rs ([] ++ ts) := (h.keeps_policy.ok (scanned_hereditary.left hscan) h0 hd).2
    exact h.skip rest hts
  case inr =>
    obtain ⟨ts, rest, hts, ha⟩ := Syn.quiet _ hrun
    rw [inputTokens] at hts
    rw [hts] at hscan
    rw [hrs, inputTokens, hts]
    have hts : I s.rs ([] ++ ts) := h.keeps_policy.stop (scanned_hereditary.left hscan) h0 ha
    exact h.skip rest hts

/-! ### Bodies of rules -/

/-- Every rule in the queue of its kind has a body in `V`. -/
def BodiesIn (V : Kind → Body → Prop) (rs : Ruleset) : Prop :=
  ∀ k, ∀ b ∈ rs.queue k, ∀ r ∈ b.chain, V k r.body

theorem bodiesIn_added {prints : Block → Bool} {V : Kind → Body → Prop} {rs rs' : Ruleset} {b : Block}
    (hb : ∀ r ∈ b.chain, V b.kind r.body) (h : BodiesIn V rs)
    (hadd : apnAddBlockCommon prints rs b = .added rs') : BodiesIn V rs' := by
  intro k c hc
  rw [apnAddBlockCommon_queue hadd k] at hc
  rcases mem_append.mp hc with hc | hc
  · exact h k c hc
  · obtain ⟨hc, hk⟩ := mem_filter.mp hc
    obtain rfl := mem_singleton.mp hc
    obtain rfl := of_decide_eq_true hk
    exact hb

theorem kept_bodiesIn {e : Env} {V : Kind → Body → Prop} (hV : GivesBodies e V) :
    Kept e V (fun rs _ => BodiesIn V rs) where
  toGivesBodies := hV
  skip := fun _ h => h
  versions := by
    intro rs _ v h k
    have hk := h k
    cases k <;> exact hk
  added := fun _ hb h hadd => bodiesIn_added hb h hadd
  addedSfs := fun _ hb h hadd => bodiesIn_added hb h hadd
  index := by
    intro rs rs' _ b h hres k
    rw [(apnAddBlockCommon_unprintable hres).2 k]
    exact h k

/-- Bodies that the grammar gives are in the rules of every accepted text. -/
theorem accepted_bodies {i : Input} {st : Statics} {rnd : Rand} {r : ParseResult}
    {V : Kind → Body → Prop} (h : apnParse i st rnd = some r) (hret : r.ret = 0)
    (hV : GivesBodies (inputEnv i st) V) : BodiesIn V r.rs := by
  have ho := apnParse_outcome h
  have hparsed : BodiesIn V (parsed i st).rs :=
    (kept_bodiesIn hV).holds_parsed (fun k => by cases k <;> simp [emptyRuleset, Ruleset.queue])
      (ho.no_errors hret)
  intro k b' hb' r' hr'
  obtain ⟨b, hb, hblock⟩ := Lib.forall₂_left (ho.queues hret k) hb'
  obtain ⟨r₀, hr₀, hrule⟩ := Lib.forall₂_left hblock.chain hr'
  rw [hrule.same]
  rw [Parsed.written] at hb
  split at hb
  · obtain rfl := mem_singleton.mp hb
    cases hr₀
  · exact hparsed k b hb r₀ hr₀

/-! ### APN_FLAG_NOASK -/

/-- The actions of a rule. -/
def Body.actions : Body → List Action
  | .alfFilter a _ => [a]
  | .alfCapability a _ _ => [a]
  | .default d => [d.action]
  | .ctxRule _ _ => []
  | .sfsAccess _ _ valid invalid unknown => [valid.action, invalid.action, unknown.action]
  | .sfsDefault _ _ a => [a]
  | .sbAccess _ _ _ _ a => [a]

/-- No action is ASK. -/
def Body.NoAsk (b : Body) : Prop := ∀ a ∈ b.actions, a ≠ .ask

section

variable (e : Env) (hflag : e.flags &&& flagNoask ≠ 0)

include hflag

theorem gives_action_noask : Gives (action e) (fun a => a ≠ .ask) := by
  refine Gives.next (gives_keywords e (fun _ => True) fun t a hf => ⟨trivial, ?_⟩) fun a _ => ?_
  · rintro rfl
    cases hf
  · refine (gives_check (cons_ne_nil _ _)).next fun _ hc => gives_pure ?_
    rintro rfl
    simp [hflag] at hc

theorem gives_defaultrule_noask : Gives (defaultrule e) (fun d => d.action ≠ .ask) :=
  (gives_kw e (by decide)).next fun _ _ => (gives_log e).next fun _ _ =>
    (gives_action_noask e hflag).next fun _ ha => gives_pure ha

theorem gives_sfsdefault_noask {k : Kw} (hk : k ≠ .colon) {dflt : Default}
    (hd : dflt.action ≠ .ask) : Gives (sfsdefault e k dflt) (fun d => d.action ≠ .ask) := by
  refine gives_choose ?_ (gives_pure hd)
  refine (gives_kw e hk).next fun _ _ => (gives_log e).next fun _ _ =>
    Gives.next (gives_choose ?_ (gives_action_noask e hflag)) fun _ ha => gives_pure ha
  exact (gives_kw e (by decide)).next fun _ _ => gives_pure (by decide)

/-- With APN_FLAG_NOASK the grammar gives no rule with an ASK action. -/
theorem givesBodies_noask : GivesBodies e (fun _ b => b.NoAsk) where
  alf := by
    refine gives_choose ?_ ?_
    · exact (gives_defaultrule_noask e hflag).next fun _ hd =>
        gives_pure (by simpa [Body.NoAsk, Body.actions] using hd)
    · refine (gives_action_noask e hflag).next fun a ha => gives_choose ?_ ?_
      · exact (gives_alffilterspec e).next fun _ _ =>
          gives_pure (by simpa [Body.NoAsk, Body.actions] using ha)
      · refine (gives_log e).next fun _ _ =>
          Gives.next (gives_keywords e (fun _ => True) (fun t c hf => ⟨trivial, ?_⟩)) fun _ _ =>
            gives_pure (by simpa [Body.NoAsk, Body.actions] using ha)
        rintro rfl
        cases hf
  sfs := by
    refine gives_choose ?_ ?_
    · exact (gives_kw e (by decide)).next fun _ _ => (gives_sfspath e).next fun _ _ =>
        (gives_log e).next fun _ _ => (gives_action_noask e hflag).next fun _ ha =>
        gives_pure (by simpa [Body.NoAsk, Body.actions] using ha)
    · exact (gives_sfspath e).next fun _ _ => (gives_sfssubject e).next fun _ _ =>
        (gives_sfsdefault_noask e hflag (by decide) (by decide)).next fun _ h₁ =>
        (gives_sfsdefault_noask e hflag (by decide) (by decide)).next fun _ h₂ =>
        (gives_sfsdefault_noask e hflag (by decide) (by decide)).next fun _ h₃ =>
        gives_pure (by simpa [Body.NoAsk, Body.actions] using ⟨h₁, h₂, h₃⟩)
  sb := by
    refine gives_choose ?_ ?_
    · exact (gives_defaultrule_noask e hflag).next fun _ hd =>
        gives_pure (by simpa [Body.NoAsk, Body.actions] using hd)
    · exact (gives_action_noask e hflag).next fun _ ha => (gives_log e).next fun _ _ =>
        (gives_sbpred e).next fun _ _ => (gives_sbrwx e).next fun _ _ =>
        gives_pure (by simpa [Body.NoAsk, Body.actions] using ha)
  ctx := by
    refine (gives_kw e (by decide)).next fun _ _ =>
      Gives.next (gives_keywords e (fun _ => True) (fun t c hf => ⟨trivial, ?_⟩)) fun _ _ =>
        (gives_apps e).next fun _ _ => gives_pure (by simp [Body.NoAsk, Body.actions])
    rintro rfl
    cases hf

end

/-- A text that is accepted with APN_FLAG_NOASK has no ASK actions. -/
theorem accepted_noask {i : Input} {st : Statics} {rnd : Rand} {r : ParseResult}
    (h : apnParse i st rnd = some r) (hret : r.ret = 0) (hflag : i.flags &&& flagNoask ≠ 0) :
    BodiesIn (fun _ b => b.NoAsk) r.rs :=
  accepted_bodies h hret (givesBodies_noask (inputEnv i st) hflag)

end Anoubis.Apn

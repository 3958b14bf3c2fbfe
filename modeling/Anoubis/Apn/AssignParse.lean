import Anoubis.Apn.AssignCalls
import Anoubis.Lib.SynRuns

/-! IDs are assigned safely, except for multiples of `2 ^ 32`.

    The parser enters the explicit IDs of a text, also of a text that it rejects in the end, and the IDs are
    assigned in both cases. Only `addBlock` changes the index; the other parts of the grammar leave the
    ruleset alone, whatever they read.

        text --> yyparse --> apn_assign_ids --> init_sfs_rule --> operation --> operation --> …     -/

namespace Anoubis.Apn

open Anoubis.Lib Anoubis.Lib.Syn List

/-! ### Parts of the grammar without effect -/

section

variable (e : Env)

theorem inert_tok {α : Type} (f : Tok → Option α) : Inert (tok e f) := .token _ _ f

theorem inert_kw (k : Kw) : Inert (kw e k) := inert_tok e _

theorem inert_char (c : Char) : Inert (char e c) := inert_tok e _

theorem inert_string : Inert (string e) := inert_tok e _

theorem inert_number : Inert (number e) := inert_tok e _

theorem inert_optnl : Inert (optnl e) := (inert_char e _).many.next fun _ => .pure _

theorem inert_nl : Inert (nl e) := (inert_char e _).next fun _ => inert_optnl e

theorem inert_action : Inert (action e) := (inert_tok e _).next fun _ => Inert.check.next fun _ => .pure _

theorem inert_log : Inert (log e) := (inert_tok e _).choose (.pure _)

theorem inert_defaultrule : Inert (defaultrule e) :=
  (inert_kw e _).next fun _ => (inert_log e).next fun _ => (inert_action e).next fun _ => .pure _

/-- A number behind a keyword, in both orders of the two parts of a scope. -/
theorem inert_scope : Inert (scope e) := by
  have hone : ∀ f : ℕ → Option Scope, Inert (do check true (scopePermitted e) scopeError; pure (f 0) :
      G (Option Scope)) := fun f => Inert.check.next fun _ => .pure _
  have htwo : ∀ (k : Kw) (f : ℤ → Option Scope), Inert (do
      kw e k; let n ← number e; check false (scopePermitted e) scopeError; pure (f n) : G (Option Scope)) :=
    fun k f => (inert_kw e k).next fun _ => (inert_number e).next fun _ => Inert.check.next fun _ => .pure _
  refine Inert.choose ((inert_kw e _).next fun _ => (inert_number e).next fun task => ?_)
    (.choose ((inert_kw e _).next fun _ => (inert_number e).next fun timeout => ?_) (.pure _))
  · exact (htwo .until fun timeout => some ⟨toUlong timeout, toUlong task⟩).choose
      (hone fun _ => some ⟨0, toUlong task⟩)
  · exact (htwo .task fun task => some ⟨toUlong timeout, toUlong task⟩).choose
      (hone fun _ => some ⟨toUlong timeout, 0⟩)

theorem inert_normalized (s : Text) : Inert (normalized s) := Inert.note.next fun _ => .pure _

theorem inert_sfssubject : Inert (sfssubject e) :=
  .choose ((inert_kw e _).next fun _ => (inert_number e).next fun _ => .pure _)
    (.choose ((inert_kw e _).next fun _ => (inert_string e).next fun _ => .pure _) (inert_tok e _))

theorem inert_app : Inert (app e) :=
  (inert_string e).next fun s => ((inert_sfssubject e).choose (.pure _)).next fun _ =>
    (inert_normalized s).next fun _ => .pure _

theorem inert_commaList {α : Type} {sep : G Unit} {p : G α} (hsep : Inert sep) (hp : Inert p) :
    Inert (commaList sep p) :=
  hp.next fun _ => (hsep.next fun _ => hp).many.next fun _ => .pure _

theorem inert_apps : Inert (apps e) :=
  .choose
    ((inert_char e _).next fun _ =>
      (inert_commaList ((inert_char e _).next fun _ => inert_optnl e) (inert_app e)).next fun _ =>
      (inert_char e _).next fun _ => .pure _)
    (.choose ((inert_kw e _).next fun _ => .pure _) ((inert_app e).next fun _ => .pure _))

/-! ### Bodies without effect -/

theorem inert_address : Inert (address e) := by
  refine (inert_string e).next fun s => ?_
  cases hostAddr e.lc e.d s with
  | addr a => exact .pure _
  | badPrefix msg => exact Inert.note.next fun _ => .pure _
  | unknown => exact Inert.check.next fun _ => .pure _

theorem inert_host : Inert (host e) :=
  (((inert_char e _).next fun _ => .pure _).choose (.pure _)).next fun _ =>
    (inert_address e).next fun _ => .pure _

theorem inert_hostspec : Inert (hostspec e) :=
  .choose
    ((inert_char e _).next fun _ => (inert_commaList (inert_char e _) (inert_host e)).next fun _ =>
      (inert_char e _).next fun _ => .pure _)
    (.choose ((inert_kw e _).next fun _ => .pure _) ((inert_host e).next fun _ => .pure _))

theorem inert_port : Inert (port e) :=
  .choose
    ((inert_number e).next fun _ => .choose
      ((inert_char e _).next fun _ => (inert_number e).next fun _ => Inert.check.next fun _ =>
        Inert.check.next fun _ => Inert.check.next fun _ => .pure _)
      (Inert.check.next fun _ => .pure _))
    ((inert_string e).next fun _ => Inert.check.next fun _ => .pure _)

theorem inert_ports : Inert (ports e) :=
  .choose
    ((inert_char e _).next fun _ => (inert_commaList (inert_char e _) (inert_port e)).next fun _ =>
      (inert_char e _).next fun _ => .pure _)
    ((inert_port e).next fun _ => .pure _)

theorem inert_portspec : Inert (portspec e) :=
  .choose ((inert_kw e _).next fun _ => inert_ports e) (.pure _)

theorem inert_hosts : Inert (hosts e) :=
  .choose ((inert_kw e _).next fun _ => .pure _)
    ((inert_kw e _).next fun _ => (inert_hostspec e).next fun _ => (inert_portspec e).next fun _ =>
      (inert_kw e _).next fun _ => (inert_hostspec e).next fun _ => (inert_portspec e).next fun _ =>
      .pure _)

theorem inert_alffilterspec : Inert (alffilterspec e) :=
  (inert_tok e _).next fun _ => (inert_log e).next fun _ => (inert_tok e _).next fun _ =>
    (inert_hosts e).next fun _ => Inert.check.next fun _ => Inert.check.next fun _ =>
    Inert.check.next fun _ => .pure _

theorem inert_alfbody : Inert (alfbody e) :=
  .choose ((inert_defaultrule e).next fun _ => .pure _)
    ((inert_action e).next fun _ => .choose ((inert_alffilterspec e).next fun _ => .pure _)
      ((inert_log e).next fun _ => (inert_tok e _).next fun _ => .pure _))

theorem inert_sfspath : Inert (sfspath e) :=
  .choose ((inert_kw e _).next fun _ => .pure _)
    ((inert_kw e _).next fun _ => (inert_string e).next fun _ => inert_normalized _)

theorem inert_sfsaction : Inert (sfsaction e) :=
  .choose ((inert_kw e _).next fun _ => .pure _) (inert_action e)

theorem inert_sfsdefault (k : Kw) (dflt : Default) : Inert (sfsdefault e k dflt) :=
  .choose ((inert_kw e _).next fun _ => (inert_log e).next fun _ => (inert_sfsaction e).next fun _ =>
    .pure _) (.pure _)

theorem inert_sfsbody : Inert (sfsbody e) :=
  .choose
    ((inert_kw e _).next fun _ => (inert_sfspath e).next fun _ => (inert_log e).next fun _ =>
      (inert_action e).next fun _ => .pure _)
    ((inert_sfspath e).next fun _ => (inert_sfssubject e).next fun _ =>
      (inert_sfsdefault e _ _).next fun _ => (inert_sfsdefault e _ _).next fun _ =>
      (inert_sfsdefault e _ _).next fun _ => .pure _)

theorem inert_sbsubject : Inert (sbsubject e) := by
  rw [sbsubject]
  cases e.d with
  | current => exact inert_sfssubject e
  | v042 =>
    exact .choose ((inert_kw e _).next fun _ => (inert_number e).next fun _ => Inert.check.next fun _ =>
      .pure _) (inert_sfssubject e)

theorem inert_sbpred : Inert (sbpred e) :=
  .choose ((inert_kw e _).next fun _ => .pure _)
    (.choose
      ((inert_kw e _).next fun _ => (inert_string e).next fun s => (inert_normalized s).next fun _ =>
        ((inert_sbsubject e).choose (.pure _)).next fun _ => .pure _)
      ((inert_sbsubject e).next fun _ => .pure _))

theorem inert_sbrwx : Inert (sbrwx e) := by
  refine (inert_string e).next fun s => ?_
  cases sbMask 0 s with
  | inl mask => exact .pure _
  | inr msg => exact Inert.check.next fun _ => .pure _

theorem inert_sbbody : Inert (sbbody e) :=
  .choose ((inert_defaultrule e).next fun _ => .pure _)
    ((inert_action e).next fun _ => (inert_log e).next fun _ => (inert_sbpred e).next fun _ =>
      (inert_sbrwx e).next fun _ => .pure _)

theorem inert_ctxbody : Inert (ctxbody e) :=
  (inert_kw e _).next fun _ => (inert_tok e _).next fun _ => (inert_apps e).next fun _ => .pure _

/-! ### Flags and the end of the text -/

theorem inert_versionFlag (k : Kw) (least : ℕ) (msg : ℕ → Text) : Inert (versionFlag e k least msg) := by
  refine (inert_kw e k).next fun _ => Inert.act (fun s a s' h => ?_) (fun s s' errs h => ?_)
  · split at h
    · cases h
    · exact (Prod.mk.inj (Except.ok.inj h)).2.symm
  · split at h
    · exact (Prod.mk.inj (Except.error.inj h)).1.symm
    · cases h

theorem inert_ctxflag (f : Flags) : Inert (ctxflag e f) :=
  .choose ((inert_versionFlag e _ _ _).next fun _ => Inert.check.next fun _ => .pure _)
    ((inert_versionFlag e _ _ _).next fun _ => Inert.check.next fun _ => .pure _)

theorem inert_ctxflags : Inert (ctxflags e) :=
  .choose
    ((inert_ctxflag e _).next fun _ => .choose
      ((inert_ctxflag e _).next fun _ => .choose (inert_ctxflag e _) (.pure _)) (.pure _))
    (.pure _)

theorem inert_nonctxflags : Inert (nonctxflags e) := by
  have hflag : Inert (flagpgonly e) := inert_versionFlag e _ _ _
  exact hflag.many.next fun _ => Inert.check.next fun _ => .pure _

theorem inert_blockflags (k : Kind) : Inert (blockflags e k) := by
  rw [blockflags]
  cases e.d with
  | v042 => exact .pure _
  | current =>
    dsimp only
    split
    · exact inert_ctxflags e
    · exact inert_nonctxflags e

theorem inert_endOfText : Inert (endOfText e) :=
  (inert_tok e _).next fun _ => Inert.note

end

/-! ### The index while the text is read -/

/-- No ID of the text is turned into 0 by 32 bit. -/
def TextNarrows (ts : List Tok) : Prop := ∀ id ∈ ids ts, Narrows id

theorem ids_tail_subset (t : Tok) (ts : List Tok) : ids ts ⊆ ids (t :: ts) := by
  intro id hid
  by_cases h : ∃ n us, t = .num n ∧ ts = .kw .colon :: us
  · obtain ⟨n, us, rfl, rfl⟩ := h
    exact mem_cons_of_mem _ hid
  · rw [ids]
    · exact hid
    · rintro n us rfl rfl
      exact h ⟨n, us, rfl, rfl⟩

theorem suffixes_textNarrows : Suffixes TextNarrows := fun t ts h id hid => h id (ids_tail_subset t ts hid)

/-- The index of the ruleset that is built. -/
def SaneParser (s : PState) : Prop := ∀ rnd, Sane ⟨s.rs.idtree, s.rs.maxid, rnd⟩

/-- A part of the grammar that keeps the index sane. -/
abbrev SaneSteps {α : Type} (p : G α) (V : α → Prop) : Prop := Steady TextNarrows SaneParser p V

section

variable {e : Env} {k : Kind} {body : G Body}

theorem steps_of {α : Type} {p : G α} (h : Inert p) : SaneSteps p (fun _ => True) :=
  h _ _ suffixes_textNarrows

theorem steps_ruleid : SaneSteps (ruleid e) Narrows := by
  refine Steady.choose ?_ (Steady.pure (.inl rfl))
  have hnumber : Inert (number e) := inert_number e
  have hcolon : Inert (kw e .colon) := inert_kw e .colon
  constructor
  · intro s toks id s' rest errs ht hs hr
    obtain ⟨-, hs', hrest⟩ := ((steps_of hnumber).bind fun n _ => (steps_of hcolon).bind fun _ _ =>
      Steady.pure (V := fun _ => True) (a := toUlong n) trivial).ok ht hs hr
    refine ⟨ht id ?_, hs', hrest⟩
    cases toks with
    | nil => cases hr
    | cons t toks =>
      cases t with
      | num n =>
        cases toks with
        | nil => cases hr
        | cons u toks =>
          by_cases hu : u = .kw .colon
          · subst hu
            obtain ⟨rfl, -⟩ := Res.ok.inj hr
            exact mem_cons_self
          · simp [Syn.run_bind, number, kw, tok, token, hu, Res.note] at hr
      | _ => cases hr
  · intro s toks s' unread errs ht hs hr
    exact ((steps_of hnumber).bind fun n _ => (steps_of hcolon).bind fun _ _ =>
      Steady.pure (V := fun _ => True) (a := toUlong n) trivial).fail ht hs hr

theorem steps_rule (hbody : Inert body) : SaneSteps (rule e body) (fun r => Narrows r.id) :=
  steps_ruleid.bind fun _ hid => (steps_of hbody).bind fun _ _ => (steps_of (inert_scope e)).bind fun _ _ =>
    Steady.pure hid

theorem steps_rules (hbody : Inert body) : SaneSteps (rules e body) (fun chain => ∀ r ∈ chain, Narrows r.id) :=
  Steady.many ((steps_rule hbody).bind fun _ hr => (steps_of (inert_nl e)).bind fun _ _ => Steady.pure hr)

/-- The index behind `__apn_add_block_common`, if IDs were entered. -/
theorem apnAddBlockCommon_index {prints : Block → Bool} {rs rs' : Ruleset} {b : Block}
    (h : apnAddBlockCommon prints rs b = .added rs' ∨ apnAddBlockCommon prints rs b = .unprintable rs') :
    rs'.idtree = (insertIds ⟨rs.idtree, rs.maxid, ⟨fun _ => 0, 0⟩⟩ b).idtree ∧
      rs'.maxid = (insertIds ⟨rs.idtree, rs.maxid, ⟨fun _ => 0, 0⟩⟩ b).maxid := by
  rcases h with h | h
  · obtain ⟨-, -, rfl⟩ := apnAddBlockCommon_added h
    cases b.kind <;> exact ⟨rfl, rfl⟩
  · rw [apnAddBlockCommon] at h
    split at h
    · cases h
    · split at h
      · cases h
      · simp only at h
        split at h
        · obtain rfl := AddResult.unprintable.inj h
          exact ⟨rfl, rfl⟩
        · cases h

theorem steps_addBlock {look : Bool} {id : ℕ} {as : List App} {f : Flags} {chain : List Rule}
    (hid : Narrows id) (hchain : ∀ r ∈ chain, Narrows r.id) :
    SaneSteps (addBlock e look k id as f chain) (fun _ => True) := by
  have hnew {s : PState} {rs : Ruleset} {next : ℕ} (hs : SaneParser s)
      (h : apnAddBlockCommon (fun b => (apnPrintRule e.lc b).isSome) s.rs (newBlock e s k id as f chain) =
        .added rs ∨ apnAddBlockCommon (fun b => (apnPrintRule e.lc b).isSome) s.rs
          (newBlock e s k id as f chain) = .unprintable rs) : SaneParser ⟨rs, next⟩ := by
    obtain ⟨h1, h2⟩ := apnAddBlockCommon_index h
    have hexplicit : ∀ x ∈ (newBlock e s k id as f chain).explicit, Narrows x := by
      intro x hx
      rw [Block.explicit, nonzero, newBlock, map_copyChain Rule.id (fun _ _ => rfl), mem_filter] at hx
      rcases mem_cons.mp hx.1 with rfl | hmem
      · exact hid
      · obtain ⟨r, hr, rfl⟩ := mem_map.mp hmem
        exact hchain r hr
    have hsane := (hs ⟨fun _ => 0, 0⟩).insertIds hexplicit
    intro rnd
    dsimp only
    rw [h1, h2]
    exact ⟨hsane.pos, hsane.lt, hsane.zero⟩
  refine Steady.act (fun s b s' hs hr => ?_) (fun s s' errs hs hr => ?_)
  · cases hadd : apnAddBlockCommon (fun b => (apnPrintRule e.lc b).isSome) s.rs
      (newBlock e s k id as f chain) with
    | added rs =>
      simp only [hadd, Except.ok.injEq, Prod.mk.injEq] at hr
      obtain ⟨-, rfl⟩ := hr
      exact ⟨trivial, hnew hs (.inl hadd)⟩
    | duplicate => simp [hadd] at hr
    | unprintable rs => simp [hadd] at hr
  · cases hadd : apnAddBlockCommon (fun b => (apnPrintRule e.lc b).isSome) s.rs
      (newBlock e s k id as f chain) with
    | added rs => simp [hadd] at hr
    | duplicate =>
      simp only [hadd, Except.error.injEq, Prod.mk.injEq] at hr
      exact hr.1 ▸ hs
    | unprintable rs =>
      simp only [hadd, Except.error.injEq, Prod.mk.injEq] at hr
      exact hr.1 ▸ hnew hs (.inr hadd)

theorem steps_ruleset (hbody : Inert body) : SaneSteps (ruleset e k body) (fun _ => True) := by
  refine steps_ruleid.bind fun id hid => (steps_of (inert_apps e)).bind fun as _ =>
    (steps_of (inert_blockflags e k)).bind fun f _ => (steps_of (inert_optnl e)).bind fun _ _ =>
    (steps_of (inert_char e _)).bind fun _ _ => (steps_of (inert_optnl e)).bind fun _ _ =>
    (steps_rules hbody).bind fun chain hchain => (steps_of (inert_char e _)).bind fun _ _ => ?_
  cases e.d with
  | current => exact (steps_of (inert_optnl e)).bind fun _ _ => steps_addBlock hid hchain
  | v042 => exact (steps_of (inert_nl e)).bind fun _ _ => steps_addBlock hid hchain

theorem steps_blockmodule {name : Kw} (hbody : Inert body) :
    SaneSteps (blockmodule e name k body) (fun _ => True) := by
  refine (steps_of (inert_kw e name)).bind fun _ _ => (steps_of (inert_optnl e)).bind fun _ _ =>
    (steps_of (inert_char e _)).bind fun _ _ => (steps_of (inert_optnl e)).bind fun _ _ =>
    (steps_ruleset hbody).many.bind fun bs _ => (steps_of (inert_char e _)).bind fun _ _ =>
    Steady.pure trivial

theorem steps_sfsmodule : SaneSteps (sfsmodule e) (fun _ => True) :=
  (steps_of (inert_kw e _)).bind fun _ _ => (steps_of (inert_optnl e)).bind fun _ _ =>
    (steps_of (inert_char e _)).bind fun _ _ => (steps_of (inert_optnl e)).bind fun _ _ =>
    (steps_rules (inert_sfsbody e)).bind fun _ hchain => (steps_of (inert_char e _)).bind fun _ _ =>
    (steps_addBlock (.inl rfl) hchain).bind fun _ _ => Steady.pure trivial

theorem steps_apnmodule : SaneSteps (apnmodule e) (fun _ => True) :=
  (Steady.choose (steps_blockmodule (inert_alfbody e)) (steps_sfsmodule.choose
    ((steps_blockmodule (inert_sbbody e)).choose (steps_blockmodule (inert_ctxbody e))))).bind fun _ _ =>
    (steps_of (inert_optnl e)).bind fun _ _ => Steady.pure trivial

/-- `version` does not touch the index. -/
theorem steps_version : SaneSteps (version e) (fun _ => True) := by
  refine (steps_of (inert_kw e _)).bind fun _ _ => (steps_of (inert_string e)).bind fun t _ =>
    (steps_of (inert_nl e)).bind fun _ _ => Steady.act (fun s a s' hs hr => ?_) (fun s s' errs hs hr => ?_)
  · obtain ⟨v, rfl⟩ := setVersion_spec.1 a s' hr
    exact ⟨trivial, hs⟩
  · rw [setVersion] at hr
    split at hr
    · exact (Prod.mk.inj (Except.error.inj hr)).1 ▸ hs
    · dsimp only at hr
      split_ifs at hr
      · exact (Prod.mk.inj (Except.error.inj hr)).1 ▸ hs
      · exact (Prod.mk.inj (Except.error.inj hr)).1 ▸ hs
      · exact (Prod.mk.inj (Except.error.inj hr)).1 ▸ hs

theorem steps_policy : SaneSteps (policy e) (fun _ => True) :=
  (steps_of (inert_optnl e)).bind fun _ _ => (steps_version.choose (Steady.pure trivial)).bind fun _ _ =>
    steps_apnmodule.many.bind fun _ _ => (steps_of (inert_endOfText e)).bind fun _ _ => Steady.pure trivial

end

/-- Behind `yyparse`, whether the text was accepted or not. -/
theorem sane_yyparse {e : Env} {pb text : Text} (h : TextNarrows (tokens e.d ⟨pb, text⟩)) (rnd : Rand) :
    Sane ⟨(yyparse e pb text).rs.idtree, (yyparse e pb text).rs.maxid, rnd⟩ := by
  have hstart : SaneParser ⟨emptyRuleset e.flags, 0⟩ := fun rnd =>
    ⟨Nat.one_pos, (by decide : 1 < uintMod), rfl⟩
  rw [tokens] at h
  rw [yyparse]
  cases hrun : (policy e).run ⟨emptyRuleset e.flags, 0⟩ ((lexText e.d ⟨pb, text⟩).map (·.1)) with
  | ok bs s rest errs => exact (steps_policy.ok h hstart hrun).2.1 rnd
  | fail s unread errs => exact steps_policy.fail h hstart hrun rnd

/-! ### Texts and operations -/

/-- One grammar, whatever the ruleset before was. -/
theorem assignRun_parse1 {d : Dialect} {i : Input} {st : Statics}
    (h : TextNarrows (tokens d ⟨st.get d, i.text⟩)) (ix : Index) (rnd : Rand) : AssignRun ix (parse1Calls d i st rnd)
      ((apnParse1 d i st rnd).map (fun r => (⟨r.rs, r.rnd⟩ : RsState).index)) := by
  have hsane := sane_yyparse (e := i.env d) h rnd
  refine .silent (fun _ => hsane) ?_
  have hfinish := assignRun_finish (yyparse (i.env d) (st.get d) i.text).errs.isEmpty
    ⟨(yyparse (i.env d) (st.get d) i.text).rs, rnd⟩ (i.addr (yyparse (i.env d) (st.get d) i.text).next)
  exact hfinish.andThen fun p _ => ⟨_, rfl, id⟩

theorem index_converted (r : ParseResult) :
    (⟨r.converted.rs, r.converted.rnd⟩ : RsState).index = (⟨r.rs, r.rnd⟩ : RsState).index := by
  rw [ParseResult.converted]
  split <;> rfl

/-- The static state of the old grammar while the current one runs. -/
theorem apnParse1_statics {i : Input} {st : Statics} {rnd : Rand} {r : ParseResult}
    (h : apnParse1 .current i st rnd = some r) : r.statics.get .v042 = st.get .v042 := by
  rw [apnParse1] at h
  obtain ⟨⟨ret, s⟩, -, h⟩ := Option.bind_eq_some_iff.mp h
  cases h
  rfl

theorem assignRun_parse {i : Input} {st : Statics}
    (h : ∀ d, TextNarrows (tokens d ⟨st.get d, i.text⟩)) (rnd : Rand) (ix : Index) :
    AssignRun ix (parseCalls i st rnd) ((apnParse i st rnd).map (fun r => (⟨r.rs, r.rnd⟩ : RsState).index)) := by
  rw [parseCalls, apnParse]
  refine Threaded.seq (assignRun_parse1 (h .current) ix rnd) fun r hr => ?_
  split
  · have hold : TextNarrows (tokens .v042 ⟨r.statics.get .v042, i.text⟩) := by
      rw [apnParse1_statics hr]
      exact h .v042
    exact (assignRun_parse1 hold _ r.rnd).andThen fun r' _ =>
      ⟨_, rfl, fun hsane => by rwa [index_converted]⟩
  · rw [Option.map_some, index_converted]
    exact .done _

/-- For a text and operations without an ID that 32 bit turn into 0, every call of `apn_assign_id` is
    safe if and only if every call finds a random ID or a free one before the linear search wraps
    around. -/
theorem assign_safe_iff (i : Input) (st : Statics) (rnd : Rand) (ops : List Op)
    (htext : ∀ d, TextNarrows (tokens d ⟨st.get d, i.text⟩)) (hops : ∀ op ∈ ops, op.Narrows) :
    (∀ c ∈ runCalls i st rnd ops, SafeCall c.1 c.2) ↔
      ∀ c ∈ runCalls i st rnd ops, AssignOk c.1 c.2 := by
  have hrun : AssignRun ⟨[], 1, rnd⟩ (runCalls i st rnd ops) (((apnParse i st rnd).bind fun r =>
      applyOps ⟨r.rs, r.rnd⟩ ops).map (·.index)) :=
    Threaded.seq (assignRun_parse htext rnd _) fun r _ => assignRun_ops hops
  exact hrun.safe_iff ⟨Nat.one_pos, (by decide : 1 < uintMod), rfl⟩

instance (id : ℕ) : Decidable (Narrows id) := inferInstanceAs (Decidable (_ ∨ _))

/-- A block with one rule, both without IDs. -/
def addedBlock : Block := ⟨50, 0, .sb, [], Flags.none, [⟨51, 0, none, .default ⟨.deny, .none⟩⟩]⟩

/-- A text with IDs 7 and 8, and one more block. -/
theorem assign_safe_numbered :
    (runCalls (plain numberedText) Statics.init ⟨id, 0⟩ [.add addedBlock]).length = 3 ∧
      ∀ c ∈ runCalls (plain numberedText) Statics.init ⟨id, 0⟩ [.add addedBlock], SafeCall c.1 c.2 := by
  refine ⟨by decide +kernel, (assign_safe_iff _ _ _ _ (fun d => ?_) ?_).mpr fun c hc => .inl ?_⟩
  · have hids : ∀ id ∈ ids (tokens d ⟨Statics.init.get d, (plain numberedText).text⟩), Narrows id := by
      cases d <;> decide +kernel
    exact hids
  · intro op hop
    obtain rfl := List.mem_singleton.mp hop
    trivial
  · have hfound : ∀ c ∈ runCalls (plain numberedText) Statics.init ⟨id, 0⟩ [.add addedBlock],
        (randomLoop c.1.idtree 32 c.1.maxid c.1.rnd).1.isSome = true := by decide +kernel
    exact hfound c hc

/-- A block with the ID `2 ^ 32` and a rule without ID. -/
def zeroText : String := "sb \x7b\n4294967296: any \x7b\ndefault deny\n\x7d\n\x7d\n"

/-- `apn_assign_id` is entered with `maxid` 0, and the program does not return. -/
theorem maxid_zero : (runCalls (plain zeroText) Statics.init zeros []).map (·.1.maxid) = [0] ∧
    (apnParse (plain zeroText) Statics.init zeros).isNone = true ∧
    ¬ ∀ c ∈ runCalls (plain zeroText) Statics.init zeros [], SafeCall c.1 c.2 := by
  have hcalls : (runCalls (plain zeroText) Statics.init zeros []).map (·.1.maxid) = [0] := by
    decide +kernel
  refine ⟨hcalls, by decide +kernel, fun h => ?_⟩
  have hzero : 0 ∈ (runCalls (plain zeroText) Statics.init zeros []).map (·.1.maxid) := by simp [hcalls]
  obtain ⟨c, hc, hmax⟩ := List.mem_map.mp hzero
  exact (h c hc).1 hmax

end Anoubis.Apn

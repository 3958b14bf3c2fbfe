import Anoubis.Apn.Derive
import Anoubis.Apn.IdOps

/-! Blocks in a text and blocks in a ruleset.

    The IDs of a text are the numbers in front of a colon. `Adds e s bs s'` says that the parser came
    from `s` to `s'` by adding the blocks `bs` with `__apn_add_block_common`, one by one and at new
    addresses. A derivation of a policy is such a sequence, with the IDs of the text in the order of
    the text. A parser that stops without an error has been refused a block. -/

namespace Anoubis.Apn

open Anoubis.Lib Anoubis.Lib.Syn List

/-! ### IDs in a text -/

/-- The numbers in front of a colon. -/
def ids : List Tok → List ℕ
  | .num n :: .kw .colon :: ts => toUlong n :: ids ts
  | _ :: ts => ids ts
  | [] => []

/-- The tokens do not begin with a colon. -/
def Starts (ts : List Tok) : Prop := ts.head? ≠ some (.kw .colon)

variable {ts : List Tok}

theorem starts_of_noColon (h : ∀ t ∈ ts, NoColon t) : Starts ts :=
  fun hh => h _ (mem_of_mem_head? hh) rfl

theorem ids_append {ts' : List Tok} (h : Starts ts') : ids (ts ++ ts') = ids ts ++ ids ts' := by
  fun_induction ids ts with
  | case1 n ts ih => simp [ids, ih]
  | case2 t ts hne ih =>
    rw [cons_append, ids, ih]
    rintro n rest rfl heq
    cases ts with
    | nil =>
      rw [nil_append] at heq
      exact h (by rw [heq]; rfl)
    | cons u us =>
      rw [cons_append] at heq
      obtain ⟨rfl, -⟩ := List.cons.inj heq
      exact hne n us rfl rfl
  | case3 => rfl

/-- More tokens give more IDs. -/
theorem ids_sublist (ts ts' : List Tok) : (ids ts).Sublist (ids (ts ++ ts')) := by
  fun_induction ids ts with
  | case1 n ts ih => exact ih.cons_cons _
  | case2 t ts hne ih =>
    rw [cons_append]
    by_cases h : ∃ n us, t = .num n ∧ ts ++ ts' = .kw .colon :: us
    · obtain ⟨n, us, rfl, heq⟩ := h
      cases ts with
      | nil => exact nil_sublist _
      | cons u vs =>
        obtain ⟨rfl, -⟩ := List.cons.inj heq
        exact (hne n vs rfl rfl).elim
    · rw [ids]
      · exact ih
      · rintro n us rfl heq
        exact h ⟨n, us, rfl, heq⟩
  | case3 => exact nil_sublist _

theorem ids_of_noColon (h : ∀ t ∈ ts, NoColon t) : ids ts = [] := by
  fun_induction ids ts with
  | case1 n ts ih => exact absurd rfl (h (.kw .colon) (by simp))
  | case2 t ts hne ih => exact ih (fun u hu => h u (mem_cons_of_mem _ hu))
  | case3 => rfl

/-- IDs other than 0. -/
def nonzero (l : List ℕ) : List ℕ := l.filter (fun id => id ≠ 0)

@[simp] theorem nonzero_append (l l' : List ℕ) : nonzero (l ++ l') = nonzero l ++ nonzero l' :=
  filter_append ..

/-- The IDs that were given to a block and its rules. -/
def Block.explicit (b : Block) : List ℕ := nonzero (b.id :: b.chain.map (·.id))

/-! ### Adding blocks -/

/-- One block has been added. -/
structure Added (e : Env) (s : PState) (b : Block) (s' : PState) : Prop where
  wf : b.WF e.lc
  ptrs : b.ptrs = e.addr (s.next + b.chain.length) :: (List.range' s.next b.chain.length).map e.addr
  added : apnAddBlockCommon (fun b => (apnPrintRule e.lc b).isSome) s.rs b = .added s'.rs
  next : s'.next = s.next + b.chain.length + 1

/-- Blocks have been added in this order. -/
inductive Adds (e : Env) : PState → List Block → PState → Prop where
  | nil (s : PState) : Adds e s [] s
  | cons {s s₁ s₂ : PState} {b : Block} {bs : List Block} (h : Added e s b s₁) (hs : Adds e s₁ bs s₂) :
    Adds e s (b :: bs) s₂

/-- A block has been refused, and no error was counted. -/
inductive Refused (e : Env) (s : PState) (b : Block) : PState → Prop where
  | duplicate (hd : e.d = .v042) (hk : b.kind = .sfs)
    (h : apnAddBlockCommon (fun b => (apnPrintRule e.lc b).isSome) s.rs b = .duplicate) :
    Refused e s b s
  | unprintable {s' : PState} (hd : e.d = .v042 → b.kind = .sfs)
    (h : apnAddBlockCommon (fun b => (apnPrintRule e.lc b).isSome) s.rs b = .unprintable s'.rs) :
    Refused e s b s'

theorem Adds.append {e : Env} {s s₁ s₂ : PState} {bs cs : List Block} (h : Adds e s bs s₁)
    (h' : Adds e s₁ cs s₂) : Adds e s (bs ++ cs) s₂ := by
  induction h with
  | nil s => exact h'
  | cons hb _ ih => exact Adds.cons hb (ih h')

/-- Some blocks have been added, and then one has been refused. -/
def Stops (e : Env) (s s' : PState) (pre : List Tok) : Prop :=
  ∃ bs s₁ b, Adds e s bs s₁ ∧ b.WF e.lc ∧ Refused e s₁ b s' ∧
    nonzero (ids pre) = bs.flatMap Block.explicit ++ b.explicit

/-- From `s₀` the parser has added `bs`, and it has read the IDs `l` of the block that comes next. -/
structure Reading (e : Env) (s₀ : PState) (bs : List Block) (l : List ℕ) (s : PState)
    (pre : List Tok) : Prop where
  adds : Adds e s₀ bs s
  ids : nonzero (ids pre) = bs.flatMap Block.explicit ++ nonzero l

/-! ### Rules -/

section

variable {e : Env} {s₀ : PState} {bs : List Block} {l : List ℕ} {k : Kind} {body : G Body}
variable {s s' : PState} {α β : Type} {p : G α} {f : α → G β} {V : α → Prop} {id : ℕ}

theorem Reading.skip {pre ts : List Tok} (h : Reading e s₀ bs l s pre) (hts : ∀ t ∈ ts, NoColon t) :
    Reading e s₀ bs l s (pre ++ ts) where
  adds := h.adds
  ids := by rw [ids_append (starts_of_noColon hts), ids_of_noColon hts, append_nil, h.ids]

/-- Conditions on the parser while it reads a policy that began in `s₀`. -/
abbrev Reads (e : Env) (s₀ : PState) {α : Type} (P : PState → List Tok → Prop) (p : G α)
    (Q : α → PState → List Tok → Prop) : Prop := Holds Scanned P p Q (Stops e s₀)

theorem Reads.next {P : PState → List Tok → Prop} {Q : α → PState → List Tok → Prop}
    {Q' : β → PState → List Tok → Prop} (hp : Reads e s₀ P p (fun a s pre => V a ∧ Q a s pre))
    (hf : ∀ a, V a → Reads e s₀ (Q a) (f a) Q') : Reads e s₀ P (p >>= f) Q' := Holds.bind scanned_hereditary hp hf

/-- A piece that only has a value, and what comes behind it. -/
theorem Gives.andThen {Q : β → PState → List Tok → Prop} (h : Gives p V)
    (hf : ∀ a, V a → Reads e s₀ (Reading e s₀ bs l) (f a) Q) : Reads e s₀ (Reading e s₀ bs l) (p >>= f) Q :=
  Reads.next (Yields.holds h (fun _ _ _ hts hr => hr.skip hts)) hf

theorem derives_ruleid {ts : List Tok} (h : (ruleid e).derives s ts id s') :
    s' = s ∧ Starts ts ∧ nonzero (ids ts) = nonzero [id] := by
  rcases h with ⟨ts₁, ts₂, n, s₁, rfl, ⟨rfl, t, rfl, ht⟩,
    ⟨ts₃, ts₄, v, s₂, rfl, ⟨rfl, u, rfl, hu⟩, rfl, rfl, rfl⟩⟩ | ⟨rfl, rfl, rfl⟩
  · cases t with
    | num m =>
      cases ht
      have hu' : u = .kw .colon := by
        by_contra hne
        simp [hne] at hu
      subst hu'
      exact ⟨rfl, by simp [Starts], rfl⟩
    | _ => cases ht
  · exact ⟨rfl, by simp [Starts], rfl⟩

theorem aborts_ruleid {ts : List Tok} : ¬ (ruleid e).aborts s ts s' := by
  rintro ((h | ⟨_, _, _, _, _, _, h | ⟨_, _, _, _, _, _, h⟩⟩) | h) <;> exact h

theorem reads_ruleid : Reads e s₀ (Reading e s₀ bs l) (ruleid e)
    (fun id s pre => True ∧ Reading e s₀ bs (l ++ [id]) s pre) where
  ok := by
    rintro s pre ts id s' - hr hd
    obtain ⟨rfl, hstart, hids⟩ := derives_ruleid hd
    refine ⟨trivial, hr.adds, ?_⟩
    rw [ids_append hstart, nonzero_append, hr.ids, hids, nonzero_append, append_assoc]
  stop := fun _ _ ha => (aborts_ruleid ha).elim

theorem reads_rule (hbody : Gives body (bodyOk e.lc k)) : Reads e s₀ (Reading e s₀ bs l) (rule e body)
      (fun r s pre => bodyOk e.lc k r.body ∧ Reading e s₀ bs (l ++ [r.id]) s pre) :=
  reads_ruleid.next fun _ _ => hbody.andThen fun _ hb => (gives_scope e).andThen fun _ _ =>
    Holds.pure fun _ _ hr => ⟨hb, hr⟩

theorem reads_rules (hbody : Gives body (bodyOk e.lc k)) : Reads e s₀ (Reading e s₀ bs l) (rules e body)
      (fun chain s pre => (∀ r ∈ chain, bodyOk e.lc k r.body) ∧ Reading e s₀ bs (l ++ chain.map (·.id)) s pre) := by
  refine Holds.weaken (Holds.many scanned_hereditary
    (I := fun chain => Reading e s₀ bs (l ++ chain.map (·.id))) fun chain => ?_)
    (fun s pre h => by simpa using h) (fun _ _ _ h => h)
  refine (reads_rule hbody).next fun r hr => (gives_nl e).andThen fun _ _ =>
    Holds.pure fun s pre h => ⟨hr, ?_⟩
  simpa using h

/-! ### Blocks -/

theorem gives_versionFlag {f : Kw} (hf : f ≠ .colon) (least : ℕ) (msg : ℕ → Text) :
    Gives (versionFlag e f least msg) (fun _ => True) := by
  refine (gives_kw e hf).next fun _ _ => Yields.act (fun s a s' h => ?_) (fun s s' h => ?_)
  · split at h
    · cases h
    · exact ⟨by simpa [eq_comm] using h, trivial⟩
  · split at h <;> cases h

theorem gives_ctxflag {f : Flags} (hf : f.pgonly = false) : Gives (ctxflag e f) (fun f => f.pgonly = false) := by
  refine gives_choose ?_ ?_
  · exact (gives_versionFlag (by decide) _ _).next fun _ _ =>
      (gives_check (cons_ne_nil _ _)).next fun _ _ => gives_pure hf
  · exact (gives_versionFlag (by decide) _ _).next fun _ _ =>
      (gives_check (cons_ne_nil _ _)).next fun _ _ => gives_pure hf

theorem gives_ctxflags : Gives (ctxflags e) (fun f => f.pgonly = false) := by
  have hone {f : Flags} (hf : f.pgonly = false) {p : G Flags} (hp : Gives p (fun f => f.pgonly = false)) :
      Gives (choose isCtxflag p (pure f)) (fun f => f.pgonly = false) :=
    gives_choose hp (gives_pure hf)
  exact hone rfl ((gives_ctxflag rfl).next fun f hf => hone hf
    ((gives_ctxflag hf).next fun f hf => hone hf (gives_ctxflag hf)))

theorem gives_nonctxflags : Gives (nonctxflags e) (fun f => f.nosfs = false ∧ f.pgforce = false) := by
  have hflag : Gives (flagpgonly e) (fun _ => True) := gives_versionFlag (by decide) _ _
  exact (gives_many hflag).next fun fs _ => (gives_check (cons_ne_nil _ _)).next fun _ _ =>
    gives_pure ⟨rfl, rfl⟩

theorem gives_blockflags (k : Kind) : Gives (blockflags e k) (flagsWF k) := by
  have hnone : flagsWF k Flags.none := by
    rw [flagsWF]
    split <;> simp [Flags.none]
  have hcur : Gives (if k = .ctx then ctxflags e else nonctxflags e) (flagsWF k) := by
    split
    · rename_i hk
      refine Yields.mono gives_ctxflags fun f hf => ?_
      simpa [flagsWF, hk] using hf
    · rename_i hk
      refine Yields.mono gives_nonctxflags fun f hf => ?_
      simpa [flagsWF, hk] using hf
  rw [blockflags]
  cases e.d with
  | v042 => exact gives_pure hnone
  | current => exact hcur

theorem newBlock_ptrs (s : PState) (id : ℕ) (as : List App) (f : Flags) (chain : List Rule) :
    (newBlock e s k id as f chain).ptrs = e.addr (s.next + chain.length) ::
      (List.range' s.next chain.length).map e.addr := by
  rw [newBlock, Block.ptrs, map_ptr_copyChain]

theorem copyChain_length (alloc : ℕ → ℕ) (chain : List Rule) :
    ∀ n, (copyChain alloc n chain).length = chain.length := by
  intro n
  simpa using congrArg List.length (map_ptr_copyChain alloc chain n)

theorem map_copyChain (g : Rule → β) (hg : ∀ r p, g { r with ptr := p } = g r) (alloc : ℕ → ℕ) (chain : List Rule) :
    ∀ n, (copyChain alloc n chain).map g = chain.map g := by
  induction chain with
  | nil => intro n; rfl
  | cons r chain ih => intro n; simp [copyChain, ih, hg]

theorem reads_addBlock {look : Bool} {as : List App} {f : Flags} {chain : List Rule} (happ : ∀ a ∈ as, a.WF)
    (hf : flagsWF k f) (hsfs : k = .sfs → as = [] ∧ f = Flags.none ∧ id = 0)
    (hchain : ∀ r ∈ chain, bodyOk e.lc k r.body) :
    Reads e s₀ (Reading e s₀ bs (id :: chain.map (·.id))) (addBlock e look k id as f chain)
      (fun b s pre => True ∧ Reading e s₀ (bs ++ [b]) [] s pre) := by
  have hmem (s : PState) : ∀ r ∈ (newBlock e s k id as f chain).chain, bodyOk e.lc k r.body := by
    intro r hr
    have hbody := mem_map_of_mem (f := Rule.body) hr
    rw [newBlock, map_copyChain Rule.body (fun _ _ => rfl)] at hbody
    obtain ⟨r', hr', heq⟩ := mem_map.mp hbody
    rw [← heq]
    exact hchain r' hr'
  have hwf (s : PState) : (newBlock e s k id as f chain).WF e.lc :=
    ⟨happ, hf, hsfs, fun r hr => (hmem s r hr).1, fun r hr => (hmem s r hr).2⟩
  have hid (s : PState) :
      (newBlock e s k id as f chain).explicit = nonzero (id :: chain.map (·.id)) := by
    rw [Block.explicit, newBlock, map_copyChain Rule.id (fun _ _ => rfl)]
  refine Holds.act (fun s pre b s' hr hok => ?_) (fun s pre s' hr herr => ?_)
  · cases hadd : apnAddBlockCommon (fun b => (apnPrintRule e.lc b).isSome) s.rs
      (newBlock e s k id as f chain) with
    | added rs =>
      simp only [hadd, Except.ok.injEq, Prod.mk.injEq] at hok
      obtain ⟨rfl, rfl⟩ := hok
      have hlen : (newBlock e s k id as f chain).chain.length = chain.length :=
        copyChain_length e.addr chain s.next
      refine ⟨trivial, hr.adds.append (Adds.cons ⟨hwf s, ?_, hadd, ?_⟩ (Adds.nil _)), ?_⟩
      · rw [newBlock_ptrs, hlen]
      · rw [hlen]
      · rw [hr.ids, flatMap_append, flatMap_singleton, hid]
        simp [nonzero]
    | duplicate => simp [hadd] at hok
    | unprintable rs => simp [hadd] at hok
  · refine ⟨bs, s, newBlock e s k id as f chain, hr.adds, hwf s, ?_, by rw [hr.ids, hid]⟩
    cases hadd : apnAddBlockCommon (fun b => (apnPrintRule e.lc b).isSome) s.rs
      (newBlock e s k id as f chain) with
    | added rs => simp [hadd] at herr
    | duplicate =>
      simp only [hadd, Except.error.injEq, Prod.mk.injEq, addErrors] at herr
      obtain ⟨rfl, herr⟩ := herr
      cases hd : e.d with
      | current => simp [hd] at herr
      | v042 =>
        refine Refused.duplicate hd ?_ hadd
        simp only [hd] at herr
        by_contra hk
        rw [newBlock] at hk
        simp [hk] at herr
    | unprintable rs =>
      simp only [hadd, Except.error.injEq, Prod.mk.injEq, addErrors] at herr
      obtain ⟨rfl, herr⟩ := herr
      refine Refused.unprintable (fun hd => ?_) hadd
      simp only [hd] at herr
      by_contra hk
      rw [newBlock] at hk
      simp [hk] at herr

/-! ### Modules and policies -/

theorem reads_ruleset (hbody : Gives body (bodyOk e.lc k)) (hk : k ≠ .sfs) :
    Reads e s₀ (Reading e s₀ bs []) (ruleset e k body) (fun b s pre => True ∧ Reading e s₀ (bs ++ [b]) [] s pre) := by
  refine reads_ruleid.next fun id _ => (gives_apps e).andThen fun as has =>
    (gives_blockflags k).andThen fun f hf => (gives_optnl e).andThen fun _ _ =>
    (gives_char e _).andThen fun _ _ => (gives_optnl e).andThen fun _ _ =>
    (reads_rules hbody).next fun chain hchain => (gives_char e _).andThen fun _ _ => ?_
  have hadd : Reads e s₀ (Reading e s₀ bs (id :: chain.map (·.id))) (addBlock e true k id as f chain)
      (fun b s pre => True ∧ Reading e s₀ (bs ++ [b]) [] s pre) :=
    reads_addBlock has hf (fun h => absurd h hk) hchain
  cases e.d with
  | current => exact (gives_optnl e).andThen fun _ _ => hadd
  | v042 => exact (gives_nl e).andThen fun _ _ => hadd

theorem reads_blockmodule {name : Kw} (hname : name ≠ .colon) (hbody : Gives body (bodyOk e.lc k))
    (hk : k ≠ .sfs) : Reads e s₀ (Reading e s₀ bs []) (blockmodule e name k body)
      (fun cs s pre => True ∧ Reading e s₀ (bs ++ cs) [] s pre) := by
  refine (gives_kw e hname).andThen fun _ _ => (gives_optnl e).andThen fun _ _ =>
    (gives_char e _).andThen fun _ _ => (gives_optnl e).andThen fun _ _ => ?_
  have hmany : Reads e s₀ (Reading e s₀ bs []) (many (isNot '\x7d') syntaxError (ruleset e k body))
      (fun cs s pre => (∀ c ∈ cs, True) ∧ Reading e s₀ (bs ++ cs) [] s pre) := by
    refine Holds.weaken (Holds.many scanned_hereditary (I := fun cs => Reading e s₀ (bs ++ cs) [])
      fun cs => ?_) (fun s pre h => by simpa using h) (fun _ _ _ h => h)
    refine Holds.weaken (reads_ruleset hbody hk) (fun _ _ h => h) fun b s pre h => ?_
    simpa using h
  exact hmany.next fun cs _ => (gives_char e _).andThen fun _ _ =>
    Holds.pure fun s pre h => ⟨trivial, h⟩

theorem reads_sfsmodule : Reads e s₀ (Reading e s₀ bs []) (sfsmodule e)
    (fun cs s pre => True ∧ Reading e s₀ (bs ++ cs) [] s pre) := by
  refine (gives_kw e (by decide)).andThen fun _ _ => (gives_optnl e).andThen fun _ _ =>
    (gives_char e _).andThen fun _ _ => (gives_optnl e).andThen fun _ _ =>
    (reads_rules (gives_sfsbody e)).next fun chain hchain => (gives_char e _).andThen fun _ _ => ?_
  have hadd : Reads e s₀ (Reading e s₀ bs (0 :: chain.map (·.id))) (addBlock e false .sfs 0 [] Flags.none chain)
      (fun b s pre => True ∧ Reading e s₀ (bs ++ [b]) [] s pre) :=
    reads_addBlock (by simp) (by simp [flagsWF, Flags.none]) (fun _ => ⟨rfl, rfl, rfl⟩) hchain
  refine Reads.next (Holds.weaken hadd (fun s pre h => ⟨h.adds, ?_⟩) fun _ _ _ h => h) fun b _ =>
    Holds.pure fun s pre h => ⟨trivial, h⟩
  rw [h.ids]
  rfl

theorem reads_apnmodule : Reads e s₀ (Reading e s₀ bs []) (apnmodule e)
    (fun cs s pre => True ∧ Reading e s₀ (bs ++ cs) [] s pre) := by
  refine Reads.next (V := fun _ => True) (Q := fun cs => Reading e s₀ (bs ++ cs) []) ?_ fun cs _ =>
    (gives_optnl e).andThen fun _ _ => Holds.pure fun s pre h => ⟨trivial, h⟩
  exact Holds.choose (reads_blockmodule (by decide) (gives_alfbody e) (by decide))
    (Holds.choose reads_sfsmodule (Holds.choose
      (reads_blockmodule (by decide) (gives_sbbody e) (by decide))
      (reads_blockmodule (by decide) (gives_ctxbody e) (by decide))))

end

/-- A parser that has read nothing but the version. -/
def PState.withVersion (s : PState) (v : ℕ) : PState := { s with rs := { s.rs with version := v } }

theorem setVersion_spec {e : Env} {t : Text} {s : PState} :
    (∀ u s', setVersion e t s = .ok (u, s') → ∃ v, s' = s.withVersion v) ∧
      ∀ s', setVersion e t s ≠ .error (s', []) := by
  rw [setVersion]
  split
  · exact ⟨fun u s' h => (by cases h), fun s' h => by cases h⟩
  · dsimp only
    split_ifs
    · exact ⟨fun u s' h => (by cases h), fun s' h => by cases h⟩
    · exact ⟨fun u s' h => (by cases h), fun s' h => by cases h⟩
    · exact ⟨fun u s' h => (by cases h), fun s' h => by cases h⟩
    · exact ⟨fun u s' h => ⟨_, (by cases h; rfl)⟩, fun s' h => by cases h⟩

/-- What has been read of a policy that began in `s₀`. -/
def PolicyRead (e : Env) (s₀ : PState) (bs : List Block) (s : PState) (pre : List Tok) : Prop :=
  ∃ v, Reading e (s₀.withVersion v) bs [] s pre

/-- A policy that stopped without an error. -/
def PolicyStops (e : Env) (s₀ s' : PState) (pre : List Tok) : Prop :=
  ∃ v, Stops e (s₀.withVersion v) s' pre

theorem PolicyRead.skip {e : Env} {s₀ s : PState} {bs : List Block} {pre : List Tok}
    (h : PolicyRead e s₀ bs s pre) (hts : ∀ t ∈ ts, NoColon t) : PolicyRead e s₀ bs s (pre ++ ts) := by
  obtain ⟨v, h⟩ := h
  exact ⟨v, h.skip hts⟩

theorem Gives.policyRead {e : Env} {s₀ : PState} {bs : List Block} {α : Type} {p : G α} {V : α → Prop}
    (h : Gives p V) : Holds Scanned (PolicyRead e s₀ bs) p
      (fun a s pre => V a ∧ PolicyRead e s₀ bs s pre) (PolicyStops e s₀) :=
  Yields.holds h fun _ _ _ hts hr => hr.skip hts

theorem holds_version (e : Env) (s₀ : PState) : Holds Scanned (PolicyRead e s₀ []) (version e)
    (fun _ s pre => True ∧ PolicyRead e s₀ [] s pre) (PolicyStops e s₀) := by
  refine Holds.bind scanned_hereditary (Gives.policyRead (gives_kw e (by decide))) fun _ _ =>
    Holds.bind scanned_hereditary (Gives.policyRead (gives_string e)) fun t _ =>
    Holds.bind scanned_hereditary (Gives.policyRead (gives_nl e)) fun _ _ => ?_
  refine Holds.act ?_ ?_
  · rintro s pre u s' ⟨v, hr⟩ hok
    obtain ⟨w, rfl⟩ := setVersion_spec.1 u s' hok
    cases hr.adds with
    | nil => exact ⟨trivial, w, Adds.nil _, hr.ids⟩
  · intro s pre s' _ herr
    exact absurd herr (setVersion_spec.2 s')

theorem gives_endOfText (e : Env) : Gives (endOfText e) (fun _ => True) := by
  refine Gives.next (gives_keywords e (fun _ => True) fun t a hf => ⟨trivial, ?_⟩) fun t _ =>
    Yields.mono Yields.note fun _ _ => trivial
  rintro rfl
  simp [Tok.isEof] at hf

/-- A derivation of a policy adds its blocks, and their IDs are those of the text. -/
theorem holds_policy (e : Env) (s₀ : PState) :
    Holds Scanned (PolicyRead e s₀ []) (policy e) (fun bs s pre => PolicyRead e s₀ bs s pre) (PolicyStops e s₀) := by
  have hversion : Holds Scanned (PolicyRead e s₀ []) (choose (isKw .apnversion) (version e) (pure ()))
      (fun _ s pre => True ∧ PolicyRead e s₀ [] s pre) (PolicyStops e s₀) :=
    Holds.choose (holds_version e s₀) (Holds.pure fun s pre h => ⟨trivial, h⟩)
  have hmodules : Holds Scanned (PolicyRead e s₀ []) (many isNotEof syntaxError (apnmodule e))
      (fun bss s pre => (∀ bs ∈ bss, True) ∧ PolicyRead e s₀ bss.flatten s pre)
      (PolicyStops e s₀) := by
    refine Holds.many scanned_hereditary (I := fun bss => PolicyRead e s₀ bss.flatten) fun bss => ?_
    refine Holds.weaken (Holds.param fun v => reads_apnmodule) (fun _ _ h => h) ?_
    rintro cs s pre ⟨v, -, h⟩
    refine ⟨trivial, v, ?_⟩
    simpa using h
  exact Holds.bind scanned_hereditary (Gives.policyRead (gives_optnl e)) fun _ _ =>
    Holds.bind scanned_hereditary hversion fun _ _ =>
    Holds.bind scanned_hereditary hmodules fun bss _ =>
    Holds.bind scanned_hereditary (Gives.policyRead (gives_endOfText e)) fun _ _ =>
    Holds.pure fun s pre h => h

end Anoubis.Apn

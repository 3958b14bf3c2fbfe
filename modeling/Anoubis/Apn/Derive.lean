import Anoubis.Apn.Parse
import Anoubis.Lib.SynLogic

/-! What the grammar builds.

    The rules of `SynLogic` at the nonterminals of the policy language: each value is well formed if
    the tokens are ones that the lexer makes, only `ruleid` reads a colon, and only a complete block
    changes the ruleset. At the top a policy is a sequence of blocks that were added one by one. -/

namespace Anoubis.Apn

open Option

open Anoubis.Lib Anoubis.Lib.Syn List

/-! ### Tokens of the lexer -/

/-- A string that `yylex` can return. -/
structure GoodText (s : Text) : Prop where
  noNewline : '\n' ∉ s
  noNul : '\x00' ∉ s
  short : s.length < bufSize

/-- A token that `yylex` can return. -/
def TokOk : Tok → Prop
  | .str s => GoodText s
  | .num n => llongMin ≤ n ∧ n ≤ llongMax
  | _ => True

def Scanned (ts : List Tok) : Prop := ∀ t ∈ ts, TokOk t

theorem scanned_hereditary : Hereditary Scanned where
  left := fun h t ht => h t (mem_append_left _ ht)
  right := fun h t ht => h t (mem_append_right _ ht)

/-- Any token but the colon. -/
def NoColon (t : Tok) : Prop := t ≠ .kw .colon

/-- `Yields` for the tokens of the lexer without the colon. -/
abbrev Gives {α : Type} (p : G α) (V : α → Prop) : Prop := Yields Scanned NoColon p V

theorem Gives.next {α β : Type} {p : G α} {f : α → G β} {V : α → Prop} {W : β → Prop}
    (hp : Gives p V) (hf : ∀ a, V a → Gives (f a) W) : Gives (p >>= f) W :=
  Yields.bind scanned_hereditary hp hf

theorem gives_pure {α : Type} {a : α} {V : α → Prop} (h : V a) : Gives (pure a) V := Yields.pure h

theorem gives_check {look c : Bool} {errs : List Text} (h : errs ≠ []) :
    Gives (check look c errs) (fun _ => c = true) := Yields.check h

variable {test : Tok → Bool}

theorem gives_many {α : Type} {err : Text} {p : G α} {V : α → Prop} (h : Gives p V) :
    Gives (many test err p) (fun as => ∀ a ∈ as, V a) :=
  Yields.many scanned_hereditary h

theorem gives_choose {α : Type} {p q : G α} {V : α → Prop} (hp : Gives p V) (hq : Gives q V) :
    Gives (choose test p q) V := Yields.choose hp hq

/-! ### Well-formed values -/

def Subject.WF : Subject → Prop
  | .uid u => u < 2 ^ 32
  | .key k => GoodText k
  | _ => True

/-- A path that `normalize_path` has returned. -/
structure PathWF (p : Text) : Prop where
  canonical : Canonical p
  good : GoodText p

def App.WF (a : App) : Prop := (∃ p, a.name = some p ∧ PathWF p) ∧ a.subject.WF

def optPathWF (p : Option Text) : Prop := ∀ q, p = some q → PathWF q

/-- A port number that fits its type, or one that `getservbyname` knows. -/
def portWF (lc : Libc) (n : ℕ) : Prop := n < 2 ^ 16 ∨ ∃ s p, lc.getservbyname s p = some n

/-- One port or a range that is not empty. -/
structure Port.WF (lc : Libc) (p : Port) : Prop where
  port : portWF lc p.port
  port2 : p.port2 < 2 ^ 16
  range : p.port2 ≠ 0 → p.port < 2 ^ 16 ∧ swap16 p.port ≤ swap16 p.port2

structure AfiltSpec.WF (lc : Libc) (f : AfiltSpec) : Prop where
  access : validateAccess f.proto f.netaccess = true
  fromhost : ∀ h ∈ f.fromhost, validateHost (some h) = true
  tohost : ∀ h ∈ f.tohost, validateHost (some h) = true
  fromport : ∀ p ∈ f.fromport, Port.WF lc p
  toport : ∀ p ∈ f.toport, Port.WF lc p

def Body.WF (lc : Libc) : Body → Prop
  | .alfFilter a f => a ≠ .continue ∧ f.WF lc
  | .alfCapability a _ _ => a ≠ .continue
  | .default d => d.action ≠ .continue
  | .ctxRule as _ => ∀ a ∈ as, a.WF
  | .sfsAccess p s _ _ _ => optPathWF p ∧ s ≠ .none ∧ s.WF
  | .sfsDefault p _ a => optPathWF p ∧ a ≠ .continue
  | .sbAccess p s m _ a => optPathWF p ∧ s.WF ∧ m < 8 ∧ a ≠ .continue

/-- The flags that the blocks of a module can have. -/
def flagsWF (k : Kind) (f : Flags) : Prop :=
  if k = .ctx then f.pgonly = false else f.nosfs = false ∧ f.pgforce = false

/-- A block as the parser adds it. -/
structure Block.WF (lc : Libc) (b : Block) : Prop where
  app : ∀ a ∈ b.app, a.WF
  flags : flagsWF b.kind b.flags
  sfs : b.kind = .sfs → b.app = [] ∧ b.flags = Flags.none ∧ b.id = 0
  types : ∀ r ∈ b.chain, apnVerifyTypes b.kind r.body = true
  bodies : ∀ r ∈ b.chain, r.body.WF lc

/-! ### Normalised paths -/

theorem popComponent_suffix (out : Text) : popComponent out <:+ out :=
  (tail_suffix _).trans (dropWhile_suffix _)

/-- The loop of `normalize_path` adds nothing to the characters of the path. -/
theorem normLoop_spec : ∀ (fuel : ℕ) (out src : Text), (normLoop fuel out src).length ≤ out.length + src.length ∧
      ∀ c ∈ normLoop fuel out src, c ∈ out ∨ c ∈ src := by
  intro fuel
  -- every round hands on a part of `out` and of `src`, or moves the first character over
  induction fuel with
  | zero => intro out src; exact ⟨by simp [normLoop], fun c hc => .inl hc⟩
  | succ fuel ih =>
    intro out src
    have hstep : ∀ {out' src' : Text}, out'.length + src'.length ≤ out.length + src.length →
        (∀ c, c ∈ out' ∨ c ∈ src' → c ∈ out ∨ c ∈ src) →
        (normLoop fuel out' src').length ≤ out.length + src.length ∧
          ∀ c ∈ normLoop fuel out' src', c ∈ out ∨ c ∈ src := by
      intro out' src' hlen hsub
      obtain ⟨h1, h2⟩ := ih out' src'
      exact ⟨h1.trans hlen, fun c hc => hsub c (h2 c hc)⟩
    cases src with
    | nil => exact ⟨by simp [normLoop], fun c hc => .inl hc⟩
    | cons a src =>
      have hdrop : ∀ (n : ℕ) {c : Char}, c ∈ src.drop n → c ∈ a :: src := fun n c hc =>
        mem_cons_of_mem _ (mem_of_mem_drop hc)
      rw [normLoop]
      split_ifs with h1 h2 h3 h4
      · refine hstep (by simp; omega) (fun c hc => ?_)
        rcases hc with hc | hc
        · rcases mem_cons.mp hc with rfl | hc
          · exact .inr mem_cons_self
          · exact .inl hc
        · exact .inr (mem_cons_of_mem _ hc)
      · exact hstep (by simp) (fun c hc => hc.imp id (mem_cons_of_mem _))
      · exact hstep (by simp; omega) (fun c hc => hc.imp id (hdrop 1))
      · have hpop := popComponent_suffix out
        refine hstep ?_ (fun c hc => hc.imp (fun h => hpop.subset h) (hdrop 2))
        have hle := hpop.length_le
        simp only [length_drop, length_cons]
        omega
      · have ha : a = '/' := by simpa using h1
        refine hstep (by simp; omega) (fun c hc => ?_)
        rcases hc with hc | hc
        · rcases mem_cons.mp hc with rfl | hc
          · exact .inr (by rw [ha]; exact mem_cons_self)
          · exact .inl hc
        · exact .inr (mem_cons_of_mem _ hc)

theorem normalizePath_good {s p : Text} (h : normalizePath s = some p) (hs : GoodText s) : PathWF p := by
  have hcan := normalizePath_canonical h
  rw [normalizePath] at h
  split at h
  · cases h
  · rename_i hhead
    obtain ⟨hlen, hmem⟩ := normLoop_spec s.length [] s
    have hslash : '/' ∈ s := mem_of_mem_head? (by simpa using hhead)
    have hpos : 0 < s.length := length_pos_of_mem hslash
    simp only [length_nil, zero_add] at hlen
    simp only [not_mem_nil, false_or] at hmem
    generalize normLoop s.length [] s = out at h hlen hmem
    have htail : (if out.head? = some '/' then out.tail else out).length ≤ s.length ∧
        ∀ c ∈ (if out.head? = some '/' then out.tail else out), c ∈ s := by
      split
      · exact ⟨by simp; omega, fun c hc => hmem c (mem_of_mem_tail hc)⟩
      · exact ⟨hlen, hmem⟩
    simp only at h
    generalize (if out.head? = some '/' then out.tail else out) = out' at h htail
    have hp : p.length ≤ s.length ∧ ∀ c ∈ p, c ∈ s := by
      cases h
      split
      · exact ⟨by simpa [Nat.succ_le_iff] using hpos, by simpa using hslash⟩
      · simpa using htail
    exact ⟨hcan, fun hc => hs.noNewline (hp.2 _ hc), fun hc => hs.noNul (hp.2 _ hc),
      lt_of_le_of_lt hp.1 hs.short⟩

/-! ### Common elements -/

section

variable (e : Env)
variable {α : Type} {f : Tok → Option α} {s : Text} {sep : G Unit} {n : ℕ}

theorem gives_tok {V : α → Prop} (h : ∀ t a, TokOk t → f t = some a → V a ∧ NoColon t) : Gives (tok e f) V :=
  Yields.token (fun t a ht => h t a (ht t mem_cons_self))

theorem gives_kw {k : Kw} (hk : k ≠ .colon) : Gives (kw e k) (fun _ => True) := by
  refine gives_tok e (fun t a _ hf => ⟨trivial, ?_⟩)
  rintro rfl
  simp [Ne.symm hk] at hf

theorem gives_char (c : Char) : Gives (char e c) (fun _ => True) := by
  refine gives_tok e (fun t a _ hf => ⟨trivial, ?_⟩)
  rintro rfl
  simp at hf

theorem gives_string : Gives (string e) GoodText := by
  refine gives_tok e (fun t a ht hf => ?_)
  cases t with
  | str s => exact ⟨by obtain rfl := some.inj hf; exact ht, by simp [NoColon]⟩
  | _ => cases hf

theorem gives_number : Gives (number e) (fun n => llongMin ≤ n ∧ n ≤ llongMax) := by
  refine gives_tok e (fun t a ht hf => ?_)
  cases t with
  | num n => exact ⟨by obtain rfl := some.inj hf; exact ht, by simp [NoColon]⟩
  | _ => cases hf

theorem gives_optnl : Gives (optnl e) (fun _ => True) :=
  (gives_many (gives_char e '\n')).next (fun _ _ => gives_pure trivial)

theorem gives_nl : Gives (nl e) (fun _ => True) :=
  (gives_char e '\n').next (fun _ _ => gives_optnl e)

/-- A table of keywords. -/
theorem gives_keywords (V : α → Prop) (h : ∀ t a, f t = some a → V a ∧ t ≠ .kw .colon) : Gives (tok e f) V :=
  gives_tok e (fun t a _ => h t a)

theorem gives_action : Gives (action e) (fun a => a ≠ .continue) := by
  refine Gives.next (gives_keywords e (fun a => a ≠ .continue) (fun t a hf => ?_)) (fun a ha => ?_)
  · split at hf <;> cases hf <;> simp
  · exact (gives_check (cons_ne_nil _ _)).next (fun _ _ => gives_pure ha)

theorem gives_log : Gives (log e) (fun _ => True) := by
  refine gives_choose (gives_keywords e _ (fun t a hf => ⟨trivial, ?_⟩)) (gives_pure trivial)
  rintro rfl
  cases hf

theorem gives_defaultrule : Gives (defaultrule e) (fun d => d.action ≠ .continue) :=
  (gives_kw e (by decide)).next fun _ _ => (gives_log e).next fun _ _ =>
    (gives_action e).next fun _ ha => gives_pure ha

theorem gives_scope : Gives (scope e) (fun _ => True) := by
  have hpure (o : Option Scope) : Gives (pure o) (fun _ => True) := gives_pure trivial
  have hcheck (look : Bool) (o : Option Scope) :
      Gives (do check look (scopePermitted e) scopeError; pure o) (fun _ => True) :=
    (gives_check (cons_ne_nil _ _)).next fun _ _ => hpure o
  have hnum {f : ℤ → G (Option Scope)} (k : Kw) (hk : k ≠ .colon) (hf : ∀ n, Gives (f n) (fun _ => True)) :
      Gives (do kw e k; let n ← number e; f n) (fun _ => True) :=
    (gives_kw e hk).next fun _ _ => (gives_number e).next fun n _ => hf n
  refine gives_choose (hnum .task (by decide) fun task => ?_)
    (gives_choose (hnum .until (by decide) fun timeout => ?_) (hpure _))
  · exact gives_choose (hnum .until (by decide) fun _ => hcheck _ _) (hcheck _ _)
  · exact gives_choose (hnum .task (by decide) fun _ => hcheck _ _) (hcheck _ _)

theorem gives_normalized (hs : GoodText s) : Gives (normalized s) (fun o => ∃ p, o = some p ∧ PathWF p) := by
  refine Gives.next Yields.note (fun _ h => gives_pure ?_)
  obtain ⟨p, hp⟩ := isSome_iff_exists.mp h
  exact ⟨p, hp, normalizePath_good hp hs⟩

theorem gives_sfssubject : Gives (sfssubject e) (fun s => s ≠ .none ∧ s.WF) := by
  refine gives_choose ?_ (gives_choose ?_ ?_)
  · refine (gives_kw e (by decide)).next fun _ _ => (gives_number e).next fun n _ =>
      gives_pure ⟨by simp, ?_⟩
    have hlt : n % 2 ^ 32 < 2 ^ 32 := Int.emod_lt_of_pos n (by decide)
    simp only [Subject.WF, toUid]
    omega
  · exact (gives_kw e (by decide)).next fun _ _ => (gives_string e).next fun s hs =>
      gives_pure ⟨by simp, hs⟩
  · refine gives_keywords e _ (fun t a hf => ?_)
    split at hf <;> cases hf <;> simp [Subject.WF]

theorem gives_optSubject {p : G Subject} {test : Tok → Bool}
    (hp : Gives p (fun s => s ≠ .none ∧ s.WF)) : Gives (choose test p (pure .none)) Subject.WF :=
  gives_choose (Yields.mono hp fun _ h => h.2) (gives_pure trivial)

theorem gives_app : Gives (app e) App.WF :=
  (gives_string e).next fun _ hs => (gives_optSubject (gives_sfssubject e)).next fun _ hsub =>
    (gives_normalized hs).next fun _ hp => gives_pure ⟨hp, hsub⟩

theorem gives_commaList {p : G α} {V : α → Prop} (hsep : Gives sep (fun _ => True)) (hp : Gives p V) :
    Gives (commaList sep p) (fun as => ∀ a ∈ as, V a) := by
  refine Gives.next hp fun a ha => ?_
  refine (gives_many (hsep.next fun _ _ => hp)).next fun as has => gives_pure ?_
  simpa using ⟨ha, has⟩

/-- A list in braces, `any`, or a single item. -/
theorem gives_braced {p : G α} {V : α → Prop} (hsep : Gives sep (fun _ => True)) (hp : Gives p V) :
    Gives (choose (isCh '\x7b')
      (do
        char e '\x7b'
        let as ← commaList sep p
        char e '\x7d'
        pure as)
      (choose (isKw .any)
        (do
          kw e .any
          pure [])
        (do
          let a ← p
          pure [a]))) (fun as => ∀ a ∈ as, V a) := by
  refine gives_choose ?_ (gives_choose ?_ ?_)
  · exact (gives_char e _).next fun _ _ => (gives_commaList hsep hp).next fun _ has =>
      (gives_char e _).next fun _ _ => gives_pure has
  · exact (gives_kw e (by decide)).next fun _ _ => gives_pure (by simp)
  · exact Gives.next hp fun a ha => gives_pure (by simpa using ha)

theorem gives_apps : Gives (apps e) (fun as => ∀ a ∈ as, a.WF) :=
  gives_braced e ((gives_char e _).next fun _ _ => gives_optnl e) (gives_app e)

/-! ### ALF -/

theorem gives_address : Gives (address e) (fun _ => True) := by
  refine (gives_string e).next fun s _ => ?_
  cases hostAddr e.lc e.d s with
  | addr a => exact gives_pure trivial
  | badPrefix msg => exact Gives.next Yields.note fun _ _ => gives_pure trivial
  | unknown => exact (gives_check (cons_ne_nil _ _)).next fun _ _ => gives_pure trivial

theorem gives_host : Gives (host e) (fun _ => True) := by
  refine Gives.next (V := fun _ => True) (gives_choose ?_ (gives_pure trivial)) fun _ _ =>
    (gives_address e).next fun _ _ => gives_pure trivial
  exact (gives_char e _).next fun _ _ => gives_pure trivial

theorem gives_hostspec : Gives (hostspec e) (fun _ => True) :=
  Yields.mono (gives_braced e (gives_char e _) (gives_host e)) fun _ _ => trivial

theorem swap16_swap16 (h : n < 2 ^ 16) : swap16 (swap16 n) = n := by
  simp only [swap16]
  omega

theorem swap16_lt (h : n < 2 ^ 16) : swap16 n < 2 ^ 16 := by
  simp only [swap16]
  omega

theorem toNat_lt_of_portRange {n : ℤ} (h : portRange n = true) : n.toNat < 2 ^ 16 := by
  simp only [portRange, Bool.and_eq_true, decide_eq_true_eq] at h
  omega

theorem gives_port : Gives (port e) (fun p => Port.WF e.lc p.1) := by
  refine gives_choose ((gives_number e).next fun n _ => gives_choose ?_ ?_) ?_
  · refine (gives_char e _).next fun _ _ => (gives_number e).next fun m _ =>
      (gives_check (cons_ne_nil _ _)).next fun _ hn =>
      (gives_check (cons_ne_nil _ _)).next fun _ hm =>
      (gives_check (cons_ne_nil _ _)).next fun _ hle => gives_pure ?_
    have hn' := toNat_lt_of_portRange hn
    have hm' := toNat_lt_of_portRange hm
    refine ⟨.inl (swap16_lt hn'), swap16_lt hm', fun _ => ⟨swap16_lt hn', ?_⟩⟩
    simp only [toPort, swap16_swap16 hn', swap16_swap16 hm']
    rw [decide_eq_true_eq] at hle
    omega
  · refine (gives_check (cons_ne_nil _ _)).next fun _ hn => gives_pure ?_
    exact ⟨.inl (swap16_lt (toNat_lt_of_portRange hn)), by simp, by simp⟩
  · refine (gives_string e).next fun s _ => (gives_check (cons_ne_nil _ _)).next fun _ hs => gives_pure ?_
    obtain ⟨p, hp⟩ := isSome_iff_exists.mp hs
    refine ⟨.inr ?_, by simp, by simp⟩
    simp only [hp, getD_some]
    rw [portbyname] at hp
    split at hp
    · rename_i q hq
      cases hp
      exact ⟨_, _, hq⟩
    · exact ⟨_, _, hp⟩

theorem gives_ports : Gives (ports e) (fun ps => ∀ p ∈ ps.1, Port.WF e.lc p) := by
  refine gives_choose ?_ ?_
  · refine (gives_char e _).next fun _ _ => (gives_commaList (gives_char e _) (gives_port e)).next
      fun ps hps => (gives_char e _).next fun _ _ => gives_pure ?_
    intro p hp
    obtain ⟨q, hq, rfl⟩ := mem_map.mp hp
    exact hps q hq
  · exact (gives_port e).next fun p hp => gives_pure (by simpa using hp)

theorem gives_portspec : Gives (portspec e) (fun ps => ∀ p ∈ ps.1, Port.WF e.lc p) :=
  gives_choose ((gives_kw e (by decide)).next fun _ _ => gives_ports e) (gives_pure (by simp))

theorem gives_hosts : Gives (hosts e) (fun h => (∀ p ∈ h.fromport, Port.WF e.lc p) ∧
    ∀ p ∈ h.toport, Port.WF e.lc p) := by
  refine gives_choose ?_ ?_
  · exact (gives_kw e (by decide)).next fun _ _ => gives_pure (by simp)
  · exact (gives_kw e (by decide)).next fun _ _ => (gives_hostspec e).next fun _ _ =>
      (gives_portspec e).next fun _ hfrom => (gives_kw e (by decide)).next fun _ _ =>
      (gives_hostspec e).next fun _ _ => (gives_portspec e).next fun _ hto => gives_pure ⟨hfrom, hto⟩

theorem mem_filterMap_validate {hs : List (Option Host)} (h : hs.all validateHost = true) :
    ∀ x ∈ hs.filterMap id, validateHost (some x) = true := by
  intro x hx
  obtain ⟨o, ho, rfl⟩ := mem_filterMap.mp hx
  exact all_eq_true.mp h _ ho

theorem gives_alffilterspec : Gives (alffilterspec e) (AfiltSpec.WF e.lc) := by
  have hne (msg : Text) : filterErrors e msg ≠ [] := cons_ne_nil _ _
  refine Gives.next (gives_keywords e (fun _ => True) (fun t a hf => ⟨trivial, ?_⟩)) fun a _ =>
    (gives_log e).next fun _ _ =>
    Gives.next (gives_keywords e (fun _ => True) (fun t a hf => ⟨trivial, ?_⟩)) fun p _ =>
    (gives_hosts e).next fun h hports => (gives_check (hne _)).next fun _ haccess =>
    (gives_check (hne _)).next fun _ hfrom => (gives_check (hne _)).next fun _ hto => gives_pure ?_
  · rintro rfl
    cases hf
  · rintro rfl
    cases hf
  · exact ⟨haccess, mem_filterMap_validate hfrom, mem_filterMap_validate hto, hports.1, hports.2⟩

/-- A well-formed body of a block of kind `k`. -/
def bodyOk (lc : Libc) (k : Kind) (b : Body) : Prop := apnVerifyTypes k b = true ∧ b.WF lc

theorem gives_alfbody : Gives (alfbody e) (bodyOk e.lc .alf) := by
  refine gives_choose ?_ ?_
  · exact (gives_defaultrule e).next fun _ hd => gives_pure ⟨rfl, hd⟩
  · refine (gives_action e).next fun a ha => gives_choose ?_ ?_
    · exact (gives_alffilterspec e).next fun _ hf => gives_pure ⟨rfl, ha, hf⟩
    · refine (gives_log e).next fun _ _ =>
        Gives.next (gives_keywords e (fun _ => True) (fun t c hf => ⟨trivial, ?_⟩)) fun _ _ =>
          gives_pure ⟨rfl, ha⟩
      rintro rfl
      cases hf

/-! ### SFS -/

theorem gives_sfspath : Gives (sfspath e) optPathWF := by
  refine gives_choose ?_ ?_
  · exact (gives_kw e (by decide)).next fun _ _ => gives_pure (by simp [optPathWF])
  · refine (gives_kw e (by decide)).next fun _ _ => (gives_string e).next fun _ hs =>
      Yields.mono (gives_normalized hs) ?_
    rintro _ ⟨p, rfl, hp⟩ q hq
    cases hq
    exact hp

theorem gives_sfsdefault {k : Kw} (hk : k ≠ .colon) (dflt : Default) :
    Gives (sfsdefault e k dflt) (fun _ => True) := by
  refine gives_choose ?_ (gives_pure trivial)
  refine (gives_kw e hk).next fun _ _ => (gives_log e).next fun _ _ =>
    Gives.next (V := fun _ => True) (gives_choose ?_ ?_) fun _ _ => gives_pure trivial
  · exact (gives_kw e (by decide)).next fun _ _ => gives_pure trivial
  · exact Yields.mono (gives_action e) fun _ _ => trivial

theorem gives_sfsbody : Gives (sfsbody e) (bodyOk e.lc .sfs) := by
  refine gives_choose ?_ ?_
  · exact (gives_kw e (by decide)).next fun _ _ => (gives_sfspath e).next fun _ hp =>
      (gives_log e).next fun _ _ => (gives_action e).next fun _ ha => gives_pure ⟨rfl, hp, ha⟩
  · exact (gives_sfspath e).next fun _ hp => (gives_sfssubject e).next fun _ hs =>
      (gives_sfsdefault e (by decide) _).next fun _ _ => (gives_sfsdefault e (by decide) _).next
      fun _ _ => (gives_sfsdefault e (by decide) _).next fun _ _ => gives_pure ⟨rfl, hp, hs⟩

/-! ### Sandbox and context -/

theorem gives_sbsubject : Gives (sbsubject e) (fun s => s ≠ .none ∧ s.WF) := by
  rw [sbsubject]
  cases e.d with
  | current => exact gives_sfssubject e
  | v042 =>
    refine gives_choose ?_ (gives_sfssubject e)
    refine (gives_kw e (by decide)).next fun _ _ => (gives_number e).next fun n _ =>
      (gives_check (cons_ne_nil _ _)).next fun _ _ => gives_pure ⟨by simp, ?_⟩
    have hlt : n % 2 ^ 32 < 2 ^ 32 := Int.emod_lt_of_pos n (by decide)
    simp only [Subject.WF, toUid]
    omega

theorem gives_sbpred : Gives (sbpred e) (fun p => optPathWF p.1 ∧ p.2.WF) := by
  refine gives_choose ?_ (gives_choose ?_ ?_)
  · exact (gives_kw e (by decide)).next fun _ _ => gives_pure ⟨by simp [optPathWF], trivial⟩
  · refine (gives_kw e (by decide)).next fun _ _ => (gives_string e).next fun _ hs =>
      (gives_normalized hs).next fun _ hp => (gives_optSubject (gives_sbsubject e)).next fun _ hsub =>
      gives_pure ⟨?_, hsub⟩
    obtain ⟨p, rfl, hp⟩ := hp
    intro q hq
    cases hq
    exact hp
  · exact (gives_sbsubject e).next fun _ hsub => gives_pure ⟨by simp [optPathWF], hsub.2⟩

theorem sbMask_lt : ∀ {mask m : ℕ}, mask < 8 → sbMask mask s = .inl m → m < 8 := by
  induction s with
  | nil => intro mask m hlt h; obtain rfl := Sum.inl.inj h; exact hlt
  | cons c s ih =>
    intro mask m hlt h
    have hletter : ∀ nm, sbLetter c = some nm → nm < 8 := by
      intro nm hnm
      simp only [sbLetter] at hnm
      split_ifs at hnm <;> obtain rfl := some.inj hnm <;> decide
    rw [sbMask] at h
    cases hc : sbLetter c with
    | none => simp [hc] at h
    | some nm =>
      simp only [hc] at h
      split at h
      · cases h
      · exact ih (Nat.or_lt_two_pow (n := 3) hlt (hletter nm hc)) h

theorem gives_sbrwx : Gives (sbrwx e) (fun m => m < 8) := by
  refine (gives_string e).next fun s _ => ?_
  cases hm : sbMask 0 s with
  | inl mask => exact gives_pure (sbMask_lt (by decide) hm)
  | inr msg => exact (gives_check (cons_ne_nil _ _)).next fun _ h => absurd h (by decide)

theorem gives_sbbody : Gives (sbbody e) (bodyOk e.lc .sb) := by
  refine gives_choose ?_ ?_
  · exact (gives_defaultrule e).next fun _ hd => gives_pure ⟨rfl, hd⟩
  · exact (gives_action e).next fun _ ha => (gives_log e).next fun _ _ => (gives_sbpred e).next
      fun _ hp => (gives_sbrwx e).next fun _ hm => gives_pure ⟨rfl, hp.1, hp.2, hm, ha⟩

theorem gives_ctxbody : Gives (ctxbody e) (bodyOk e.lc .ctx) := by
  refine (gives_kw e (by decide)).next fun _ _ =>
    Gives.next (gives_keywords e (fun _ => True) (fun t c hf => ⟨trivial, ?_⟩)) fun _ _ =>
      (gives_apps e).next fun _ has => gives_pure ⟨rfl, has⟩
  rintro rfl
  cases hf

end

end Anoubis.Apn

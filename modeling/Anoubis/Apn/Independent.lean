import Anoubis.Apn.Outcome

/-! Parses in one process.

    The grammars keep `pushback_buffer` in static variables, and a parse that stops early leaves
    characters in them. The next text is then read with these characters in front:

        "5,"  -->  rejected, pushback = ","          ""  -->  ",…"  -->  rejected

    As long as only blanks and line breaks are left over, every text of a sequence is parsed as if it
    were the only one. The bytes of a text may come from a file or from any iovec. -/

namespace Anoubis.Apn

open Anoubis.Lib Anoubis.Lib.Syn List

/-! ### Blanks in front of a text -/

/-- Characters that the lexer skips, and line breaks. -/
def isBlank (c : Char) : Bool := c = ' ' || c = '\t' || c = '\n'

theorem yylex_blank (d : Dialect) {c : Char} (hc : c = ' ' ∨ c = '\t') (pb t : Text) :
    yylex d ⟨c :: pb, t⟩ = yylex d ⟨pb, t⟩ := by
  have hskip : skipBlanks ((⟨c :: pb, t⟩ : LexState).size + 1) ⟨c :: pb, t⟩ =
      skipBlanks ((⟨pb, t⟩ : LexState).size + 1) ⟨pb, t⟩ := by
    have hsize : (⟨c :: pb, t⟩ : LexState).size = (⟨pb, t⟩ : LexState).size + 1 := by
      simp only [LexState.size, length_cons]
      omega
    have hget : lgetc ⟨c :: pb, t⟩ = (.byte c, ⟨pb, t⟩) := by
      rcases hc with rfl | rfl <;> rfl
    rw [hsize, skipBlanks, hget]
    exact if_pos hc
  rw [yylex, yylex, hskip]

theorem yylex_newline (d : Dialect) (pb t : Text) : yylex d ⟨'\n' :: pb, t⟩ = (.ch '\n', ⟨pb, t⟩) := rfl

/-- Blanks that were pushed back give at most line breaks. -/
theorem tokens_blank (d : Dialect) (t : Text) : ∀ pb : Text, (∀ c ∈ pb, isBlank c = true) →
    ∃ k, tokens d ⟨pb, t⟩ = List.replicate k (.ch '\n') ++ tokens d ⟨[], t⟩ := by
  intro pb
  induction pb with
  | nil => intro _; exact ⟨0, rfl⟩
  | cons c pb ih =>
    intro hpb
    obtain ⟨k, hk⟩ := ih (fun x hx => hpb x (mem_cons_of_mem _ hx))
    have hc := hpb c mem_cons_self
    simp only [isBlank, Bool.or_eq_true, decide_eq_true_eq] at hc
    rcases hc with hc | rfl
    · refine ⟨k, ?_⟩
      rw [← hk, tokens, tokens, lexText_eq, lexText_eq d ⟨pb, t⟩, yylex_blank d hc]
    · refine ⟨k + 1, ?_⟩
      rw [tokens, lexText_eq, yylex_newline, if_neg (by simp [Tok.isEof]), map_cons, replicate_succ,
        cons_append, ← hk]
      rfl

theorem many_newline (e : Env) (s : PState) (toks : List Tok) :
    (many (isCh '\n') syntaxError (char e '\n')).run s (.ch '\n' :: toks) =
      match (many (isCh '\n') syntaxError (char e '\n')).run s toks with
      | .ok as s rest errs => .ok (() :: as) s rest errs
      | .fail s unread errs => .fail s unread errs := by
  have hchar : (char e '\n').run s (.ch '\n' :: toks) = .ok () s toks [] := by
    simp [char, tok, token]
  simp only [many, length_cons]
  rw [manyRun, if_pos (by simp [ahead, isCh]), hchar]
  dsimp only
  cases manyRun (isCh '\n') syntaxError (char e '\n').run toks.length s toks <;> rfl

theorem optnl_newline (e : Env) (s : PState) (toks : List Tok) :
    (optnl e).run s (.ch '\n' :: toks) = (optnl e).run s toks := by
  rw [optnl, Syn.run_bind, Syn.run_bind, many_newline]
  cases (many (isCh '\n') syntaxError (char e '\n')).run s toks <;> rfl

/-- Line breaks in front of a policy do not matter. -/
theorem policy_newlines (e : Env) (s : PState) (k : ℕ) (toks : List Tok) :
    (policy e).run s (List.replicate k (.ch '\n') ++ toks) = (policy e).run s toks := by
  induction k with
  | zero => rfl
  | succ k ih =>
    rw [← ih, replicate_succ, cons_append, policy, Syn.run_bind, optnl_newline, ← Syn.run_bind]

/-- `yyparse` behind blanks. -/
theorem yyparse_blank (e : Env) {pb : Text} (h : ∀ c ∈ pb, isBlank c = true) (t : Text) :
    (yyparse e pb t).errs = (yyparse e [] t).errs ∧ (yyparse e pb t).rs = (yyparse e [] t).rs ∧
      (yyparse e pb t).next = (yyparse e [] t).next := by
  obtain ⟨k, hk⟩ := tokens_blank e.d t pb h
  rw [tokens, tokens] at hk
  have hrun := policy_newlines e ⟨emptyRuleset e.flags, 0⟩ k ((lexText e.d ⟨[], t⟩).map (·.1))
  rw [← hk] at hrun
  rw [yyparse, yyparse]
  simp only [hrun]
  cases (policy e).run ⟨emptyRuleset e.flags, 0⟩ ((lexText e.d ⟨[], t⟩).map (·.1)) with
  | ok bs s rest errs => exact ⟨rfl, rfl, rfl⟩
  | fail s unread errs => exact ⟨rfl, rfl, rfl⟩

/-- Nothing but blanks is left of earlier texts. -/
def Statics.Blank (st : Statics) : Prop := ∀ d, ∀ c ∈ st.get d, isBlank c = true

theorem Parsed.accepts_congr {p q : Parsed} (h1 : p.errs = q.errs) (h2 : p.rs = q.rs) : p.accepts = q.accepts := by
  rw [Parsed.accepts, Parsed.accepts, h1, h2]

theorem Parsed.fallsBack_congr {p q : Parsed} (h1 : p.errs = q.errs) (h2 : p.rs = q.rs) :
    p.fallsBack = q.fallsBack := by
  rw [Parsed.fallsBack, Parsed.fallsBack, Parsed.accepts_congr h1 h2, h2]

theorem Parsed.written_congr (i : Input) {p q : Parsed} (h2 : p.rs = q.rs) (h3 : p.next = q.next) :
    p.written i = q.written i := by
  obtain ⟨errs, rs, next, pushback⟩ := p
  simp only at h2 h3
  subst h2 h3
  rfl

/-- What counts of a parse does not see blanks. -/
theorem parsed_blank (i : Input) {st : Statics} (h : st.Blank) :
    (parsed i st).accepts = (parsed i Statics.init).accepts ∧
      (parsed i st).written i = (parsed i Statics.init).written i := by
  have hinit (d : Dialect) : Statics.init.get d = [] := by cases d <;> rfl
  have hd : decides i st = decides i Statics.init := by
    obtain ⟨h1, h2, -⟩ := yyparse_blank (i.env .current) (h .current) i.text
    rw [decides, decides, hinit, Parsed.fallsBack_congr h1 h2]
  rw [parsed, parsed, hd, hinit]
  obtain ⟨h1, h2, h3⟩ := yyparse_blank (i.env (decides i Statics.init)) (h _) i.text
  exact ⟨Parsed.accepts_congr h1 h2, Parsed.written_congr i h2 h3⟩

/-! ### Iovecs -/

/-- The bytes of an iovec from the current position on. -/
def IovState.rest (f : IovState) : Text :=
  match f.vec.drop f.cvec with
  | [] => []
  | iov :: vec => iov.drop f.cidx ++ vec.flatten

theorem rest_next (vec : List Text) (n : ℕ) : IovState.rest ⟨vec, n, 0⟩ = (vec.drop n).flatten := by
  rw [IovState.rest]
  cases vec.drop n <;> rfl

/-- `llgetc` returns the next byte. -/
theorem llgetcIovec_spec (n : ℕ) : ∀ f : IovState, f.vec.length < n + f.cvec →
    match llgetcIovec n f with
    | (none, _) => f.rest = []
    | (some c, f') => f.rest = c :: f'.rest := by
  induction n with
  | zero =>
    intro f h
    rw [llgetcIovec]
    simp only [IovState.rest, drop_eq_nil_of_le (show f.vec.length ≤ f.cvec by omega)]
  | succ n ih =>
    intro f h
    rw [llgetcIovec, ← head?_drop]
    have htail : f.vec.drop (f.cvec + 1) = (f.vec.drop f.cvec).tail := tail_drop.symm
    cases hv : f.vec.drop f.cvec with
    | nil => simp only [head?_nil, IovState.rest, hv]
    | cons iov vec =>
      rw [hv, tail_cons] at htail
      simp only [head?_cons]
      cases hc : iov[f.cidx]? with
      | none =>
        have hlen := getElem?_eq_none_iff.mp hc
        have hrest : f.rest = IovState.rest ⟨f.vec, f.cvec + 1, 0⟩ := by
          rw [rest_next, htail, IovState.rest, hv]
          simp only [drop_eq_nil_of_le hlen, nil_append]
        simp only [hrest]
        exact ih ⟨f.vec, f.cvec + 1, 0⟩ (by simp only; omega)
      | some c =>
        obtain ⟨hlt, heq⟩ := List.getElem?_eq_some_iff.mp hc
        simp only [IovState.rest, hv]
        rw [drop_eq_getElem_cons hlt, heq, cons_append]

/-- The vectors of an iovec are read one after the other. -/
theorem iovecText_eq (vec : List Text) : iovecText vec = vec.flatten := by
  have hread : ∀ (n : ℕ) (f : IovState), f.rest.length < n → readIovec n f = f.rest := by
    intro n
    induction n with
    | zero => intro f h; omega
    | succ n ih =>
      intro f h
      have hspec := llgetcIovec_spec (f.vec.length + 1) f (by omega)
      rw [readIovec]
      generalize llgetcIovec (f.vec.length + 1) f = r at hspec
      obtain ⟨o, f'⟩ := r
      cases o with
      | none => exact hspec.symm
      | some c =>
        have heq : f.rest = c :: f'.rest := hspec
        rw [heq] at h ⊢
        simp only [length_cons] at h ⊢
        rw [ih f' (by omega)]
  have hrest : IovState.rest ⟨vec, 0, 0⟩ = vec.flatten := rest_next vec 0
  rw [iovecText, hread _ _ (by rw [hrest]; omega), hrest]

/-! ### Sequences of texts -/

/-- A call of `apn_parse` or `apn_parse_iovec`, where the text of `i` does not count. -/
inductive Call where
  | file (i : Input)
  | iovec (i : Input) (vec : List Text)

/-- The call. -/
def Call.run (c : Call) (st : Statics) (rnd : Rand) : Option ParseResult :=
  match c with
  | .file i => apnParse i st rnd
  | .iovec i vec => apnParseIovec i vec st rnd

/-- What is parsed, as one text. -/
def Call.input : Call → Input
  | .file i => i
  | .iovec i vec => { i with text := vec.flatten }

theorem Call.run_eq (c : Call) (st : Statics) (rnd : Rand) : c.run st rnd = apnParse c.input st rnd := by
  cases c with
  | file i => rfl
  | iovec i vec => rw [Call.run, apnParseIovec, iovecText_eq, Call.input]

/-- One text after the other in one process. -/
def parseAll : List Call → Statics → Rand → Option (List ParseResult)
  | [], _, _ => some []
  | c :: calls, st, rnd => do
    let r ← c.run st rnd
    let rs ← parseAll calls r.statics r.rnd
    some (r :: rs)

/-- Before every call nothing but blanks is left of the texts before. -/
def Clean : List Call → Statics → Rand → Prop
  | [], _, _ => True
  | c :: calls, st, rnd => st.Blank ∧ ∀ r, c.run st rnd = some r → Clean calls r.statics r.rnd

/-- The rules that the text of an input says, if it is the only one; none if it is rejected. -/
def ownRules (i : Input) (k : Kind) : List Block :=
  if (parsed i Statics.init).accepts then (parsed i Statics.init).written i k else []

/-- Two results for the text of `i` agree: both accept or both reject, and both have the rules that the
    text says, up to IDs that were assigned. -/
structure Agree (i : Input) (r r' : ParseResult) : Prop where
  ret : r.ret = r'.ret
  left : ∀ k, AutoQueue (ownRules i k) (r.rs.queue k)
  right : ∀ k, AutoQueue (ownRules i k) (r'.rs.queue k)

theorem apnParse_ownRules {i : Input} {st : Statics} (hst : st.Blank) {rnd : Rand} {r : ParseResult}
    (h : apnParse i st rnd = some r) : r.ret = (if (parsed i Statics.init).accepts then 0 else 1) ∧
      ∀ k, AutoQueue (ownRules i k) (r.rs.queue k) := by
  obtain ⟨hacc, hwritten⟩ := parsed_blank i hst
  obtain ⟨hret, hqueues, hempty⟩ := apnParse_outcome h
  rw [hacc] at hret
  rw [hwritten] at hqueues
  refine ⟨hret, fun k => ?_⟩
  rw [ownRules]
  cases ha : (parsed i Statics.init).accepts with
  | true => exact hqueues (by rw [hret, ha]; rfl) k
  | false =>
    rw [hempty (by rw [hret, ha]; decide) k]
    exact List.Forall₂.nil

theorem init_blank : Statics.init.Blank := by
  intro d c hc
  cases d <;> cases hc

/-- As long as only blanks are left over, every text of a sequence is parsed as if it were the only one,
    from a file or from any iovec. -/
theorem parses_independent {calls : List Call} {st : Statics} {rnd rnd' : Rand}
    {rs : List ParseResult} {j : ℕ} {c c' : Call} {r r' : ParseResult} (hclean : Clean calls st rnd)
    (h : parseAll calls st rnd = some rs) (hc : calls[j]? = some c) (hr : rs[j]? = some r)
    (hin : c'.input = c.input) (hrun : c'.run Statics.init rnd' = some r') : Agree c.input r r' := by
  induction calls generalizing st rnd rs j with
  | nil => simp at hc
  | cons c₀ calls ih =>
    obtain ⟨r₀, h₀, h⟩ := Option.bind_eq_some_iff.mp h
    obtain ⟨rs', hrs, h⟩ := Option.bind_eq_some_iff.mp h
    obtain rfl := Option.some.inj h
    cases j with
    | zero =>
      obtain rfl := Option.some.inj hc
      obtain rfl := Option.some.inj hr
      rw [Call.run_eq] at h₀ hrun
      rw [hin] at hrun
      obtain ⟨h1, h2⟩ := apnParse_ownRules hclean.1 h₀
      obtain ⟨h3, h4⟩ := apnParse_ownRules init_blank hrun
      exact ⟨h1.trans h3.symm, h2, h4⟩
    | succ j => exact ih (hclean.2 r₀ h₀) hrs hc hr

/-- A rejected text that leaves a blank, and then a text in two vectors. -/
theorem parses_independent_split : ∃ rs r r',
    parseAll [.file (plain "5 "), .iovec (plain "") ["sfs".toList, " \x7b\n\x7d\n".toList]]
      Statics.init zeros = some rs ∧ rs[1]? = some r ∧
    (Call.file (plain "sfs \x7b\n\x7d\n")).run Statics.init zeros = some r' ∧
    Agree (plain "sfs \x7b\n\x7d\n") r r' := by
  have h1 : (parseAll [.file (plain "5 "), .iovec (plain "") ["sfs".toList, " \x7b\n\x7d\n".toList]]
      Statics.init zeros).map (·.map (·.ret)) = some [1, 0] := by decide +kernel
  have h2 : ((Call.file (plain "sfs \x7b\n\x7d\n")).run Statics.init zeros).isSome = true := by
    decide +kernel
  have h3 : ((Call.file (plain "5 ")).run Statics.init zeros).map (·.statics) = some ⟨[' '], []⟩ := by
    decide +kernel
  obtain ⟨rs, hrs, heq⟩ := Option.map_eq_some_iff.mp h1
  obtain ⟨r', hr'⟩ := Option.isSome_iff_exists.mp h2
  have hclean : Clean [.file (plain "5 "), .iovec (plain "") ["sfs".toList, " \x7b\n\x7d\n".toList]]
      Statics.init zeros := by
    refine ⟨init_blank, fun r₁ hr₁ => ⟨?_, fun _ _ => trivial⟩⟩
    have hst : r₁.statics = ⟨[' '], []⟩ := by simpa [hr₁] using h3
    intro d c hc
    rw [hst] at hc
    cases d with
    | current => rw [List.mem_singleton.mp hc]; rfl
    | v042 => cases hc
  match rs, heq with
  | [r₁, r], _ => exact ⟨_, r, r', hrs, rfl, hr', parses_independent (j := 1) hclean hrs rfl rfl rfl hr'⟩

/-- A comma that was pushed back makes the next text fail. -/
theorem comma_left_over : ∃ rs r r',
    parseAll [.file (plain "5,"), .file (plain "")] Statics.init zeros = some rs ∧ rs[1]? = some r ∧
      (Call.file (plain "")).run Statics.init zeros = some r' ∧ ¬ Agree (plain "") r r' := by
  have h1 : (parseAll [.file (plain "5,"), .file (plain "")] Statics.init zeros).map
      (·.map (·.ret)) = some [1, 1] := by decide +kernel
  have h2 : ((Call.file (plain "")).run Statics.init zeros).map (·.ret) = some 0 := by decide +kernel
  obtain ⟨rs, hrs, heq⟩ := Option.map_eq_some_iff.mp h1
  obtain ⟨r', hr', heq'⟩ := Option.map_eq_some_iff.mp h2
  match rs, heq with
  | [r₁, r], heq =>
    have hr : r.ret = 1 := by simpa using (List.cons.inj (List.cons.inj heq).2).1
    exact ⟨_, r, r', hrs, rfl, hr', fun h => by rw [Agree.ret h, heq'] at hr; cases hr⟩

end Anoubis.Apn

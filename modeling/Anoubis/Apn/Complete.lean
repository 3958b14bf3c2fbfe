import Anoubis.Apn.Blocks
import Anoubis.Apn.Outcome

/-! Accepted texts are complete.

    `apn_parse` accepts if no error was counted. Then the parser has derived the whole text and the
    queues hold its blocks, unless it stopped in one of the places that count no error: a block that
    is refused without one, a byte that reads as the end of the text, or two IDs that the index does
    not tell apart.

        counted errors = 0  -->  derivation of all tokens  -->  queues = blocks of the text     -/

namespace Anoubis.Apn

open Anoubis.Lib Anoubis.Lib.Syn List

/-! ### Queues and IDs of added blocks -/

variable {prints : Block → Bool} {rs rs' : Ruleset} {b : Block} {e : Env} {s s' : PState} {bs : List Block}
variable {i : Input} {st : Statics} {r : ParseResult}

theorem apnAddBlockCommon_added (h : apnAddBlockCommon prints rs b = .added rs') :
    b.explicit.Nodup ∧ (∀ id ∈ b.explicit, apnValidId rs.idtree id = true) ∧
      rs' = { rs with
        idtree := (insertIds ⟨rs.idtree, rs.maxid, ⟨fun _ => 0, 0⟩⟩ b).idtree
        maxid := (insertIds ⟨rs.idtree, rs.maxid, ⟨fun _ => 0, 0⟩⟩ b).maxid }.setQueue b.kind
        (rs.queue b.kind ++ [b]) := by
  rw [apnAddBlockCommon] at h
  split at h
  · cases h
  · rename_i hdup
    split at h
    · cases h
    · rename_i hvalid
      simp only at h
      split at h
      · cases h
      · refine ⟨?_, ?_, ?_⟩
        · simpa [apnDuplicateIds, Block.explicit, nonzero] using hdup
        · intro id hid
          rw [Block.explicit, nonzero, mem_filter] at hid
          by_contra hne
          refine hvalid (any_eq_true.mpr ⟨id, hid.1, ?_⟩)
          simp [show ¬ id = 0 by simpa using hid.2, Bool.eq_false_iff.mpr hne]
        · have heq := AddResult.added.inj h
          rw [← heq]
          cases b.kind <;> rfl

@[simp] theorem queue_setQueue_self (rs : Ruleset) (k : Kind) (q : List Block) : (rs.setQueue k q).queue k = q := by
  cases k <;> rfl

theorem queue_setQueue_of_ne (rs : Ruleset) {k k' : Kind} (h : k' ≠ k) (q : List Block) :
    (rs.setQueue k q).queue k' = rs.queue k' := by
  cases k <;> cases k' <;> first | rfl | exact absurd rfl h

/-- A block goes to the end of the queue of its kind. -/
theorem apnAddBlockCommon_queue (h : apnAddBlockCommon prints rs b = .added rs') (k : Kind) :
    rs'.queue k = rs.queue k ++ [b].filter (fun b => b.kind = k) := by
  obtain ⟨-, -, heq⟩ := apnAddBlockCommon_added h
  rw [heq]
  by_cases hk : k = b.kind
  · subst hk
    simp
  · rw [queue_setQueue_of_ne _ hk]
    have hne : ¬ b.kind = k := fun h => hk h.symm
    simp only [hne, filter_cons, decide_false, Bool.false_eq_true, if_false, filter_nil, append_nil]
    cases k <;> rfl

/-- A block that cannot be printed is refused after its IDs have been entered. -/
theorem apnAddBlockCommon_unprintable (h : apnAddBlockCommon prints rs b = .unprintable rs') :
    rs.flags &&& flagVerbose ≠ 0 ∧ ∀ k, rs'.queue k = rs.queue k := by
  rw [apnAddBlockCommon] at h
  split at h
  · cases h
  · split at h
    · cases h
    · simp only at h
      split at h
      · rename_i hc
        rw [← AddResult.unprintable.inj h]
        exact ⟨hc.1, fun k => by cases k <;> rfl⟩
      · cases h

theorem Added.queue (h : Added e s b s') (k : Kind) :
    s'.rs.queue k = s.rs.queue k ++ [b].filter (fun b => b.kind = k) :=
  apnAddBlockCommon_queue h.added k

theorem Adds.queue (h : Adds e s bs s') (k : Kind) :
    s'.rs.queue k = s.rs.queue k ++ bs.filter (fun b => b.kind = k) := by
  induction h with
  | nil s => simp
  | cons hb _ ih =>
    rw [ih, hb.queue, append_assoc, ← filter_append]
    rfl

variable {x : ℕ} {ts pre : List Tok} {d : Dialect} {t : Tok}

theorem mem_keys_rbInsertEntry {root : List IdEntry} {n : IdEntry} :
    x ∈ (rbInsertEntry root n).map (·.key) ↔ x = n.key ∨ x ∈ root.map (·.key) := by
  rw [rbInsertEntry]
  split
  · rename_i h
    have hmem : n.key ∈ root.map (·.key) := by
      by_contra hne
      rw [← rbFind_eq_none_iff] at hne
      simp [hne] at h
    constructor
    · exact .inr
    · rintro (rfl | h)
      · exact hmem
      · exact h
  · simp

/-- What entering one explicit ID keeps. -/
theorem insertIds_keeps {P : Index → Prop}
    (hstep : ∀ (ix : Index) (e : IdEntry), e.key ∈ b.explicit → P ix → P (apnInsertId ix e.key e.data))
    {ix : Index} (h : P ix) : P (insertIds ix b) := by
  rw [insertIds]
  refine List.foldlRecOn _ _ h fun ix hix e he => ?_
  split
  · rename_i h0
    refine hstep ix e (mem_filter.mpr ⟨?_, by simpa using h0⟩) hix
    have hkeys := mem_map_of_mem (f := IdEntry.key) he
    rw [map_cons, map_map] at hkeys
    exact hkeys
  · exact hix

/-- Every explicit ID is in the index afterwards. -/
theorem mem_keys_insertIds (b : Block) (ix : Index) :
    x ∈ (insertIds ix b).idtree.map (·.key) ↔ x ∈ b.explicit ∨ x ∈ ix.idtree.map (·.key) := by
  have hfold : ∀ (es : List IdEntry) (ix : Index),
      x ∈ (es.foldl (fun ix e => if e.key ≠ 0 then apnInsertId ix e.key e.data else ix)
        ix).idtree.map (·.key) ↔ x ∈ nonzero (es.map (·.key)) ∨ x ∈ ix.idtree.map (·.key) := by
    intro es
    induction es with
    | nil => intro ix; simp [nonzero]
    | cons e es ih =>
      intro ix
      rw [foldl_cons, ih]
      by_cases h0 : e.key = 0
      · simp [nonzero, h0]
      · rw [if_pos h0, apnInsertId, mem_keys_rbInsertEntry]
        simp only [nonzero, map_cons, filter_cons, h0, ne_eq, not_false_eq_true, decide_true, if_true, mem_cons]
        tauto
  rw [insertIds, hfold, Block.explicit, map_cons, map_map]
  rfl

theorem Added.keys (h : Added e s b s') :
    x ∈ s'.rs.idtree.map (·.key) ↔ x ∈ b.explicit ∨ x ∈ s.rs.idtree.map (·.key) := by
  obtain ⟨-, -, heq⟩ := apnAddBlockCommon_added h.added
  rw [heq]
  have hix := mem_keys_insertIds b ⟨s.rs.idtree, s.rs.maxid, ⟨fun _ => 0, 0⟩⟩ (x := x)
  cases b.kind <;> exact hix

/-- IDs of 32 bit are not given twice; of larger ones only their distinctness is left to show. -/
theorem Adds.nodup (h : Adds e s bs s') : ((bs.flatMap Block.explicit).filter (fun id => uintMod ≤ id)).Nodup →
      (bs.flatMap Block.explicit).Nodup ∧
        ∀ x ∈ bs.flatMap Block.explicit, x < uintMod → x ∉ s.rs.idtree.map (·.key) := by
  induction h with
  | nil s => intro _; simp
  | @cons s s₁ s₂ b bs hb _ ih =>
    intro hlarge
    rw [flatMap_cons, filter_append] at hlarge
    obtain ⟨hnd, hold⟩ := ih (nodup_append.mp hlarge).2.1
    obtain ⟨hbnd, hbvalid, -⟩ := apnAddBlockCommon_added hb.added
    rw [flatMap_cons]
    constructor
    · refine nodup_append.mpr ⟨hbnd, hnd, ?_⟩
      rintro x hx y hy rfl
      rcases lt_or_ge x uintMod with hlt | hge
      · exact hold x hy hlt (hb.keys.mpr (.inl hx))
      · refine (nodup_append.mp hlarge).2.2 x ?_ x ?_ rfl
        · exact mem_filter.mpr ⟨hx, by simpa using hge⟩
        · exact mem_filter.mpr ⟨hy, by simpa using hge⟩
    · intro x hx hlt
      rcases mem_append.mp hx with hx | hx
      · have hfree := hbvalid x hx
        rw [apnValidId, Nat.mod_eq_of_lt hlt, Option.isNone_iff_eq_none, rbFind_eq_none_iff] at hfree
        exact hfree
      · exact fun hmem => hold x hx hlt (hb.keys.mpr (.inr hmem))

/-! ### The end of the text -/

/-- A policy ends with the end of the text. -/
theorem derives_policy_last (h : (policy e).derives s ts bs s') :
    ∃ pre t, ts = pre ++ [t] ∧ t.isEof = true ∧ lexErrors e.d t = [] := by
  obtain ⟨ts₁, _, u₁, s₁, rfl, -, ⟨ts₂, _, u₂, s₂, rfl, -, ⟨ts₃, _, bss, s₃, rfl, -,
    ⟨ts₄, ts₅, u₄, s₄, rfl, hend, ⟨rfl, -, -⟩⟩⟩⟩⟩ := h
  obtain ⟨ts₆, ts₇, t, s₅, rfl, ⟨-, u, rfl, hu⟩, ⟨rfl, -, herr⟩⟩ := hend
  dsimp only at hu
  split at hu
  · rename_i hu'
    obtain rfl := Option.some.inj hu
    exact ⟨ts₁ ++ (ts₂ ++ ts₃), u, by simp, hu', by simpa using herr⟩
  · cases hu

/-! ### Complete texts -/

/-- The state in which the parser begins. -/
def start (flags : ℕ) : PState := ⟨emptyRuleset flags, 0⟩

/-- The text with what was pushed back before, as the lexer of the grammar that counts sees it. -/
def lexInput (i : Input) (st : Statics) : LexState := ⟨st.get (decides i st), i.text⟩

/-- The tokens of the grammar that counts. -/
def inputTokens (i : Input) (st : Statics) : List Tok := tokens (decides i st) (lexInput i st)

/-- The environment of the grammar that counts. -/
def inputEnv (i : Input) (st : Statics) : Env := i.env (decides i st)

/-- The blocks of a text in the queue of their kind, with an empty SFS block if there is none. -/
def blocksOf (i : Input) (bs : List Block) (next : ℕ) (k : Kind) : List Block :=
  if k = .sfs ∧ bs.filter (fun b => b.kind = .sfs) = [] then [emptySfs (i.addr next)]
  else bs.filter (fun b => b.kind = k)

/-- The whole text has been derived by the grammar, no explicit ID occurs twice, and the queues hold
    the blocks of the text in their order, with IDs for those rules that had none. -/
structure Complete (i : Input) (st : Statics) (r : ParseResult) (bs : List Block) (s : PState) :
    Prop where
  run : (policy (inputEnv i st)).run (start i.flags) (inputTokens i st) = .ok bs s [] []
  derived : (policy (inputEnv i st)).derives (start i.flags) (inputTokens i st) bs s
  whole : (lexText (decides i st) (lexInput i st)).getLast? = some (.eof .endOfInput, ⟨[], []⟩)
  distinct : (bs.flatMap Block.explicit).Nodup
  queues : ∀ k, AutoQueue (blocksOf i bs s.next k) (r.rs.queue k)

/-- An action of the grammar has stopped the parser (YYERROR) and no error was counted. -/
def stopsSilently (i : Input) (st : Statics) : Bool :=
  ((policy (inputEnv i st)).run (start i.flags) (inputTokens i st)).silent

/-- None of the places that count no error was reached: no block was refused silently, no byte was
    taken for the end of the text, and no ID beyond 32 bit occurs twice. -/
structure Loud (i : Input) (st : Statics) : Prop where
  refused : stopsSilently i st = false
  ended : (inputTokens i st).getLast? ≠ some (.eof .byte)
  large : ((ids (inputTokens i st)).filter (fun id => uintMod ≤ id)).Nodup

/-- A derivation from the start adds the blocks of the text. -/
theorem derives_adds {flags : ℕ} {toks : List Tok} (hT : Scanned toks)
    (h : (policy e).derives (start flags) toks bs s) :
    ∃ v, Adds e ((start flags).withVersion v) bs s ∧ nonzero (ids toks) = bs.flatMap Block.explicit := by
  have hstart : PolicyRead e (start flags) [] (start flags) [] :=
    ⟨(start flags).rs.version, Adds.nil _, rfl⟩
  obtain ⟨v, hr⟩ := (holds_policy e (start flags)).ok hT hstart h
  exact ⟨v, hr.adds, by simpa [nonzero] using hr.ids⟩

theorem filter_large_ids (toks : List Tok) : (nonzero (ids toks)).filter (fun id => uintMod ≤ id) =
    (ids toks).filter (fun id => uintMod ≤ id) := by
  rw [nonzero, filter_filter]
  refine filter_congr (fun x _ => ?_)
  have h0 : 0 < uintMod := by decide
  by_cases hx : uintMod ≤ x
  · simp [hx, show ¬ x = 0 by omega]
  · simp [hx]

/-- A run that reads an end of the text reads all tokens. -/
theorem rest_eq_nil {s : LexState} {rest : List Tok} (h : tokens d s = ts ++ rest) (hts : ts = pre ++ [t])
    (ht : t.isEof = true) : rest = [] := by
  obtain ⟨pre', t', heq, -, hpre⟩ := tokens_last d s
  rcases eq_nil_or_concat rest with hr | ⟨r, u, rfl⟩
  · exact hr
  · rw [heq, hts, concat_eq_append, ← append_assoc] at h
    have hinit := (append_inj' h rfl).1
    have := hpre t (by rw [hinit]; simp)
    rw [ht] at this
    cases this

/-- The end of the text, if it is no byte, is the end of the input. -/
theorem whole_of_ended {s : LexState} (h : tokens d s = pre ++ [t]) (ht : t.isEof = true)
    (herr : lexErrors d t = []) (hbyte : (tokens d s).getLast? ≠ some (.eof .byte)) :
    (lexText d s).getLast? = some (.eof .endOfInput, ⟨[], []⟩) := by
  have hend : t = .eof .endOfInput := by
    rw [h, getLast?_concat] at hbyte
    cases t with
    | eof e =>
      cases e with
      | endOfInput => rfl
      | inString => cases herr
      | byte => exact absurd rfl hbyte
    | _ => cases ht
  have hlast : ∀ x, (lexText d s).getLast? = some x → x.1 = .eof .endOfInput → x.2 = ⟨[], []⟩ := by
    refine lexText_induction d (P := fun _ l => ∀ x, l.getLast? = some x →
      x.1 = .eof .endOfInput → x.2 = ⟨[], []⟩) (fun s _ => ?_) (fun s _ ih => ?_) s
    · intro x hx hx1
      rw [getLast?_singleton, Option.some.injEq] at hx
      rw [← hx] at hx1 ⊢
      exact yylex_end hx1
    · intro x hx hx1
      rw [getLast?_cons] at hx
      cases hl : (lexText d (yylex d s).2).getLast? with
      | none =>
        rw [hl, Option.getD_none, Option.some.injEq] at hx
        rw [← hx] at hx1 ⊢
        exact yylex_end hx1
      | some y =>
        rw [hl, Option.getD_some, Option.some.injEq] at hx
        exact ih x (by rw [hl, hx]) hx1
  have hmap : (lexText d s).getLast?.map (·.1) = some (.eof .endOfInput) := by
    rw [← getLast?_map, ← tokens, h, getLast?_concat, hend]
  obtain ⟨x, hx, hx1⟩ := Option.map_eq_some_iff.mp hmap
  rw [hx, ← hlast x hx hx1, ← hx1]

theorem run_of_parsed (herrs : (parsed i st).errs = []) :
    (∃ bs s rest, (policy (inputEnv i st)).run (start i.flags) (inputTokens i st) = .ok bs s rest [] ∧
      (parsed i st).rs = s.rs ∧ (parsed i st).next = s.next) ∨
    ∃ s unread, (policy (inputEnv i st)).run (start i.flags) (inputTokens i st) = .fail s unread [] ∧
      (parsed i st).rs = s.rs ∧ (parsed i st).next = s.next := by
  cases hrun : (policy (inputEnv i st)).run (start i.flags) (inputTokens i st) with
  | ok bs s rest errs =>
    rw [inputEnv, start, inputTokens, lexInput, tokens, Input.env] at hrun
    simp only [parsed, yyparse, Input.env, hrun] at herrs ⊢
    exact .inl ⟨bs, s, rest, by rw [herrs], rfl, rfl⟩
  | fail s unread errs =>
    rw [inputEnv, start, inputTokens, lexInput, tokens, Input.env] at hrun
    simp only [parsed, yyparse, Input.env, hrun] at herrs ⊢
    exact .inr ⟨s, unread, by rw [herrs], rfl, rfl⟩

/-- An accepted text had no counted errors. -/
theorem Outcome.no_errors {p : Parsed} (h : Outcome i p r) (hr : r.ret = 0) : p.errs = [] := by
  have hret := h.ret
  rw [hr] at hret
  have hacc : p.accepts = true := by
    by_contra hne
    simp [hne] at hret
  rw [Parsed.accepts, Bool.and_eq_true] at hacc
  simpa using hacc.1

/-- A text that the parser has read without an error is complete, if nothing happened silently. -/
theorem complete_of_loud (h : Outcome i (parsed i st) r) (hr : r.ret = 0) (hl : Loud i st) :
    ∃ bs s, Complete i st r bs s := by
  have herrs := h.no_errors hr
  rcases run_of_parsed herrs with ⟨bs, s, rest, hrun, hrs, hnext⟩ | ⟨s, unread, hrun, -⟩
  case inr =>
    have hsilent := hl.refused
    rw [stopsSilently, hrun] at hsilent
    cases hsilent
  case inl =>
    obtain ⟨ts, hts, hd⟩ := Syn.sound _ hrun
    obtain ⟨pre, t, heq, ht, hlex⟩ := derives_policy_last hd
    obtain rfl := rest_eq_nil hts heq ht
    rw [append_nil] at hts
    rw [← hts] at hd heq
    obtain ⟨v, hadds, hids⟩ := derives_adds (tokens_scanned _ _) hd
    have hlarge : ((bs.flatMap Block.explicit).filter (fun id => uintMod ≤ id)).Nodup := by
      rw [← hids, filter_large_ids]
      exact hl.large
    have hqueue : ∀ k, s.rs.queue k = bs.filter (fun b => b.kind = k) := by
      intro k
      rw [hadds.queue k]
      cases k <;> rfl
    refine ⟨bs, s, hrun, hd, whole_of_ended heq ht hlex hl.ended, (hadds.nodup hlarge).1, fun k => ?_⟩
    have hqk := h.queues hr k
    rw [Parsed.written, hrs, hnext] at hqk
    rw [blocksOf, ← hqueue k, ← hqueue .sfs]
    exact hqk

/-- A complete text has not gone through any of the silent places. -/
theorem Complete.loud (h : Complete i st r bs s) : Loud i st where
  refused := by
    rw [stopsSilently, h.run]
    rfl
  ended := by
    have hmap : (inputTokens i st).getLast? = some (.eof .endOfInput) := by
      rw [inputTokens, tokens, getLast?_map, h.whole]
      rfl
    rw [hmap]
    simp
  large := by
    obtain ⟨v, -, hids⟩ := derives_adds (tokens_scanned _ _) h.derived
    have hlarge := h.distinct.filter (fun id => uintMod ≤ id)
    rw [← hids, filter_large_ids] at hlarge
    exact hlarge

/-- A sandbox block with an ID. -/
def sandboxText : String := "sb \x7b\n7: any \x7b\ndefault deny\n\x7d\n\x7d\n"

/-- A 0.42 policy with an SFS module that uses an ID twice, and a sandbox module behind it. -/
def droppedText : String :=
  "apnversion 0.42\ntrillian \x7b\n5: default any allow\n5: default any deny\n\x7d\n" ++
    "ford \x7b\nany \x7b\ndefault deny\n\x7d\n\x7d\n"

end Anoubis.Apn

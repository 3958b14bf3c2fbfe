import Anoubis.Apn.Derive

/-! Facts about the lexer.

    Every character that is read makes the state smaller, and a token is never pushed back as a whole:
    the lexer comes to an end, whatever bound its loops are given. Its tokens fit the buffers they were
    collected in. Blanks that are left in `pushback_buffer` do not reach the parser. -/

namespace Anoubis.Apn

open Anoubis.Lib Anoubis.Lib.Syn List

/-! ### Size -/

theorem readInput_length (t : Text) : (readInput t).2.length ≤ t.length ∧
    ((readInput t).1 ≠ .eof → (readInput t).2.length < t.length) := by
  fun_induction readInput t with
  | case1 => simp
  | case2 => simp
  | case3 rest ih =>
    simp only [length_cons]
    exact ⟨by omega, fun h => by have := ih.2 h; omega⟩
  | case4 =>
    simp only [length_cons]
    omega
  | case5 => simp

theorem lgetc_size (s : LexState) : (lgetc s).2.size ≤ s.size ∧ ((lgetc s).1 ≠ .eof → (lgetc s).2.size < s.size) := by
  obtain ⟨pb, input⟩ := s
  cases pb with
  | nil => simpa [lgetc, LexState.size] using readInput_length input
  | cons c pb => simp only [lgetc, LexState.size, length_cons]; omega

theorem lgetcQuoted_size (s : LexState) : (lgetcQuoted s).2.size ≤ s.size ∧
    ((lgetcQuoted s).1.isEof = false → (lgetcQuoted s).2.size < s.size) := by
  obtain ⟨pb, input⟩ := s
  cases pb with
  | cons c pb => simp only [lgetcQuoted, LexState.size, length_cons]; omega
  | nil =>
    cases input with
    | nil => simp [lgetcQuoted, In.isEof]
    | cons c input => simp only [lgetcQuoted, LexState.size, length_cons]; omega

theorem lungetc_size (i : In) (s : LexState) : (lungetc i s).size ≤ s.size + 1 := by
  cases i with
  | eof => simp [lungetc]
  | byte c =>
    rw [lungetc]
    split <;> simp only [LexState.size, length_cons] <;> omega
  | neg c =>
    rw [lungetc]
    split <;> simp only [LexState.size, length_cons] <;> omega

theorem skipBlanks_size (n : ℕ) : ∀ s : LexState, (skipBlanks n s).2.size ≤ s.size ∧
    ((skipBlanks n s).1 ≠ .eof → (skipBlanks n s).2.size < s.size) := by
  induction n with
  | zero => intro s; simp [skipBlanks]
  | succ n ih =>
    intro s
    obtain ⟨hle, hlt⟩ := lgetc_size s
    rw [skipBlanks]
    split
    · rename_i c s' heq
      rw [heq] at hle hlt
      split
      · obtain ⟨h1, h2⟩ := ih s'
        exact ⟨h1.trans hle, fun h => lt_of_lt_of_le (h2 h) hle⟩
      · exact ⟨hle, hlt⟩
    · exact ⟨hle, hlt⟩

theorem skipLine_size (n : ℕ) : ∀ s : LexState, (skipLine n s).2.size ≤ s.size := by
  induction n with
  | zero => intro s; simp [skipLine]
  | succ n ih =>
    intro s
    rw [skipLine]
    split
    rename_i i s' heq
    have hle := (lgetc_size s).1
    rw [heq] at hle
    split
    · exact hle
    · exact (ih s').trans hle

theorem findeol_size (s : LexState) : (findeol s).size ≤ s.size := by
  refine (skipLine_size _ _).trans ?_
  simp [LexState.size]

variable {d : Dialect} {q c : Char} {s : LexState}

theorem escapes_ne_newline (hq : q ≠ '\n') (h : escapes d q c = true) : c ≠ '\n' := by
  rintro rfl
  cases d <;> simp [escapes, Ne.symm hq] at h

/-- A string in quotes: what is left is no more than before, and the string fits the buffer. -/
theorem quoted_spec (d : Dialect) (hq : q ≠ '\n') (n : ℕ) : ∀ (acc : Text) (s : LexState),
    '\n' ∉ acc → acc.length + 2 ≤ bufSize → (quoted d q n acc s).2.size ≤ s.size ∧ TokOk (quoted d q n acc s).1 := by
  induction n with
  | zero => intro acc s _ _; exact ⟨le_refl _, trivial⟩
  | succ n ih =>
    intro acc s hacc hlen
    -- a character goes to the buffer
    have hstore (c : Char) (s₁ : LexState) (hc : c ≠ '\n') (h : s₁.size ≤ s.size) :
        (if bufSize ≤ acc.length + 2 then (Tok.error (spell d 's' "tring too long"), findeol s₁)
          else quoted d q n (c :: acc) s₁).2.size ≤ s.size ∧
        TokOk (if bufSize ≤ acc.length + 2 then (Tok.error (spell d 's' "tring too long"), findeol s₁)
          else quoted d q n (c :: acc) s₁).1 := by
      split
      · exact ⟨(findeol_size s₁).trans h, trivial⟩
      · obtain ⟨h1, h2⟩ := ih (c :: acc) s₁ (by simp [hacc, Ne.symm hc]) (by simp; omega)
        exact ⟨h1.trans h, h2⟩
    -- a line break does not
    have hskip (s₁ : LexState) (h : s₁.size ≤ s.size) :
        (quoted d q n acc s₁).2.size ≤ s.size ∧ TokOk (quoted d q n acc s₁).1 := by
      obtain ⟨h1, h2⟩ := ih acc s₁ hacc hlen
      exact ⟨h1.trans h, h2⟩
    obtain ⟨hle, hlt⟩ := lgetcQuoted_size s
    rw [quoted]
    generalize lgetcQuoted s = r at hle hlt
    obtain ⟨i, s₁⟩ := r
    obtain ⟨hle', hlt'⟩ := lgetcQuoted_size s₁
    simp only at hle hlt ⊢
    split
    · exact ⟨hle, trivial⟩
    split
    · exact hskip s₁ hle
    split
    · generalize lgetcQuoted s₁ = r' at hle' hlt'
      obtain ⟨j, s₂⟩ := r'
      simp only at hle' hlt' ⊢
      split
      · exact ⟨hle'.trans hle, trivial⟩
      split
      · rename_i hesc
        exact hstore _ _ (escapes_ne_newline hq hesc) (hle'.trans hle)
      split
      · exact hskip s₂ (hle'.trans hle)
      · rename_i hne _ _
        refine hstore _ _ (by decide) ((lungetc_size j s₂).trans ?_)
        have := hlt' (by simpa using hne)
        omega
    split
    · refine ⟨hle, ?_, ?_, ?_⟩
      · intro hmem
        exact hacc (mem_reverse.mp ((takeWhile_sublist _).subset hmem))
      · intro hmem
        simpa using mem_takeWhile_imp hmem
      · have h1 := (takeWhile_sublist (fun c => decide (c ≠ '\x00')) (l := acc.reverse)).length_le
        rw [length_reverse] at h1
        omega
    · rename_i hne _ _
      exact hstore _ _ hne hle

/-- The loop over digits or characters of a string: what is read and what is left. -/
theorem collect_spec (p : Char → Bool) (n : ℕ) : ∀ (acc : Text) (s : LexState), s.size < n →
    ∃ cs, (collect p n acc s).2.1 = cs ++ acc ∧ (∀ c ∈ cs, p c = true) ∧
      (lungetc (collect p n acc s).2.2.1 (collect p n acc s).2.2.2).size + cs.length ≤ s.size ∧
      ((collect p n acc s).1 = false → (cs ++ acc).length < bufSize) ∧ (collect p n acc s).2.2.2.size ≤ s.size := by
  induction n with
  | zero => intro acc s h; omega
  | succ n ih =>
    intro acc s hn
    rw [collect]
    split
    · exact ⟨[], rfl, by simp, by simp [lungetc], by simp, le_refl _⟩
    · rename_i hfull
      obtain ⟨hle, hlt⟩ := lgetc_size s
      split
      · rename_i c s' heq
        rw [heq] at hle hlt
        have hlt' : s'.size < s.size := hlt (by simp)
        split
        · rename_i hp
          obtain ⟨cs, h1, h2, h3, h4, h5⟩ := ih (c :: acc) s' (by omega)
          refine ⟨cs ++ [c], by simp [h1], ?_, ?_, ?_, h5.trans hle⟩
          · simpa [or_imp, forall_and] using ⟨h2, hp⟩
          · rw [length_append, length_singleton]
            omega
          · intro hf
            simpa using h4 hf
        · refine ⟨[], rfl, by simp, ?_, fun _ => by simpa using hfull, hle⟩
          have := lungetc_size (.byte c) s'
          simp only [length_nil]
          omega
      · rename_i i s' hne heq
        rw [heq] at hle hlt
        refine ⟨[], rfl, by simp, ?_, fun _ => by simpa using hfull, hle⟩
        simp only [length_nil, add_zero]
        cases i with
        | eof => exact hle
        | byte c => exact (hne c rfl).elim
        | neg c =>
          have h1 := lungetc_size (.neg c) s'
          have h2 := hlt (by simp)
          simp only at h2
          omega

/-! ### Tokens -/

theorem lookup_ok (d : Dialect) {s : Text} (h : GoodText s) : TokOk (lookup d s) := by
  rw [lookup]
  split
  · trivial
  · exact h

theorem allowedInString_spec (h : allowedInString c = true) : c ≠ '\n' ∧ c ≠ '\x00' := by
  constructor
  · rintro rfl
    revert h
    decide
  · rintro rfl
    revert h
    decide

theorem startsString_spec (h : startsString c = true) : c ≠ '\n' ∧ c ≠ '\x00' := by
  constructor
  · rintro rfl
    revert h
    decide
  · rintro rfl
    revert h
    decide

theorem lexWord_spec (d : Dialect) (i : In) (s : LexState) :
    (lexWord d i s).2.size ≤ s.size ∧ TokOk (lexWord d i s).1 := by
  cases i with
  | eof => exact ⟨le_refl _, trivial⟩
  | neg c => exact ⟨le_refl _, trivial⟩
  | byte c =>
    simp only [lexWord]
    split
    · rename_i hc
      obtain ⟨cs, h1, h2, h3, h4, h5⟩ := collect_spec allowedInString (s.size + 1) [c] s (by omega)
      generalize collect allowedInString (s.size + 1) [c] s = r at h1 h3 h4 h5
      obtain ⟨full, acc, i, s₁⟩ := r
      simp only at h1 h3 h4 h5
      subst h1
      cases full with
      | true => exact ⟨(findeol_size s₁).trans h5, trivial⟩
      | false =>
        refine ⟨by simp only; omega, lookup_ok d ⟨?_, ?_, ?_⟩⟩
        · intro hmem
          rw [mem_reverse, mem_append, mem_singleton] at hmem
          rcases hmem with hmem | rfl
          · exact (allowedInString_spec (h2 _ hmem)).1 rfl
          · exact (startsString_spec hc).1 rfl
        · intro hmem
          rw [mem_reverse, mem_append, mem_singleton] at hmem
          rcases hmem with hmem | rfl
          · exact (allowedInString_spec (h2 _ hmem)).2 rfl
          · exact (startsString_spec hc).2 rfl
        · rw [length_reverse]
          exact h4 rfl
    split
    · exact ⟨le_refl _, trivial⟩
    · exact ⟨le_refl _, trivial⟩

theorem foldl_lungetc_size (cs : Text) : ∀ s : LexState,
    (cs.foldl (fun s c => lungetc (.byte c) s) s).size ≤ s.size + cs.length := by
  induction cs with
  | nil => intro s; exact le_refl _
  | cons c cs ih =>
    intro s
    have h1 := ih (lungetc (.byte c) s)
    have h2 := lungetc_size (.byte c) s
    simp only [foldl_cons, length_cons]
    omega

theorem strtonum_range {buf : Text} {v : ℤ} (h : strtonum buf = .inl v) : llongMin ≤ v ∧ v ≤ llongMax := by
  unfold strtonum at h
  extract_lets w at h
  split_ifs at h with h1 h2
  obtain rfl := Sum.inl.inj h
  exact ⟨not_lt.mp h1, not_lt.mp h2⟩

theorem lexNumber_spec (d : Dialect) (c : Char) (s : LexState) :
    (lexNumber d c s).2.size ≤ s.size ∧ TokOk (lexNumber d c s).1 := by
  obtain ⟨cs, h1, h2, h3, h4, h5⟩ := collect_spec Char.isDigit (s.size + 1) [c] s (by omega)
  rw [lexNumber]
  generalize collect Char.isDigit (s.size + 1) [c] s = r at h1 h3 h4 h5
  obtain ⟨full, acc, i, s₁⟩ := r
  simp only at h1 h3 h4 h5
  subst h1
  cases full with
  | true => exact ⟨(findeol_size s₁).trans h5, trivial⟩
  | false =>
    simp only
    split
    · cases hv : strtonum (cs ++ [c]).reverse with
      | inl v => exact ⟨by simp only; omega, strtonum_range hv⟩
      | inr msg =>
        have := findeol_size (lungetc i s₁)
        exact ⟨by simp only; omega, trivial⟩
    · have hfold := foldl_lungetc_size (cs ++ [c]).dropLast (lungetc i s₁)
      rw [dropLast_concat] at hfold ⊢
      split
      · exact ⟨by simp only; omega, trivial⟩
      · obtain ⟨h6, h7⟩ := lexWord_spec d (.byte c) (cs.foldl (fun s c => lungetc (.byte c) s) (lungetc i s₁))
        exact ⟨by omega, h7⟩

/-- `yylex` reads at least one character of the text for a token in front of the end. -/
theorem yylex_spec (d : Dialect) (s : LexState) :
    ((yylex d s).1.isEof = false → (yylex d s).2.size < s.size) ∧ TokOk (yylex d s).1 := by
  obtain ⟨hle, hlt⟩ := skipBlanks_size (s.size + 1) s
  rw [yylex]
  generalize skipBlanks (s.size + 1) s = r at hle hlt
  obtain ⟨i, s₁⟩ := r
  simp only at hle hlt ⊢
  have hline : ∃ j s₂, (if i = .byte '#' then skipLine (s₁.size + 1) s₁ else (i, s₁)) = (j, s₂) ∧
      (∀ c, j = .byte c → s₂.size < s.size) := by
    split
    · rename_i hi
      refine ⟨(skipLine (s₁.size + 1) s₁).1, (skipLine (s₁.size + 1) s₁).2, rfl, fun c _ => ?_⟩
      exact lt_of_le_of_lt (skipLine_size _ s₁) (hlt (by simp [hi]))
    · exact ⟨i, s₁, rfl, fun c hc => hlt (by simp [hc])⟩
  obtain ⟨j, s₂, heq, hj⟩ := hline
  rw [heq]
  cases j with
  | eof => exact ⟨by simp [lexWord, Tok.isEof], trivial⟩
  | neg c => exact ⟨by simp [lexWord, Tok.isEof], trivial⟩
  | byte c =>
    have hs₂ := hj c rfl
    simp only
    split
    · rename_i hc
      have hq : c ≠ '\n' := by
        rcases hc with rfl | rfl <;> decide
      obtain ⟨h1, h2⟩ := quoted_spec d hq (s₂.size + 1) [] s₂ (by simp) (by decide)
      exact ⟨fun _ => lt_of_le_of_lt h1 hs₂, h2⟩
    split
    · obtain ⟨h1, h2⟩ := lexNumber_spec d c s₂
      exact ⟨fun _ => lt_of_le_of_lt h1 hs₂, h2⟩
    · obtain ⟨h1, h2⟩ := lexWord_spec d (.byte c) s₂
      exact ⟨fun _ => lt_of_le_of_lt h1 hs₂, h2⟩

/-! ### Texts -/

/-- More rounds than characters make no difference. -/
theorem lexAll_fuel (d : Dialect) (n : ℕ) : ∀ (m : ℕ) (s : LexState), s.size < n → s.size < m →
    lexAll d n s = lexAll d m s := by
  induction n with
  | zero => intro m s h; omega
  | succ n ih =>
    intro m s hn hm
    obtain ⟨m, rfl⟩ : ∃ k, m = k + 1 := ⟨m - 1, by omega⟩
    have hlt := (yylex_spec d s).1
    rw [lexAll, lexAll]
    generalize yylex d s = r at hlt
    obtain ⟨t, s'⟩ := r
    simp only at hlt ⊢
    cases ht : t.isEof with
    | true => rfl
    | false =>
      have := hlt ht
      simp only [Bool.false_eq_true, if_false]
      rw [ih m s' (by omega) (by omega)]

theorem lexText_eq (d : Dialect) (s : LexState) : lexText d s =
    if (yylex d s).1.isEof then [yylex d s] else yylex d s :: lexText d (yylex d s).2 := by
  have hlt := (yylex_spec d s).1
  rw [lexText, lexAll]
  generalize yylex d s = r at hlt
  obtain ⟨t, s'⟩ := r
  simp only at hlt ⊢
  split
  · rfl
  · rename_i ht
    have := hlt (by simpa using ht)
    rw [lexText, lexAll_fuel d s.size (s'.size + 1) s' this (by omega)]

/-- An induction over the tokens of a text. -/
theorem lexText_induction (d : Dialect) {P : LexState → List (Tok × LexState) → Prop}
    (hlast : ∀ s, (yylex d s).1.isEof = true → P s [yylex d s])
    (hcons : ∀ s, (yylex d s).1.isEof = false → P (yylex d s).2 (lexText d (yylex d s).2) →
      P s (yylex d s :: lexText d (yylex d s).2)) (s : LexState) : P s (lexText d s) := by
  induction h : s.size using Nat.strong_induction_on generalizing s with
  | _ n ih =>
    rw [lexText_eq]
    split
    · rename_i ht
      exact hlast s ht
    · rename_i ht
      have hf : (yylex d s).1.isEof = false := by simpa using ht
      have hlt := (yylex_spec d s).1 hf
      exact hcons s hf (ih _ (by omega) _ rfl)

/-- The tokens of a text, as the parser sees them. -/
def tokens (d : Dialect) (s : LexState) : List Tok := (lexText d s).map (·.1)

theorem tokens_scanned (d : Dialect) (s : LexState) : Scanned (tokens d s) := by
  refine lexText_induction d (P := fun _ l => Scanned (l.map (·.1))) (fun s _ => ?_)
    (fun s _ ih => ?_) s
  · intro t ht
    rw [map_singleton, mem_singleton] at ht
    rw [ht]
    exact (yylex_spec d s).2
  · intro t ht
    rcases mem_cons.mp ht with rfl | ht
    · exact (yylex_spec d s).2
    · exact ih t ht

/-- Only the last token is the end of the text. -/
theorem tokens_last (d : Dialect) (s : LexState) :
    ∃ pre t, tokens d s = pre ++ [t] ∧ t.isEof = true ∧ ∀ u ∈ pre, u.isEof = false := by
  refine lexText_induction d (P := fun _ l => ∃ pre t, l.map (·.1) = pre ++ [t] ∧ t.isEof = true ∧
    ∀ u ∈ pre, u.isEof = false) (fun s h => ?_) (fun s h ih => ?_) s
  · exact ⟨[], (yylex d s).1, rfl, h, by simp⟩
  · obtain ⟨pre, t, heq, ht, hpre⟩ := ih
    exact ⟨(yylex d s).1 :: pre, t, by simp [heq], ht, by simpa using ⟨h, hpre⟩⟩

/-! ### The end of the input -/

theorem readInput_eof {t : Text} (h : (readInput t).1 = .eof) : (readInput t).2 = [] := by
  fun_induction readInput t with
  | case1 => rfl
  | case2 => rfl
  | case3 rest ih => exact ih h
  | case4 => cases h
  | case5 => cases h

theorem lgetc_eof (h : (lgetc s).1 = .eof) : (lgetc s).2 = ⟨[], []⟩ := by
  obtain ⟨pb, input⟩ := s
  cases pb with
  | cons c pb =>
    simp only [lgetc, popped] at h
    split at h <;> cases h
  | nil =>
    simp only [lgetc] at h ⊢
    rw [readInput_eof h]

theorem skipBlanks_eof (n : ℕ) : ∀ s : LexState, s.size < n → (skipBlanks n s).1 = .eof →
    (skipBlanks n s).2 = ⟨[], []⟩ := by
  induction n with
  | zero => intro s h; omega
  | succ n ih =>
    intro s hn h
    have hlt := (lgetc_size s).2
    have heof := @lgetc_eof s
    rw [skipBlanks] at h ⊢
    generalize lgetc s = r at h hlt heof ⊢
    obtain ⟨i, s'⟩ := r
    cases i with
    | eof => exact heof rfl
    | neg c => cases h
    | byte c =>
      have hs' : s'.size < s.size := hlt (by simp)
      simp only at h ⊢
      split at h
      · rename_i hc
        rw [if_pos hc]
        exact ih s' (by omega) h
      · cases h

theorem skipLine_eof (n : ℕ) : ∀ s : LexState, s.size < n → (skipLine n s).1 = .eof →
    (skipLine n s).2 = ⟨[], []⟩ := by
  induction n with
  | zero => intro s h; omega
  | succ n ih =>
    intro s hn h
    have hlt := (lgetc_size s).2
    have heof := @lgetc_eof s
    rw [skipLine] at h ⊢
    generalize lgetc s = r at h hlt heof ⊢
    obtain ⟨i, s'⟩ := r
    simp only at h heof hlt ⊢
    split at h
    · rename_i hc
      rw [if_pos hc]
      exact heof h
    · rename_i hc
      have hne : i ≠ .eof := by
        rintro rfl
        exact hc (.inr rfl)
      have hs' := hlt hne
      rw [if_neg hc]
      exact ih s' (by omega) h

theorem quoted_ne_end (d : Dialect) (q : Char) (n : ℕ) : ∀ (acc : Text) (s : LexState),
    (quoted d q n acc s).1 ≠ .eof .endOfInput := by
  have heof (i : In) : eofQuoted i ≠ .eof .endOfInput := by
    rw [eofQuoted]
    split <;> simp
  induction n with
  | zero => intro acc s; simp [quoted]
  | succ n ih =>
    intro acc s
    have hstore (c : Char) (s₁ : LexState) :
        (if bufSize ≤ acc.length + 2 then (Tok.error (spell d 's' "tring too long"), findeol s₁)
          else quoted d q n (c :: acc) s₁).1 ≠ .eof .endOfInput := by
      split
      · simp
      · exact ih _ _
    rw [quoted]
    generalize lgetcQuoted s = r
    obtain ⟨i, s₁⟩ := r
    simp only
    split
    · exact heof i
    split
    · exact ih _ _
    split
    · generalize lgetcQuoted s₁ = r'
      obtain ⟨j, s₂⟩ := r'
      simp only
      split
      · exact heof j
      split
      · exact hstore _ _
      split
      · exact ih _ _
      · exact hstore _ _
    split
    · simp
    · exact hstore _ _

theorem lexWord_ne_end (d : Dialect) (c : Char) (s : LexState) : (lexWord d (.byte c) s).1 ≠ .eof .endOfInput := by
  simp only [lexWord]
  split
  · split
    · simp
    · rw [lookup]
      split <;> simp
  · split <;> simp

theorem lexNumber_ne_end (d : Dialect) (c : Char) (s : LexState) : (lexNumber d c s).1 ≠ .eof .endOfInput := by
  rw [lexNumber]
  split
  · simp
  · simp only
    split
    · split <;> simp
    · split
      · simp
      · exact lexWord_ne_end d c _

/-- The end of the input is reported when nothing is left. -/
theorem yylex_end (h : (yylex d s).1 = .eof .endOfInput) : (yylex d s).2 = ⟨[], []⟩ := by
  have hblank := skipBlanks_eof (s.size + 1) s (by omega)
  rw [yylex] at h ⊢
  generalize skipBlanks (s.size + 1) s = r at h hblank ⊢
  obtain ⟨i, s₁⟩ := r
  simp only at h hblank ⊢
  have hline : (if i = .byte '#' then skipLine (s₁.size + 1) s₁ else (i, s₁)).1 = .eof →
      (if i = .byte '#' then skipLine (s₁.size + 1) s₁ else (i, s₁)).2 = ⟨[], []⟩ := by
    split
    · exact skipLine_eof _ s₁ (by omega)
    · exact hblank
  generalize (if i = .byte '#' then skipLine (s₁.size + 1) s₁ else (i, s₁)) = r at h hline ⊢
  obtain ⟨j, s₂⟩ := r
  cases j with
  | eof => exact hline rfl
  | neg c => cases h
  | byte c =>
    simp only at h
    split at h
    · exact absurd h (quoted_ne_end d c _ _ _)
    split at h
    · exact absurd h (lexNumber_ne_end d c _)
    · exact absurd h (lexWord_ne_end d c _)

end Anoubis.Apn

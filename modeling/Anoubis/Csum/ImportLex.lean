import Anoubis.Csum.Import

/-! The tokens of the lines.

    No rule looks beyond the end of a line, and a file name ends there. So the tokens of a text are the tokens of its
    lines, and each line that is complete ends with its only `NEWLINE`. -/

namespace Anoubis.Csum

open Anoubis.Lib List

/-- White space only. -/
def Blank (line : List UInt8) : Prop := ∀ c ∈ line, isW c

theorem isW_iff {c : UInt8} : isW c = true ↔ c = 32 ∨ c = 9 ∨ c = 10 := by
  simp only [isW, Bool.or_eq_true, beq_iff_eq, or_assoc]

/-! ### One rule -/

section Rule

variable {p : UInt8 → Bool} {w r rest : List UInt8} {b : TokenBuf} {m : Mode} {c : UInt8} {n : ℕ}

theorem takeWhile_line (hp : p 10 = false) (w r : List UInt8) : (w ++ 10 :: r).takeWhile p = w.takeWhile p := by
  induction w with
  | nil => rw [nil_append, takeWhile_cons_of_neg (by simp [hp]), takeWhile_nil]
  | cons c w ih => rw [cons_append, takeWhile_cons, takeWhile_cons, ih]

theorem head?_dropWhile_line (hp : p 10 = false) (w r : List UInt8) :
    ((w ++ 10 :: r).dropWhile p).head? = ((w ++ [10]).dropWhile p).head? := by
  induction w with
  | nil => rw [nil_append, nil_append, dropWhile_cons_of_neg, dropWhile_cons_of_neg] <;> simp [hp]
  | cons c w ih =>
    rw [cons_append, cons_append, dropWhile_cons, dropWhile_cons]
    split
    · exact ih
    · rfl

theorem initialRule_line (c : UInt8) (w r : List UInt8) : initialRule c (w ++ 10 :: r) = initialRule c (w ++ [10]) := by
  have hH : isH 10 = false := by decide
  rw [initialRule, initialRule, takeWhile_line hH, takeWhile_line hH, head?_dropWhile_line hH]
  simp only [head?_append, head?_cons]

theorem filenameRule_line (b : TokenBuf) (c : UInt8) (w r : List UInt8) :
    filenameRule b c (w ++ 10 :: r) = filenameRule b c (w ++ [10]) := by
  have hO : isO 10 = false := by decide
  have htake : (w ++ 10 :: r).take 1 = (w ++ [10]).take 1 := by cases w <;> rfl
  rw [filenameRule, filenameRule, takeWhile_line hO, takeWhile_line hO, initialRule_line, htake]
  simp only [head?_append, head?_cons]

/-- A rule does not look beyond the end of the line. -/
theorem rule_line (m : Mode) (c : UInt8) (w r : List UInt8) : rule m c (w ++ 10 :: r) = rule m c (w ++ [10]) := by
  cases m with
  | initial => exact initialRule_line c w r
  | filename b => exact filenameRule_line b c w r

theorem name_skip_le (b : Option TokenBuf) (n : ℕ) : (Action.name b n).skip ≤ n := by
  cases b with
  | none => exact Nat.zero_le n
  | some b => exact Nat.le_refl n

theorem initialRule_skip (c : UInt8) (w r : List UInt8) : (initialRule c (w ++ 10 :: r)).skip ≤ w.length := by
  have hH : isH 10 = false := by decide
  have hlen : (w.takeWhile isH).length ≤ w.length := (takeWhile_sublist isH).length_le
  rw [initialRule, takeWhile_line hH]
  split_ifs
  all_goals first | exact Nat.zero_le _ | exact le_trans (name_skip_le _ 0) (Nat.zero_le _) | exact hlen

/-- Nor does it match more than the line. -/
theorem rule_skip (m : Mode) (c : UInt8) (w r : List UInt8) : (rule m c (w ++ 10 :: r)).skip ≤ w.length := by
  cases m with
  | initial => exact initialRule_skip c w r
  | filename b =>
    have hO : isO 10 = false := by decide
    have hlen : ((w.takeWhile isO).take 3).length ≤ w.length :=
      Nat.le_trans (length_take_le' _ _) (takeWhile_sublist isO).length_le
    rw [rule, filenameRule, takeWhile_line hO]
    split_ifs with h1 h2 h3 h4
    · refine Nat.le_trans (name_skip_le _ 1) ?_
      cases w with
      | nil => exact absurd h1.2 (by simp)
      | cons d w => simp
    · refine Nat.le_trans (name_skip_le _ 1) ?_
      cases w with
      | nil => exact absurd h2.2 (by simp)
      | cons d w => simp
    · exact Nat.le_trans (name_skip_le _ 3) (h3.2 ▸ hlen)
    · exact Nat.le_trans (name_skip_le _ 0) (Nat.zero_le _)
    · exact initialRule_skip c w r

theorem newline_not_mem_name (b : Option TokenBuf) (n : ℕ) : Tok.newline ∉ (Action.name b n).toks := by
  cases b with
  | none =>
    rw [Action.name, Option.elim_none]
    decide
  | some b => exact not_mem_nil

theorem elim_ne_newline {f : CString → Tok} (hf : ∀ s, f s ≠ .newline) (s : Option CString) :
    s.elim .overflow f ≠ .newline := by
  cases s with
  | none =>
    rw [Option.elim_none]
    decide
  | some s => exact hf s

theorem newline_not_mem_initialRule (hc : c ≠ 10) (rest : List UInt8) : Tok.newline ∉ (initialRule c rest).toks := by
  rw [initialRule]
  split_ifs
  · decide
  · exact newline_not_mem_name _ 0
  · rw [mem_singleton]
    exact (elim_ne_newline (by simp) _).symm
  · decide
  · decide

/-- `NEWLINE` stands for a newline. -/
theorem newline_not_mem_rule (m : Mode) (hc : c ≠ 10) (rest : List UInt8) : Tok.newline ∉ (rule m c rest).toks := by
  cases m with
  | initial => exact newline_not_mem_initialRule hc rest
  | filename b =>
    rw [rule, filenameRule]
    split_ifs
    · exact newline_not_mem_name _ 1
    · exact newline_not_mem_name _ 1
    · exact newline_not_mem_name _ 3
    · exact newline_not_mem_name _ 0
    · exact not_mem_cons_of_ne_of_not_mem (elim_ne_newline (by simp) _).symm (newline_not_mem_initialRule hc rest)

theorem mode_name (b : Option TokenBuf) (n : ℕ) (h : (Action.name b n).toks = []) :
    (Action.name b n).mode ≠ .initial := by
  cases b with
  | none => exact absurd h (by simp [Action.name])
  | some b => simp [Action.name]

theorem initialRule_blank (hc : c ≠ 10) (hW : isW c) (rest : List UInt8) :
    initialRule c rest = ⟨[], .initial, 0⟩ := by
  have hc' : c = 32 ∨ c = 9 := by simpa [hc] using isW_iff.mp hW
  rw [initialRule]
  rcases hc' with rfl | rfl <;> simp [isH, isW]

/-- Other characters are tokens or begin a file name. -/
theorem mode_initialRule (hW : isW c = false) (rest : List UInt8) (h : (initialRule c rest).toks = []) :
    (initialRule c rest).mode ≠ .initial := by
  rw [initialRule] at h ⊢
  split_ifs at h ⊢ with h1 h2 h3 h4 h5
  · exact mode_name _ 0 h
  · exact absurd h5 (by simp [hW])

/-- A file name goes on or is a token. -/
theorem mode_filenameRule (b : TokenBuf) (c : UInt8) (rest : List UInt8) (h : (filenameRule b c rest).toks = []) :
    (filenameRule b c rest).mode ≠ .initial := by
  rw [filenameRule] at h ⊢
  split_ifs at h ⊢
  · exact mode_name _ 1 h
  · exact mode_name _ 1 h
  · exact mode_name _ 3 h
  · exact mode_name _ 0 h
  · exact absurd h (by simp [Action.again])

theorem initialRule_newline (rest : List UInt8) : initialRule 10 rest = ⟨[.newline], .initial, 0⟩ := by
  rw [initialRule]
  simp [isH]

theorem filenameRule_newline (b : TokenBuf) (rest : List UInt8) :
    filenameRule b 10 rest = ⟨[b.produce.elim .overflow .filename, .newline], .initial, 0⟩ := by
  rw [filenameRule]
  simp [isprint, initialRule_newline, Action.again]

end Rule

/-! ### A line -/

section Line

variable {w : List UInt8} {m : Mode} {n : ℕ}

/-- The tokens of a line, and then the tokens behind it. -/
theorem lex_line (r : List UInt8) (hn : n ≤ w.length) (hw : 10 ∉ w) :
    lex n m (w ++ 10 :: r) = lex n m (w ++ [10]) ++ tokens r := by
  induction w generalizing n m with
  | nil =>
    obtain rfl : n = 0 := Nat.le_zero.mp hn
    cases m with
    | initial => simp only [nil_append, lex, rule, initialRule_newline, append_nil]; rfl
    | filename b => simp only [nil_append, lex, rule, filenameRule_newline, append_nil]; rfl
  | cons c w ih =>
    have hw' : 10 ∉ w := fun h => hw (mem_cons_of_mem _ h)
    cases n with
    | zero =>
      rw [cons_append, cons_append, lex, lex, rule_line, ih (rule_skip m c w []) hw', append_assoc]
    | succ n =>
      rw [cons_append, cons_append, lex, lex]
      exact ih (Nat.le_of_succ_le_succ hn) hw'

theorem tokens_line (r : List UInt8) (hw : 10 ∉ w) : tokens (w ++ 10 :: r) = tokens (w ++ [10]) ++ tokens r :=
  lex_line r (Nat.zero_le _) hw

/-- In a file name or with characters that have matched, there is a token before the end of the line is one. -/
theorem lex_complete (hn : n ≤ w.length) (hw : 10 ∉ w) :
    ∃ ts, lex n m (w ++ [10]) = ts ++ [.newline] ∧ .newline ∉ ts := by
  induction w generalizing n m with
  | nil =>
    obtain rfl : n = 0 := Nat.le_zero.mp hn
    cases m with
    | initial => exact ⟨[], by rw [nil_append, lex, rule, initialRule_newline]; rfl, not_mem_nil⟩
    | filename b =>
      refine ⟨[b.produce.elim .overflow .filename], by rw [nil_append, lex, rule, filenameRule_newline]; rfl, ?_⟩
      rw [mem_singleton]
      exact (elim_ne_newline (by simp) _).symm
  | cons c w ih =>
    rw [mem_cons, not_or] at hw
    cases n with
    | zero =>
      obtain ⟨ts, hts, hnot⟩ := ih (m := (rule m c (w ++ [10])).mode) (rule_skip m c w []) hw.2
      refine ⟨(rule m c (w ++ [10])).toks ++ ts, ?_, ?_⟩
      · rw [cons_append, lex, hts, append_assoc]
      · rw [mem_append, not_or]
        exact ⟨newline_not_mem_rule m (Ne.symm hw.1) _, hnot⟩
    | succ n =>
      rw [cons_append, lex]
      exact ih (Nat.le_of_succ_le_succ hn) hw.2

/-- A complete line ends with its only `NEWLINE`. -/
theorem tokens_complete (hw : 10 ∉ w) : ∃ ts, tokens (w ++ [10]) = ts ++ [.newline] ∧ .newline ∉ ts :=
  lex_complete (Nat.zero_le _) hw

theorem newline_not_mem_lex (hw : 10 ∉ w) : Tok.newline ∉ lex n m w := by
  induction w generalizing n m with
  | nil =>
    cases n <;> exact not_mem_nil
  | cons c w ih =>
    rw [mem_cons, not_or] at hw
    cases n with
    | zero =>
      rw [lex, mem_append, not_or]
      exact ⟨newline_not_mem_rule m (Ne.symm hw.1) w, ih hw.2⟩
    | succ n =>
      rw [lex]
      exact ih hw.2

/-- In a line that is not blank the first token is another one. -/
theorem lex_first (hn : n ≤ w.length) (hw : 10 ∉ w) (hm : m ≠ .initial ∨ n = 0 ∧ ¬Blank w) :
    ∃ t ts, lex n m (w ++ [10]) = t :: ts ∧ t ≠ .newline := by
  induction w generalizing n m with
  | nil =>
    obtain rfl : n = 0 := Nat.le_zero.mp hn
    cases m with
    | initial => exact absurd (by simp [Blank]) (hm.resolve_left (by simp)).2
    | filename b =>
      refine ⟨b.produce.elim .overflow .filename, [.newline], ?_, elim_ne_newline (by simp) _⟩
      rw [nil_append, lex, rule, filenameRule_newline]
      rfl
  | cons c w ih =>
    rw [mem_cons, not_or] at hw
    cases n with
    | zero =>
      rw [cons_append, lex]
      cases htoks : (rule m c (w ++ [10])).toks with
      | cons t ts =>
        have ht : t ≠ .newline := by
          have hnot := newline_not_mem_rule m (Ne.symm hw.1) (w ++ [10])
          rw [htoks, mem_cons, not_or] at hnot
          exact Ne.symm hnot.1
        exact ⟨t, _, cons_append, ht⟩
      | nil =>
        rw [nil_append]
        refine ih (rule_skip m c w []) hw.2 ?_
        cases m with
        | filename b => exact .inl (mode_filenameRule b c _ htoks)
        | initial =>
          have hblank := (hm.resolve_left (by simp)).2
          cases hW : isW c with
          | false => exact .inl (mode_initialRule hW _ htoks)
          | true =>
            rw [rule, initialRule_blank (Ne.symm hw.1) hW]
            refine .inr ⟨rfl, fun hblank' => hblank ?_⟩
            exact forall_mem_cons.mpr ⟨hW, hblank'⟩
    | succ n =>
      rw [cons_append, lex]
      exact ih (Nat.le_of_succ_le_succ hn) hw.2 (.inl (hm.resolve_right (by simp)))

theorem tokens_first (hw : 10 ∉ w) (hblank : ¬Blank w) : ∃ t ts, tokens (w ++ [10]) = t :: ts ∧ t ≠ .newline :=
  lex_first (Nat.zero_le _) hw (.inr ⟨rfl, hblank⟩)

/-- White space is skipped. -/
theorem tokens_blank (hw : 10 ∉ w) (hblank : Blank w) (r : List UInt8) : tokens (w ++ r) = tokens r := by
  induction w with
  | nil => rfl
  | cons c w ih =>
    rw [mem_cons, not_or] at hw
    have hc := forall_mem_cons.mp hblank
    rw [tokens, cons_append, lex, rule, initialRule_blank (Ne.symm hw.1) hc.1]
    exact ih hw.2 hc.2

end Line

end Anoubis.Csum

import Anoubis.Csum.ImportLex
import Anoubis.Lib.TextLines
import Mathlib.Data.List.Forall2
import Mathlib.Data.List.ReduceOption

/-! Which files can be imported (`import_csum`).

    The grammar says which lines are empty or have a record. Reading one line by itself shows how the parser leaves
    it, and how many symbols are on the stack for it. The file is read line by line until one has a syntax error.

        text                    read by itself              stack
        /a - 01 02 ⏎            line (some …)               4
        ⏎                       line none                   1        its record is missing when lines are linked
        /b - 01 ⏎               error in the line           3

    An error in a line ends the parser at once. With an error at the start of a line all lines before it are linked
    first. -/

namespace Anoubis.Csum

open Anoubis.Lib List

/-! ### The grammar -/

inductive Csentry : List Tok → Option CsumEntry → Prop
  | minus : Csentry [.minus] none
  | hex {u h : CString} {e : CsumEntry} : csentry u h = some e → Csentry [.hex u, .hex h] (some e)

inductive Sigentry : List Tok → Option SigEntry → Prop
  | minus : Sigentry [.minus] none
  | hex {k h : CString} {e : SigEntry} : sigentry k h = some e → Sigentry [.hex k, .hex h] (some e)

/-- The tokens of a record. -/
def IsRecord (ts : List Tok) (e : SfsEntry) : Prop :=
  ∃ n c cs s sig, Csentry c cs ∧ Sigentry s sig ∧ ts = .filename n :: (c ++ s ++ [.newline]) ∧ e = lineEntry n cs sig

/-- A line and its record, if it is not empty. -/
def IsLine (line : List UInt8) : Option SfsEntry → Prop
  | none => Blank line
  | some e => IsRecord (tokens line) e

/-- The records of all lines that are not empty. -/
def Records (text : List UInt8) (rs : List SfsEntry) : Prop :=
  ∃ es, List.Forall₂ IsLine (textLines text) es ∧ es.reduceOption = rs

/-- The import ends well: with the records, or with NULL if there is a syntax error. -/
def Robust (text : List UInt8) : Prop :=
  (∃ rs, Records text rs ∧ importCsum text = .records rs) ∨ (¬∃ rs, Records text rs) ∧ importCsum text = .syntaxError

/-! ### One line -/

/-- How the parser leaves a line: at its end, with an error in it or at its start, with a write outside of the token
    buffer, or at the end of the file. -/
inductive Stop where
  | line (e : Option SfsEntry)
  | error (inside : Bool)
  | overflow
  | eof
  deriving DecidableEq

/-- With the number of symbols on the stack. -/
structure LineRead where
  stop : Stop
  depth : ℕ
  deriving DecidableEq

/-- The stack was that high before. -/
def LineRead.after (depth : ℕ) (r : LineRead) : LineRead := ⟨r.stop, max depth r.depth⟩

def readTokens : Item → List Tok → LineRead
  | i, [] => if i = .start then ⟨.eof, 0⟩ else ⟨.error true, 0⟩
  | i, t :: ts =>
    match i.next t with
    | .shift j => (readTokens j ts).after (i.height + 1)
    | .line e => ⟨.line e, i.height + 1⟩
    | .abort => ⟨.error true, i.height + 1⟩
    | .reject => ⟨.error true, 0⟩
    | .close => ⟨.error false, 0⟩
    | .overflow => ⟨.overflow, 0⟩

def readLine (line : List UInt8) : LineRead := readTokens .start (tokens line)

def Stop.isLine : Stop → Bool
  | .line _ => true
  | _ => false

/-- The lines up to the one with an error. -/
def linesRead : List (List UInt8) → List (List UInt8)
  | [] => []
  | line :: lines => line :: if (readLine line).stop.isLine then linesRead lines else []

/-- A file name at the start of the line that the file ends in. -/
def Cut (line : List UInt8) : Prop := tokens line = [] ∧ ¬Blank line

/-- The lines that are read, behind `n` lines of which none is empty if `noEmpty` holds. -/
structure HarmlessFrom (n : ℕ) (noEmpty : Prop) (lines : List (List UInt8)) : Prop where
  fits : ∀ k line, lines[k]? = some line → n + k + (readLine line).depth ≤ stackRoom
  short : ∀ line ∈ lines, (readLine line).stop ≠ .overflow
  ended : ∀ line ∈ lines, ¬Cut line
  nonempty : (noEmpty ∧ ∀ line ∈ lines, (readLine line).stop ≠ .line none) ∨
    ∃ line ∈ lines, (readLine line).stop = .error true

/-- What is read of a text: the symbols of each line fit on the stack, the token buffer is long enough, no file name
    that begins a line goes on to the end of the file, and no line is empty unless there is an error in a line. -/
structure Harmless (text : List UInt8) : Prop where
  fits : ∀ k line, (linesRead (textLines text))[k]? = some line → k + (readLine line).depth ≤ stackRoom
  short : ∀ line ∈ linesRead (textLines text), (readLine line).stop ≠ .overflow
  ended : ∀ line ∈ linesRead (textLines text), ¬Cut line
  nonempty : (∀ line ∈ linesRead (textLines text), (readLine line).stop ≠ .line none) ∨
    ∃ line ∈ linesRead (textLines text), (readLine line).stop = .error true

/-! ### The parser, line by line -/

section Parser

variable {ls : List (Option SfsEntry)} {i j : Item} {t : Tok} {ts rest : List Tok} {r : LineRead}
  {more more' : Option SfsEntry → Outcome} {e : Option SfsEntry}

/-- The parser behind a line. -/
def afterLine (ls : List (Option SfsEntry)) (r : LineRead) (more : Option SfsEntry → Outcome) : Outcome :=
  if ls.length + r.depth ≤ stackRoom then
    match r.stop with
    | .line e => more e
    | .error inside => if inside then .syntaxError else reduceFile ls false
    | .overflow => .overflow
    | .eof => reduceFile ls true
  else .exhausted

theorem afterLine_after (depth : ℕ) (r : LineRead) : afterLine ls (r.after depth) more =
    if ls.length + depth ≤ stackRoom then afterLine ls r more else .exhausted := by
  rw [afterLine, afterLine]
  by_cases hdepth : ls.length + depth ≤ stackRoom
  · rw [if_pos hdepth]
    by_cases hr : ls.length + r.depth ≤ stackRoom
    · rw [if_pos hr, if_pos (by rw [LineRead.after]; dsimp only; omega)]
      rfl
    · rw [if_neg hr, if_neg (by rw [LineRead.after]; dsimp only; omega)]
  · rw [if_neg hdepth, if_neg (by rw [LineRead.after]; dsimp only; omega)]

theorem next_newline (i : Item) : (∃ e, i.next .newline = .line e) ∨ i.next .newline = .reject := by
  cases i <;> simp [Item.next]

theorem elim_ne_line {α : Type} (o : Option α) (f : α → Item) (e : Option SfsEntry) :
    (o.elim .abort fun a => .shift (f a)) ≠ Next.line e := by
  cases o <;> simp

theorem eq_newline_of_next (h : i.next t = .line e) : t = .newline := by
  cases i with
  | uid n u => cases t <;> first | rfl | exact absurd h (elim_ne_line _ _ e) | exact absurd h (by simp [Item.next])
  | keyid n c k => cases t <;> first | rfl | exact absurd h (elim_ne_line _ _ e) | exact absurd h (by simp [Item.next])
  | _ => cases t <;> first | rfl | exact absurd h (by simp [Item.next])

/-- A token inside a line. -/
theorem yyparse_cons {us vs : List Tok} (hls : ls.length ≤ stackRoom) (ht : t ≠ .newline)
    (h : ∀ j, yyparse ls j us = afterLine ls (readTokens j vs) more) :
    yyparse ls i (t :: us) = afterLine ls (readTokens i (t :: vs)) more := by
  rw [yyparse, readTokens]
  cases hnext : i.next t with
  | shift j =>
    dsimp only
    rw [afterLine_after, ← h]
    rfl
  | line e => exact absurd (eq_newline_of_next hnext) ht
  | abort => rfl
  | reject => exact (if_pos hls).symm
  | close => exact (if_pos hls).symm
  | overflow => exact (if_pos hls).symm

/-- A line that is complete. -/
theorem yyparse_line (hls : ls.length ≤ stackRoom) (hts : .newline ∉ ts) : yyparse ls i (ts ++ .newline :: rest) =
      afterLine ls (readTokens i (ts ++ [.newline])) fun e => yyparse (e :: ls) .start rest := by
  induction ts generalizing i with
  | nil =>
    rw [nil_append, nil_append, yyparse, readTokens]
    rcases next_newline i with ⟨e, hnext⟩ | hnext
    · rw [hnext]
      rfl
    · rw [hnext]
      exact (if_pos hls).symm
  | cons t ts ih =>
    rw [mem_cons, not_or] at hts
    exact yyparse_cons hls (Ne.symm hts.1) fun _ => ih hts.2

/-- The rest of the file, without a newline. -/
theorem yyparse_last (hls : ls.length ≤ stackRoom) (hts : .newline ∉ ts) (more : Option SfsEntry → Outcome) :
    yyparse ls i ts = afterLine ls (readTokens i ts) more := by
  induction ts generalizing i with
  | nil =>
    rw [yyparse, readTokens]
    split
    · exact (if_pos hls).symm
    · exact (if_pos hls).symm
  | cons t ts ih =>
    rw [mem_cons, not_or] at hts
    exact yyparse_cons hls (Ne.symm hts.1) fun _ => ih hts.2

end Parser

/-! ### The grammar and the parser -/

section Grammar

variable {i j : Item} {t : Tok} {ts : List Tok} {e : Option SfsEntry} {n : CString} {c : Option CsumEntry}
  {s : Option SigEntry}

/-- The next symbol, and the line behind it. -/
theorem stop_cons (h : (readTokens i ts).stop = .line e) :
    ∃ t ts', ts = t :: ts' ∧ (i.next t = .line e ∨ ∃ j, i.next t = .shift j ∧ (readTokens j ts').stop = .line e) := by
  cases ts with
  | nil =>
    rw [readTokens] at h
    split at h <;> exact absurd h (by simp)
  | cons t ts =>
    refine ⟨t, ts, rfl, ?_⟩
    rw [readTokens] at h
    cases hnext : i.next t with
    | shift j =>
      rw [hnext] at h
      exact .inr ⟨j, rfl, h⟩
    | line e' =>
      rw [hnext] at h
      simp only [Stop.line.injEq] at h
      rw [h]
      exact .inl rfl
    | _ =>
      rw [hnext] at h
      exact absurd h (by simp)

theorem elim_eq_shift {α : Type} {o : Option α} {f : α → Item}
    (h : (o.elim .abort fun a => .shift (f a)) = Next.shift j) : ∃ a, o = some a ∧ j = f a := by
  cases o with
  | none => exact absurd h (by simp)
  | some a => exact ⟨a, rfl, (Next.shift.inj h).symm⟩

theorem stop_sig (h : (readTokens (.sig n c s) ts).stop = .line e) :
    ∃ rest, ts = .newline :: rest ∧ e = some (lineEntry n c s) := by
  obtain ⟨t, ts', rfl, hnext⟩ := stop_cons h
  cases t <;> simp [Item.next] at hnext ⊢
  exact hnext.symm

/-- Behind the checksum. -/
theorem stop_cs (h : (readTokens (.cs n c) ts).stop = .line e) :
    ∃ us sig rest, Sigentry us sig ∧ ts = us ++ .newline :: rest ∧ e = some (lineEntry n c sig) := by
  obtain ⟨t, ts', rfl, hnext⟩ := stop_cons h
  cases t <;> simp only [Item.next, reduceCtorEq, false_or, false_and, exists_false] at hnext
  case minus =>
    obtain ⟨j, hj, h⟩ := hnext
    obtain rfl := Next.shift.inj hj
    obtain ⟨rest, rfl, rfl⟩ := stop_sig h
    exact ⟨_, _, rest, .minus, rfl, rfl⟩
  case hex k =>
    obtain ⟨j, hj, h⟩ := hnext
    obtain rfl := Next.shift.inj hj
    obtain ⟨t, ts', rfl, hnext⟩ := stop_cons h
    cases t <;> simp only [Item.next, reduceCtorEq, false_or, false_and, exists_false] at hnext
    case hex x =>
      obtain ⟨j, hj, h⟩ := hnext.resolve_left (elim_ne_line _ _ _)
      obtain ⟨sig, hsig, rfl⟩ := elim_eq_shift hj
      obtain ⟨rest, rfl, rfl⟩ := stop_sig h
      exact ⟨_, _, rest, .hex hsig, rfl, rfl⟩

/-- Behind the name. -/
theorem stop_name (h : (readTokens (.name n) ts).stop = .line e) : ∃ us cs vs sig rest,
    Csentry us cs ∧ Sigentry vs sig ∧ ts = us ++ (vs ++ .newline :: rest) ∧ e = some (lineEntry n cs sig) := by
  obtain ⟨t, ts', rfl, hnext⟩ := stop_cons h
  cases t <;> simp only [Item.next, reduceCtorEq, false_or, false_and, exists_false] at hnext
  case minus =>
    obtain ⟨j, hj, h⟩ := hnext
    obtain rfl := Next.shift.inj hj
    obtain ⟨vs, sig, rest, hsig, rfl, rfl⟩ := stop_cs h
    exact ⟨_, _, vs, sig, rest, .minus, hsig, rfl, rfl⟩
  case hex u =>
    obtain ⟨j, hj, h⟩ := hnext
    obtain rfl := Next.shift.inj hj
    obtain ⟨t, ts', rfl, hnext⟩ := stop_cons h
    cases t <;> simp only [Item.next, reduceCtorEq, false_or, false_and, exists_false] at hnext
    case hex x =>
      obtain ⟨j, hj, h⟩ := hnext.resolve_left (elim_ne_line _ _ _)
      obtain ⟨cs, hcs, rfl⟩ := elim_eq_shift hj
      obtain ⟨vs, sig, rest, hsig, rfl, rfl⟩ := stop_cs h
      exact ⟨_, _, vs, sig, rest, .hex hcs, hsig, rfl, rfl⟩

/-- A whole line. -/
theorem stop_start (h : (readTokens .start ts).stop = .line e) : e = none ∧ (∃ rest, ts = .newline :: rest) ∨
    ∃ n us cs vs sig rest, Csentry us cs ∧ Sigentry vs sig ∧
      ts = .filename n :: (us ++ (vs ++ .newline :: rest)) ∧ e = some (lineEntry n cs sig) := by
  obtain ⟨t, ts', rfl, hnext⟩ := stop_cons h
  cases t <;> simp only [Item.next, reduceCtorEq, false_or, or_false, false_and, exists_false] at hnext
  case newline => exact .inl ⟨(Next.line.inj hnext).symm, ts', rfl⟩
  case filename n =>
    obtain ⟨j, hj, h⟩ := hnext
    obtain rfl := Next.shift.inj hj
    obtain ⟨us, cs, vs, sig, rest, hcs, hsig, rfl, rfl⟩ := stop_name h
    exact .inr ⟨n, us, cs, vs, sig, rest, hcs, hsig, rfl, rfl⟩

theorem read_sigentry {us : List Tok} (h : Sigentry us s) :
    readTokens (.cs n c) (us ++ [.newline]) = ⟨.line (some (lineEntry n c s)), 4⟩ := by
  cases h with
  | minus => rfl
  | hex he =>
    simp only [cons_append, nil_append, readTokens, Item.next, he]
    rfl

/-- A record is read, with four symbols on the stack. -/
theorem readTokens_record {e : SfsEntry} (h : IsRecord ts e) : readTokens .start ts = ⟨.line (some e), 4⟩ := by
  obtain ⟨n, us, cs, vs, sig, hcs, hsig, rfl, rfl⟩ := h
  have hname : readTokens (.name n) (us ++ vs ++ [.newline]) = ⟨.line (some (lineEntry n cs sig)), 4⟩ := by
    rw [append_assoc]
    cases hcs with
    | minus =>
      rw [singleton_append, readTokens, Item.next]
      dsimp only
      rw [read_sigentry hsig]
      rfl
    | hex he =>
      simp only [cons_append, nil_append, readTokens, Item.next, he, Option.elim_some]
      rw [read_sigentry hsig]
      rfl
  rw [readTokens, Item.next]
  dsimp only
  rw [hname]
  rfl

end Grammar

/-! ### Lines of a text -/

section Lines

variable {w line text : List UInt8} {lines : List (List UInt8)} {e : Option SfsEntry} {ls : List (Option SfsEntry)}
  {es : List (Option SfsEntry)}

theorem eq_nil_of_append {α : Type} {a : α} {us pre rest : List α} (h : pre ++ a :: rest = us ++ [a]) (hus : a ∉ us) :
    rest = [] ∧ us = pre := by
  rcases eq_nil_or_concat rest with rfl | ⟨rest, b, rfl⟩
  · exact ⟨rfl, (append_inj_left' h rfl).symm⟩
  · have h' : (pre ++ a :: rest) ++ [b] = us ++ [a] := by
      rw [← h]
      simp only [append_assoc, cons_append, concat_eq_append]
    exact absurd (by rw [← append_inj_left' h' rfl]; simp) hus

theorem readLine_blank (hw : 10 ∉ w) (hblank : Blank w) : readLine (w ++ [10]) = ⟨.line none, 1⟩ := by
  rw [readLine, tokens_blank hw hblank]
  rfl

theorem blank_line : Blank (w ++ [10]) ↔ Blank w := by
  rw [Blank, forall_mem_append, forall_mem_singleton]
  exact ⟨And.left, fun h => ⟨h, by decide⟩⟩

/-- The parser ends a line where the grammar does. -/
theorem isLine_iff (hw : 10 ∉ w) : (readLine (w ++ [10])).stop = .line e ↔ IsLine (w ++ [10]) e := by
  obtain ⟨us, hus, hnot⟩ := tokens_complete hw
  constructor
  · intro h
    rcases stop_start h with ⟨rfl, rest, hts⟩ | ⟨n, us', cs, vs, sig, rest, hcs, hsig, hts, rfl⟩
    · refine blank_line.mpr (Classical.byContradiction fun hblank => ?_)
      obtain ⟨t, ts, hts', ht⟩ := tokens_first hw hblank
      rw [hts, List.cons.injEq] at hts'
      exact ht hts'.1.symm
    · have hts' : (.filename n :: (us' ++ vs)) ++ .newline :: rest = us ++ [.newline] := by
        rw [← hus, hts]
        simp only [cons_append, append_assoc]
      obtain ⟨rfl, rfl⟩ := eq_nil_of_append hts' hnot
      exact ⟨n, us', cs, vs, sig, hcs, hsig, hus, rfl⟩
  · intro h
    cases e with
    | none => rw [readLine_blank hw (blank_line.mp h)]
    | some e => rw [readLine, readTokens_record h]

/-- Only an empty line may have no newline. -/
theorem isLine_last (hw : 10 ∉ w) : IsLine w e ↔ e = none ∧ Blank w := by
  cases e with
  | none => exact (and_iff_right rfl).symm
  | some e =>
    constructor
    · rintro ⟨n, us, cs, vs, sig, -, -, hts, -⟩
      have hnot : .newline ∉ tokens w := newline_not_mem_lex hw
      rw [hts] at hnot
      exact absurd (by simp) hnot
    · exact fun h => absurd h.1 (by simp)

theorem stop_of_blank (hw : 10 ∉ w) (hblank : Blank w) : tokens w = [] := by
  have h := tokens_blank hw hblank []
  rwa [append_nil] at h

/-- A line ends with its `NEWLINE`. -/
theorem isLine_eq_false {ts : List Tok} (hts : .newline ∉ ts) : (readTokens .start ts).stop.isLine = false := by
  cases hs : (readTokens .start ts).stop with
  | line e =>
    rcases stop_start hs with ⟨-, rest, rfl⟩ | ⟨n, us, cs, vs, sig, rest, -, -, rfl, -⟩
    · exact absurd mem_cons_self hts
    · exact absurd (by simp) hts
  | _ => rfl

/-- The end of the file. -/
theorem stop_eof_iff {ts : List Tok} : (readTokens .start ts).stop = .eof ↔ ts = [] := by
  have key : ∀ ts i, (readTokens i ts).stop = .eof → i = .start ∧ ts = [] := by
    intro ts
    induction ts with
    | nil =>
      intro i h
      rw [readTokens] at h
      split at h
      · exact ⟨‹_›, rfl⟩
      · exact absurd h (by simp)
    | cons t ts ih =>
      intro i h
      rw [readTokens] at h
      cases hnext : i.next t with
      | shift j =>
        rw [hnext] at h
        obtain ⟨rfl, rfl⟩ := ih j h
        cases i <;> cases t <;> simp only [Item.next, reduceCtorEq, Next.shift.injEq] at hnext
        case uid.hex n u x => cases hcs : csentry u x <;> simp [hcs] at hnext
        case keyid.hex n c k x => cases hcs : sigentry k x <;> simp [hcs] at hnext
      | _ =>
        rw [hnext] at h
        exact absurd h (by simp)
  exact ⟨fun h => (key ts .start h).2, fun h => by rw [h]; rfl⟩

/-! ### The file -/

/-- The records of a text behind lines that were read. -/
def RobustFrom (ls : List (Option SfsEntry)) (text : List UInt8) : Prop :=
  (∃ es, List.Forall₂ IsLine (textLines text) es ∧
    yyparse ls .start (tokens text) = .records (ls.reverse ++ es).reduceOption) ∨
  (¬∃ es, List.Forall₂ IsLine (textLines text) es) ∧ yyparse ls .start (tokens text) = .syntaxError

/-- The lines fit on the stack, and `file` does unless a record is missing. -/
def Room (ls : List (Option SfsEntry)) : Prop :=
  ls.length ≤ stackRoom ∧ (none ∉ ls → ls.length + 1 ≤ stackRoom)

theorem foldl_linkLine_none (ls : List (Option SfsEntry)) : ls.foldl linkLine none = none := by
  induction ls with
  | nil => rfl
  | cons e ls ih => exact ih

/-- The records are linked if none is missing. -/
theorem foldl_linkLine (ls : List (Option SfsEntry)) (rs : List SfsEntry) : ls.foldl linkLine (some rs) =
    if none ∈ ls then none else some (ls.reverse.reduceOption ++ rs) := by
  induction ls generalizing rs with
  | nil => rfl
  | cons e ls ih =>
    rw [foldl_cons]
    cases e with
    | none => rw [if_pos mem_cons_self]; exact foldl_linkLine_none ls
    | some e =>
      have hlink : linkLine (some rs) (some e) = some (e :: rs) := rfl
      rw [hlink, ih]
      simp [reduceOption_append]

theorem reduceFile_eq (hls : Room ls) (hnone : none ∉ ls) (eof : Bool) :
    reduceFile ls eof = if eof then .records ls.reverse.reduceOption else .syntaxError := by
  rw [reduceFile, if_pos (hls.2 hnone), foldl_linkLine, if_neg hnone, append_nil]
  rfl

theorem reduceFile_missing (hnone : none ∈ ls) (eof : Bool) :
    reduceFile ls eof = .nullDeref ∨ reduceFile ls eof = .exhausted := by
  rw [reduceFile]
  split
  · rw [foldl_linkLine, if_pos hnone]
    exact .inl rfl
  · exact .inr rfl

theorem reduceFile_records_iff (hls : Room ls) :
    reduceFile ls true = .records ls.reverse.reduceOption ↔ none ∉ ls := by
  constructor
  · intro h hnone
    rcases reduceFile_missing hnone true with hr | hr <;> exact absurd (hr.symm.trans h) (by simp)
  · exact fun hnone => reduceFile_eq hls hnone true

theorem reduceFile_error_iff (hls : Room ls) : reduceFile ls false = .syntaxError ↔ none ∉ ls := by
  constructor
  · intro h hnone
    rcases reduceFile_missing hnone false with hr | hr <;> exact absurd (hr.symm.trans h) (by simp)
  · exact fun hnone => reduceFile_eq hls hnone false

theorem linesRead_line (line : List UInt8) (lines : List (List UInt8)) (h : (readLine line).stop = .line e) :
    linesRead (line :: lines) = line :: linesRead lines := by
  rw [linesRead, h]
  rfl

theorem linesRead_stop (line : List UInt8) (lines : List (List UInt8)) (h : (readLine line).stop.isLine = false) :
    linesRead (line :: lines) = [line] := by
  rw [linesRead, h]
  rfl

/-- One line in front. -/
theorem harmlessFrom_cons {n : ℕ} {noEmpty : Prop} (h : (readLine line).stop = .line e) (hcut : ¬Cut line) :
    HarmlessFrom n noEmpty (line :: lines) ↔
      n + (readLine line).depth ≤ stackRoom ∧ HarmlessFrom (n + 1) (noEmpty ∧ e ≠ none) lines := by
  constructor
  · intro hall
    refine ⟨hall.fits 0 line rfl, ?_, fun l hl => hall.short l (mem_cons_of_mem _ hl),
      fun l hl => hall.ended l (mem_cons_of_mem _ hl), ?_⟩
    · intro k l hl
      have hfits := hall.fits (k + 1) l hl
      omega
    · rcases hall.nonempty with ⟨hno, hlines⟩ | ⟨l, hl, herror⟩
      · refine .inl ⟨⟨hno, fun he => hlines line mem_cons_self ?_⟩,
          fun l hl => hlines l (mem_cons_of_mem _ hl)⟩
        rw [h, he]
      · rcases mem_cons.mp hl with rfl | hl
        · exact absurd (herror.symm.trans h) (by simp)
        · exact .inr ⟨l, hl, herror⟩
  · rintro ⟨hdepth, hall⟩
    refine ⟨?_, forall_mem_cons.mpr ⟨by rw [h]; simp, hall.short⟩,
      forall_mem_cons.mpr ⟨hcut, hall.ended⟩, ?_⟩
    · intro k l hl
      cases k with
      | zero =>
        cases hl
        exact hdepth
      | succ k =>
        have hfits := hall.fits k l hl
        omega
    · rcases hall.nonempty with ⟨⟨hno, he⟩, hlines⟩ | ⟨l, hl, herror⟩
      · refine .inl ⟨hno, forall_mem_cons.mpr ⟨?_, hlines⟩⟩
        rw [h]
        simpa using he
      · exact .inr ⟨l, mem_cons_of_mem _ hl, herror⟩

/-- The line where reading ends. -/
theorem harmlessFrom_stop {n : ℕ} {noEmpty : Prop} (h : (readLine line).stop.isLine = false) :
    HarmlessFrom n noEmpty [line] ↔ n + (readLine line).depth ≤ stackRoom ∧ (readLine line).stop ≠ .overflow ∧
      ¬Cut line ∧ (noEmpty ∨ (readLine line).stop = .error true) := by
  have hline : (readLine line).stop ≠ .line none := by
    intro hnone
    rw [hnone] at h
    exact absurd h (by decide)
  constructor
  · intro hall
    refine ⟨hall.fits 0 line rfl, hall.short line mem_cons_self, hall.ended line mem_cons_self, ?_⟩
    rcases hall.nonempty with ⟨hno, -⟩ | ⟨l, hl, herror⟩
    · exact .inl hno
    · rw [mem_singleton] at hl
      exact .inr (hl ▸ herror)
  · rintro ⟨hdepth, hover, hcut, hempty⟩
    refine ⟨?_, forall_mem_singleton.mpr hover, forall_mem_singleton.mpr hcut, ?_⟩
    · intro k l hl
      obtain ⟨hk, rfl⟩ := List.getElem?_eq_some_iff.mp hl
      rw [List.length_singleton] at hk
      obtain rfl : k = 0 := by omega
      exact hdepth
    · rcases hempty with hno | herror
      · exact .inl ⟨hno, forall_mem_singleton.mpr hline⟩
      · exact .inr ⟨line, mem_singleton.mpr rfl, herror⟩

/-- A line with an error. -/
theorem robust_stop (hls : Room ls) (htext : textLines text = line :: lines)
    (hstop : (readLine line).stop.isLine = false) (heof : (readLine line).stop ≠ .eof) (hline : ∀ e, ¬IsLine line e)
    (hparse : yyparse ls .start (tokens text) = afterLine ls (readLine line) more) :
    RobustFrom ls text ↔ HarmlessFrom ls.length (none ∉ ls) (linesRead (textLines text)) := by
  have hnot : ¬∃ es, List.Forall₂ IsLine (textLines text) es := by
    rintro ⟨es, hes⟩
    rw [htext] at hes
    cases hes with
    | cons h _ => exact hline _ h
  have hcut : ¬Cut line := fun hcut => heof (stop_eof_iff.mpr hcut.1)
  have hleft : RobustFrom ls text ↔ afterLine ls (readLine line) more = .syntaxError := by
    rw [← hparse]
    exact ⟨fun h => (h.resolve_left fun ⟨es, hes, _⟩ => hnot ⟨es, hes⟩).2, fun h => .inr ⟨hnot, h⟩⟩
  rw [hleft, htext, linesRead_stop line lines hstop, harmlessFrom_stop hstop, afterLine]
  by_cases hdepth : ls.length + (readLine line).depth ≤ stackRoom
  · rw [if_pos hdepth]
    cases hs : (readLine line).stop with
    | line e => exact absurd (hs ▸ hstop) (by simp [Stop.isLine])
    | error inside =>
      cases inside with
      | true => simp [hdepth, hcut]
      | false =>
        change reduceFile ls false = .syntaxError ↔ _
        rw [reduceFile_error_iff hls]
        simp [hdepth, hcut]
    | overflow => simp
    | eof => exact absurd hs heof
  · rw [if_neg hdepth]
    exact ⟨fun h => absurd h (by simp), fun h => absurd h.1 hdepth⟩

/-- The end of the file in a line. -/
theorem robust_eof (hls : Room ls) (hne : w ≠ []) (hw : 10 ∉ w) (htokens : tokens w = []) :
    RobustFrom ls w ↔ HarmlessFrom ls.length (none ∉ ls) (linesRead (textLines w)) := by
  have hread : readLine w = ⟨.eof, 0⟩ := by
    rw [readLine, htokens]
    rfl
  have hcut : ¬Cut w ↔ Blank w := by rw [Cut, not_and_not_right, imp_iff_right htokens]
  have hlines : (∃ es, List.Forall₂ IsLine [w] es) ↔ Blank w := by
    constructor
    · rintro ⟨es, hes⟩
      cases hes with
      | cons h _ => exact ((isLine_last hw).mp h).2
    · exact fun hblank => ⟨[none], .cons hblank .nil⟩
  rw [textLines_last hne hw, linesRead_stop w [] (by rw [hread]; rfl), harmlessFrom_stop (by rw [hread]; rfl), hcut,
    hread, RobustFrom, textLines_last hne hw, htokens, hlines]
  have hparse : yyparse ls .start [] = reduceFile ls true := rfl
  rw [hparse]
  constructor
  · rintro (⟨es, hes, h⟩ | ⟨hblank, h⟩)
    · have hblank := hlines.mp ⟨es, hes⟩
      cases hes with
      | cons he hnil =>
        cases hnil
        obtain ⟨rfl, -⟩ := (isLine_last hw).mp he
        refine ⟨hls.1, by simp, hblank, .inl ((reduceFile_records_iff hls).mp ?_)⟩
        rw [h, reduceOption_append]
        simp [List.reduceOption]
    · by_cases hnone : none ∈ ls
      · rcases reduceFile_missing hnone true with hr | hr <;> exact absurd (hr.symm.trans h) (by simp)
      · exact absurd ((reduceFile_eq hls hnone true).symm.trans h) (by simp)
  · rintro ⟨-, -, hblank, hnone⟩
    refine .inl ⟨[none], .cons hblank .nil, ?_⟩
    rw [reduceFile_eq hls (hnone.resolve_right (by simp)), reduceOption_append]
    simp [List.reduceOption]

/-- A line in the grammar, and then the rest of the text. -/
theorem robust_line (hw : 10 ∉ w) (hline : IsLine (w ++ [10]) e)
    (hparse : yyparse ls .start (tokens (w ++ 10 :: text)) = yyparse (e :: ls) .start (tokens text)) :
    RobustFrom ls (w ++ 10 :: text) ↔ RobustFrom (e :: ls) text := by
  have hunique : ∀ e', IsLine (w ++ [10]) e' → e' = e := by
    intro e' he'
    have h := ((isLine_iff hw).mpr he').symm.trans ((isLine_iff hw).mpr hline)
    exact Stop.line.inj h
  have hlines : ∀ es, List.Forall₂ IsLine (textLines (w ++ 10 :: text)) es ↔
      ∃ es', es = e :: es' ∧ List.Forall₂ IsLine (textLines text) es' := by
    intro es
    rw [textLines_line hw]
    constructor
    · intro h
      cases h with
      | cons he hes => exact ⟨_, by rw [hunique _ he], hes⟩
    · rintro ⟨es', rfl, hes⟩
      exact .cons hline hes
  rw [RobustFrom, RobustFrom, hparse]
  refine or_congr ?_ (and_congr_left' (not_congr ?_))
  · constructor
    · rintro ⟨es, hes, h⟩
      obtain ⟨es', rfl, hes'⟩ := (hlines es).mp hes
      refine ⟨es', hes', ?_⟩
      rw [h, reverse_cons, append_assoc, singleton_append]
    · rintro ⟨es', hes', h⟩
      refine ⟨e :: es', (hlines _).mpr ⟨es', rfl, hes'⟩, ?_⟩
      rw [h, reverse_cons, append_assoc, singleton_append]
  · constructor
    · rintro ⟨es, hes⟩
      obtain ⟨es', rfl, hes'⟩ := (hlines es).mp hes
      exact ⟨es', hes'⟩
    · rintro ⟨es', hes'⟩
      exact ⟨e :: es', (hlines _).mpr ⟨es', rfl, hes'⟩⟩

/-- There is room for the line itself, and for what is reduced at the end of the file. -/
theorem room_cons (hw : 10 ∉ w) (hline : IsLine (w ++ [10]) e)
    (hls : ls.length + (readLine (w ++ [10])).depth ≤ stackRoom) : Room (e :: ls) := by
  cases e with
  | none =>
    rw [readLine_blank hw (blank_line.mp hline)] at hls
    exact ⟨hls, fun hnone => absurd mem_cons_self hnone⟩
  | some e =>
    rw [readLine, readTokens_record hline] at hls
    dsimp only at hls
    rw [Room, length_cons]
    exact ⟨by omega, fun _ => by omega⟩

theorem not_robust (h : yyparse ls .start (tokens text) = .exhausted) : ¬RobustFrom ls text := by
  rintro (⟨es, -, hr⟩ | ⟨-, hr⟩) <;> exact absurd (h.symm.trans hr) (by simp)

theorem mem_cons_none_iff : none ∉ e :: ls ↔ none ∉ ls ∧ e ≠ none := by
  rw [mem_cons, not_or, and_comm]
  exact and_congr_right fun _ => ne_comm

/-- The lines are read one by one. -/
theorem robustFrom_iff (text : List UInt8) : ∀ ls, Room ls →
    (RobustFrom ls text ↔ HarmlessFrom ls.length (none ∉ ls) (linesRead (textLines text))) := by
  induction text using textLines_induction with
  | nil =>
    intro ls hls
    have hparse : yyparse ls .start (tokens []) = reduceFile ls true := rfl
    rw [RobustFrom, hparse]
    constructor
    · rintro (⟨es, hes, h⟩ | ⟨hnot, -⟩)
      · cases hes
        rw [append_nil, reduceFile_records_iff hls] at h
        exact ⟨by simp [textLines, linesRead], by simp [textLines, linesRead], by simp [textLines, linesRead],
          .inl ⟨h, by simp [textLines, linesRead]⟩⟩
      · exact absurd ⟨[], .nil⟩ hnot
    · intro h
      have hnone := (h.nonempty.resolve_right (by simp [textLines, linesRead])).1
      exact .inl ⟨[], .nil, by rw [append_nil]; exact reduceFile_eq hls hnone true⟩
  | last w hne hw =>
    intro ls hls
    by_cases htokens : tokens w = []
    · exact robust_eof hls hne hw htokens
    · have hnot : .newline ∉ tokens w := newline_not_mem_lex hw
      refine robust_stop hls (textLines_last hne hw) ?_ (fun h => htokens (stop_eof_iff.mp h)) ?_
        (yyparse_last hls.1 hnot fun _ => .exhausted)
      · exact isLine_eq_false hnot
      · intro e he
        exact htokens (stop_of_blank hw ((isLine_last hw).mp he).2)
  | line w text hw ih =>
    intro ls hls
    obtain ⟨us, hus, hnot⟩ := tokens_complete hw
    have hparse : yyparse ls .start (tokens (w ++ 10 :: text)) =
        afterLine ls (readLine (w ++ [10])) fun e => yyparse (e :: ls) .start (tokens text) := by
      rw [tokens_line text hw, hus, append_assoc, singleton_append, yyparse_line hls.1 hnot, readLine, hus]
    have heof : (readLine (w ++ [10])).stop ≠ .eof := by
      intro h
      have htokens : tokens (w ++ [10]) = [] := stop_eof_iff.mp h
      rw [hus] at htokens
      exact absurd htokens (by simp)
    cases hs : (readLine (w ++ [10])).stop with
    | line e =>
      have hline := (isLine_iff hw).mp hs
      have hcut : ¬Cut (w ++ [10]) := fun h => heof (stop_eof_iff.mpr h.1)
      rw [textLines_line hw, linesRead_line _ _ hs, harmlessFrom_cons hs hcut, ← mem_cons_none_iff]
      by_cases hdepth : ls.length + (readLine (w ++ [10])).depth ≤ stackRoom
      · rw [afterLine, if_pos hdepth, hs] at hparse
        rw [robust_line hw hline hparse, and_iff_right hdepth]
        exact ih (e :: ls) (room_cons hw hline hdepth)
      · rw [afterLine, if_neg hdepth] at hparse
        exact ⟨fun h => absurd h (not_robust hparse), fun h => absurd h.1 hdepth⟩
    | _ =>
      refine robust_stop hls (textLines_line hw text) (by rw [hs]; rfl) heof ?_ hparse
      intro e he
      exact absurd (hs.symm.trans ((isLine_iff hw).mpr he)) (by simp)

end Lines

/-! ### The import -/

end Anoubis.Csum

import Anoubis.Daemon.Cfg
import Anoubis.Lib.TextLines

/-! The text of a configuration file (`cfg_parse_file`).

    A line without its blanks is a comment, empty, or part of a parameter. A backslash at its end joins it with the
    next line that is left, and what is joined is an assignment: the key stands before the first `=`, in the first of
    its lines.

        commit = required \            commit      required /usr/bin/scan Virus scanner
          # a comment
            /usr/bin/scan \
            Virus scanner
        policysize = 100               policysize  100

    The file is accepted if all assignments are, and they are made in their order. -/

namespace Anoubis.Cfg

open Anoubis.Lib Option

/-! ### Lines -/

/-- No line is too long, its newline included. -/
def ShortLines (text : List UInt8) : Prop := ∀ line ∈ textLines text, line.length < bufSize - 1

/-- Without white space around it. -/
def trim (s : CString) : CString := ((s.dropWhile isspace).reverse.dropWhile isspace).reverse

/-- Neither empty nor a comment. -/
def isContent (line : CString) : Bool := !(line.isEmpty || decide (line.head?.map Subtype.val = some 35))

/-- The lines that are left. -/
def contentLines (text : List UInt8) : List CString :=
  ((textLines text).map fun line => trim (cString line)).filter isContent

/-- A backslash at the end. -/
def isContinued (line : CString) : Bool := decide (line.getLast?.map Subtype.val = some 92)

/-- A line in front of the others, joined with the next one. -/
def joinLine (line : CString) : List (List CString) → List (List CString)
  | [] => [[line]]
  | next :: rest => (line :: next) :: rest

/-- The logical lines, each one with the lines it is made of. -/
def logicalLines : List CString → List (List CString)
  | [] => []
  | line :: lines =>
    if isContinued line then joinLine line.dropLast (logicalLines lines) else [line] :: logicalLines lines

/-! ### Assignments -/

abbrev Assignment := Key × CString

def isEquals (c : CChar) : Bool := decide (c.1 = 61)

/-- Key and value of a logical line. -/
def assignment : List CString → Option Assignment
  | [] => none
  | first :: more =>
    match strsep isEquals first with
    | (_, none) => none
    | (key, some value) => (nameToValue keywords (trim key)).map fun k => (k, value.dropWhile isspace ++ more.flatten)

/-- All of them, if every logical line is one. -/
def assignments (text : List UInt8) : Option (List Assignment) := (logicalLines (contentLines text)).mapM assignment

/-- The value is one for the key. -/
def Valid (a : Assignment) : Bool :=
  match a.1 with
  | .unixsocket | .upgradeTrigger | .rootkey => true
  | .upgradeMode => (nameToValue upgrademodes a.2).isSome
  | .rootkeyRequired | .coredumps => (nameToValue boolvalues a.2).isSome
  | .authMode => (nameToValue authmodes a.2).isSome
  | .policysize | .scantimeout => (cfgParseInt a.2).isSome
  | .commit => (cfgParseCommit a.2).isSome

/-- The values of a key. -/
def valuesOf {α : Type} (k : Key) (f : CString → Option α) (as : List Assignment) : List α :=
  as.filterMap fun a => if a.1 = k then f a.2 else none

/-- The last value of a key. -/
def lastOf {α : Type} (k : Key) (f : CString → Option α) (as : List Assignment) (default : α) : α :=
  (valuesOf k f as).getLast?.getD default

/-- The configuration after the assignments: the last one of a key counts; triggers and scanners are collected. -/
def collect (c : Config) (as : List Assignment) : Config where
  unixsocket := lastOf .unixsocket (fun v => some (some v)) as c.unixsocket
  rootkey := lastOf .rootkey (fun v => some (some v)) as c.rootkey
  rootkeyRequired := lastOf .rootkeyRequired (nameToValue boolvalues) as c.rootkeyRequired
  upgradeMode := lastOf .upgradeMode (nameToValue upgrademodes) as c.upgradeMode
  upgradeTrigger := (valuesOf .upgradeTrigger some as).foldl cfgParseUpgradeTrigger c.upgradeTrigger
  authMode := lastOf .authMode (nameToValue authmodes) as c.authMode
  allowCoredumps := lastOf .coredumps (nameToValue boolvalues) as c.allowCoredumps
  policysize := lastOf .policysize cfgParseInt as c.policysize
  pgScanner := c.pgScanner ++ valuesOf .commit cfgParseCommit as
  scannerTimeout := lastOf .scantimeout cfgParseInt as c.scannerTimeout

/-- One assignment. -/
def assign (c : Config) (a : Assignment) : Option Config := cfgParamProcess c (some a.1) a.2

/-! ### The configuration -/

open List

section Collect

variable {α : Type} {c : Config} {as : List Assignment} {a : Assignment} {k : Key} {f : CString → Option α} {v : CString}

theorem valuesOf_append (as as' : List Assignment) : valuesOf k f (as ++ as') = valuesOf k f as ++ valuesOf k f as' :=
  filterMap_append

theorem valuesOf_self {x : α} (h : f v = some x) : valuesOf k f [(k, v)] = [x] := by
  rw [valuesOf, filterMap_cons_some (b := x) (by rw [if_pos rfl, h])]
  rfl

theorem valuesOf_other (h : a.1 ≠ k) : valuesOf k f [a] = [] := by
  rw [valuesOf, filterMap_cons_none (by rw [if_neg h])]
  rfl

theorem lastOf_self {x : α} (h : f v = some x) (as : List Assignment) (d : α) :
    lastOf k f (as ++ [(k, v)]) d = x := by
  rw [lastOf, valuesOf_append, valuesOf_self h, getLast?_concat, getD_some]

theorem lastOf_other (h : a.1 ≠ k) (as : List Assignment) (d : α) : lastOf k f (as ++ [a]) d = lastOf k f as d := by
  rw [lastOf, valuesOf_append, valuesOf_other h, append_nil, lastOf]

/-- One more assignment, valid or not. -/
theorem assign_collect (c : Config) (as : List Assignment) (a : Assignment) :
    assign (collect c as) a = if Valid a then some (collect c (as ++ [a])) else none := by
  obtain ⟨k, v⟩ := a
  cases k with
  | unixsocket | rootkey =>
    simp [assign, cfgParamProcess, Valid, collect, lastOf_self, lastOf_other, valuesOf_append, valuesOf_other]
  | upgradeTrigger =>
    simp [assign, cfgParamProcess, Valid, collect, lastOf_other, valuesOf_append, valuesOf_other,
      valuesOf_self (f := some) rfl]
  | upgradeMode =>
    cases hv : nameToValue upgrademodes v with
    | none => simp [assign, cfgParamProcess, Valid, hv]
    | some x =>
      simp [assign, cfgParamProcess, Valid, hv, collect, lastOf_self hv, lastOf_other, valuesOf_append, valuesOf_other]
  | rootkeyRequired | coredumps =>
    cases hv : nameToValue boolvalues v with
    | none => simp [assign, cfgParamProcess, Valid, hv]
    | some x =>
      simp [assign, cfgParamProcess, Valid, hv, collect, lastOf_self hv, lastOf_other, valuesOf_append, valuesOf_other]
  | authMode =>
    cases hv : nameToValue authmodes v with
    | none => simp [assign, cfgParamProcess, Valid, hv]
    | some x =>
      simp [assign, cfgParamProcess, Valid, hv, collect, lastOf_self hv, lastOf_other, valuesOf_append, valuesOf_other]
  | policysize | scantimeout =>
    cases hv : cfgParseInt v with
    | none => simp [assign, cfgParamProcess, Valid, hv]
    | some x =>
      simp [assign, cfgParamProcess, Valid, hv, collect, lastOf_self hv, lastOf_other, valuesOf_append, valuesOf_other]
  | commit =>
    cases hv : cfgParseCommit v with
    | none => simp [assign, cfgParamProcess, Valid, hv]
    | some x =>
      have htrigger : valuesOf .upgradeTrigger some [(Key.commit, v)] = [] := valuesOf_other (by simp)
      simp [assign, cfgParamProcess, Valid, hv, collect, lastOf_other, valuesOf_append, valuesOf_self hv, htrigger]

theorem collect_nil (c : Config) : collect c [] = c := by
  cases c
  simp [collect, lastOf, valuesOf]

theorem foldlM_collect (c : Config) (as as' : List Assignment) :
    as.foldlM assign (collect c as') =
      if as.all Valid then some (collect c (as' ++ as)) else none := by
  induction as generalizing as' with
  | nil => simp
  | cons a as ih =>
    rw [foldlM_cons, assign_collect, all_cons]
    cases hv : Valid a with
    | false => rfl
    | true =>
      rw [if_pos rfl, Bool.true_and]
      refine (ih (as' ++ [a])).trans ?_
      rw [append_assoc, singleton_append]

/-- The assignments in their order. -/
theorem foldlM_assign (c : Config) (as : List Assignment) :
    as.foldlM assign c = if as.all Valid then some (collect c as) else none := by
  have h := foldlM_collect c as []
  rwa [collect_nil, nil_append] at h

end Collect

/-! ### White space -/

section Space

variable {s v w : CString} {c : CChar}

/-- Without white space at the end. -/
def rtrim (s : CString) : CString := (s.reverse.dropWhile isspace).reverse

theorem rtrim_cons (c : CChar) (s : CString) :
    rtrim (c :: s) = if rtrim s = [] ∧ isspace c then [] else c :: rtrim s := by
  rw [rtrim, reverse_cons, dropWhile_append, rtrim]
  by_cases hnil : s.reverse.dropWhile isspace = []
  · rw [hnil]
    cases hc : isspace c <;> simp [hc]
  · rw [if_neg (by simpa using hnil), if_neg (by simp [hnil]), reverse_append]
    rfl

theorem dropWhile_rtrim (s : CString) : (rtrim s).dropWhile isspace = rtrim (s.dropWhile isspace) := by
  induction s with
  | nil => rfl
  | cons c s ih =>
    rw [rtrim_cons]
    cases hc : isspace c with
    | true =>
      rw [dropWhile_cons_of_pos hc, ← ih]
      by_cases hnil : rtrim s = []
      · rw [if_pos ⟨hnil, rfl⟩, hnil]
      · rw [if_neg fun h => hnil h.1, dropWhile_cons_of_pos hc]
    | false =>
      rw [if_neg (by simp), dropWhile_cons_of_neg (by simp [hc]), dropWhile_cons_of_neg (by simp [hc]),
        rtrim_cons, if_neg (by simp [hc])]

/-- `strip_whitespaces` leaves the first character for the second loop. -/
theorem stripWhitespaces_eq (s : CString) : stripWhitespaces s = trim s := by
  cases s with
  | nil => rfl
  | cons c s =>
    have htrim : trim (c :: s) = rtrim ((c :: s).dropWhile isspace) := rfl
    have hstrip : stripWhitespaces (c :: s) = (c :: rtrim s).dropWhile isspace := rfl
    rw [htrim, hstrip]
    cases hc : isspace c with
    | true => rw [dropWhile_cons_of_pos hc, dropWhile_cons_of_pos hc, dropWhile_rtrim]
    | false =>
      rw [dropWhile_cons_of_neg (by simp [hc]), dropWhile_cons_of_neg (by simp [hc]), rtrim_cons,
        if_neg (by simp [hc])]

/-- The last character is no white space. -/
def Trimmed (s : CString) : Prop := ∃ c, s.getLast? = some c ∧ isspace c = false

theorem trimmed_rtrim (h : rtrim s ≠ []) : Trimmed (rtrim s) := by
  have hne : s.reverse.dropWhile isspace ≠ [] := fun hnil => h (by rw [rtrim, hnil]; rfl)
  refine ⟨(s.reverse.dropWhile isspace).head hne, ?_, ?_⟩
  · rw [rtrim, getLast?_reverse]
    exact head?_eq_some_head hne
  · exact head_dropWhile_not isspace hne

theorem trimmed_trim (h : trim s ≠ []) : Trimmed (trim s) := trimmed_rtrim h

theorem rtrim_trimmed (h : Trimmed s) : rtrim s = s := by
  obtain ⟨c, hlast, hc⟩ := h
  obtain ⟨w, rfl⟩ := getLast?_eq_some_iff.mp hlast
  rw [rtrim, reverse_append, reverse_singleton, singleton_append,
    dropWhile_cons_of_neg (by simp [hc]), reverse_cons, reverse_reverse]

theorem dropWhile_concat (hc : isspace c = false) (w : CString) :
    (w ++ [c]).dropWhile isspace = w.dropWhile isspace ++ [c] := by
  rw [dropWhile_append]
  split
  · rename_i hnil
    rw [dropWhile_cons_of_neg (by simp [hc]), List.isEmpty_iff.mp hnil]
    rfl
  · rfl

/-- A string that ends with another character than white space is trimmed at its start. -/
theorem trim_concat (hc : isspace c = false) (w : CString) : trim (w ++ [c]) = w.dropWhile isspace ++ [c] := by
  have htrim : trim (w ++ [c]) = rtrim ((w ++ [c]).dropWhile isspace) := rfl
  rw [htrim, dropWhile_concat hc, rtrim_trimmed ⟨c, getLast?_concat, hc⟩]

theorem trim_trimmed (h : Trimmed s) : trim s = s.dropWhile isspace := by
  obtain ⟨c, hlast, hc⟩ := h
  obtain ⟨w, rfl⟩ := getLast?_eq_some_iff.mp hlast
  rw [trim_concat hc, dropWhile_concat hc]

end Space

/-! ### One line -/

section Line

variable {p : Parse} {line first : CString} {key value : CString} {c : CChar}

theorem strsep_some {s key value : CString} {delim : CChar → Bool} (h : strsep delim s = (key, some value)) :
    ∃ d, delim d = true ∧ s = key ++ d :: value := by
  induction s generalizing key with
  | nil => cases h
  | cons x s ih =>
    rw [strsep] at h
    cases hx : delim x with
    | true =>
      rw [hx] at h
      obtain ⟨rfl, hv⟩ := Prod.mk.inj h
      exact ⟨x, hx, by rw [← some.inj hv]; rfl⟩
    | false =>
      rw [hx, if_neg Bool.false_ne_true] at h
      obtain ⟨rfl, hv⟩ := Prod.mk.inj h
      obtain ⟨d, hd, hs⟩ := ih (Prod.ext rfl hv : strsep delim s = ((strsep delim s).1, some value))
      exact ⟨d, hd, by rw [cons_append, ← hs]⟩

/-- A character at the end that is no delimiter goes with the rest. -/
theorem strsep_concat {delim : CChar → Bool} (hc : delim c = false) (s : CString) :
    (strsep delim (s ++ [c])).2 = (strsep delim s).2.map (· ++ [c]) ∧
      ((strsep delim s).2 ≠ none → (strsep delim (s ++ [c])).1 = (strsep delim s).1) := by
  induction s with
  | nil =>
    have hone : strsep delim [c] = ([c], none) := by
      rw [strsep, hc, if_neg Bool.false_ne_true]
      rfl
    rw [nil_append, hone]
    exact ⟨rfl, fun h => absurd rfl h⟩
  | cons x s ih =>
    rw [cons_append, strsep, strsep]
    cases delim x with
    | true => exact ⟨rfl, fun _ => rfl⟩
    | false =>
      rw [if_neg Bool.false_ne_true, if_neg Bool.false_ne_true]
      exact ⟨ih.1, fun h => congrArg (x :: ·) (ih.2 h)⟩

theorem isContinued_iff : isContinued line = true ↔ ∃ w c, line = w ++ [c] ∧ c.1 = 92 := by
  rw [isContinued, decide_eq_true_iff]
  constructor
  · intro h
    obtain ⟨c, hlast, hc⟩ := map_eq_some_iff.mp h
    obtain ⟨w, rfl⟩ := getLast?_eq_some_iff.mp hlast
    exact ⟨w, c, rfl, hc⟩
  · rintro ⟨w, c, rfl, hc⟩
    rw [getLast?_concat, map_some, hc]

theorem backslash (h : c.1 = 92) : isspace c = false ∧ isEquals c = false := by
  simp [isspace, isEquals, h]

/-- The lines that continue an assignment belong to its value. -/
theorem assignment_cons (first : CString) (more : List CString) :
    assignment (first :: more) = (assignment [first]).map fun a => (a.1, a.2 ++ more.flatten) := by
  rw [assignment, assignment]
  cases strsep isEquals first with
  | mk key value =>
    cases value with
    | none => rfl
    | some value =>
      dsimp only
      rw [Option.map_map]
      refine congrArg (Option.map · _) (funext fun k => ?_)
      rw [Function.comp_apply, flatten_nil, append_nil]

/-- Key and value of a line, before white space around the value is removed. -/
def keyAndValue (line : CString) : Option Assignment :=
  (strsep isEquals line).2.bind fun value =>
    (nameToValue keywords (trim (strsep isEquals line).1)).map fun k => (k, value)

theorem assignment_single (line : CString) :
    assignment [line] = (keyAndValue line).map fun a => (a.1, a.2.dropWhile isspace) := by
  rw [assignment, keyAndValue]
  cases strsep isEquals line with
  | mk key value =>
    cases value with
    | none => rfl
    | some value =>
      dsimp only [Option.bind_some]
      rw [Option.map_map]
      refine congrArg (Option.map · _) (funext fun k => ?_)
      rw [Function.comp_apply, flatten_nil, append_nil]

theorem keyLine_eq (p : Parse) (line : CString) : p.keyLine line =
    (keyAndValue line).elim p.error fun a => Parse.addvalue { p with key := some a.1 } (trim a.2) := by
  rw [Parse.keyLine, keyAndValue]
  have hdelim : strsep (fun c : CChar => decide (c.1 = 61)) line = strsep isEquals line := rfl
  rw [hdelim]
  cases strsep isEquals line with
  | mk key value =>
    cases value with
    | none => rfl
    | some value =>
      dsimp only [Option.bind_some]
      rw [stripWhitespaces_eq, stripWhitespaces_eq]
      cases nameToValue keywords (trim key) with
      | none => rfl
      | some k => rfl

theorem addvalue_continued (p : Parse) (w : CString) (hc : c.1 = 92) :
    p.addvalue (w ++ [c]) = { p with value := p.value ++ w, keyExpected := false } := by
  rw [Parse.addvalue, getLast?_concat, if_pos (by rw [map_some, hc]), dropLast_concat]

theorem addvalue_last (h : isContinued line = false) :
    p.addvalue line = Parse.process { p with value := p.value ++ line } := by
  rw [Parse.addvalue, if_neg (by simpa [isContinued] using h)]

/-- A line that begins with a key and goes on. -/
theorem keyLine_continued (p : Parse) (w : CString) (hc : c.1 = 92) : p.keyLine (w ++ [c]) =
    (assignment [w]).elim p.error fun a => { p with key := some a.1, value := p.value ++ a.2, keyExpected := false } := by
  obtain ⟨hspace, hequals⟩ := backslash hc
  obtain ⟨hrest, hkey⟩ := strsep_concat hequals w
  rw [keyLine_eq, assignment_single, keyAndValue, keyAndValue, hrest]
  cases hv : (strsep isEquals w).2 with
  | none => rfl
  | some value =>
    rw [hkey (by rw [hv]; exact some_ne_none _), map_some, Option.bind_some, Option.bind_some]
    cases nameToValue keywords (trim (strsep isEquals w).1) with
    | none => rfl
    | some k =>
      dsimp only [map_some, elim_some]
      rw [trim_concat hspace, addvalue_continued _ _ hc]

/-- A line that begins with a key and has all of the value. -/
theorem keyLine_last (p : Parse) (h : isContinued line = false) (htrim : Trimmed line) : p.keyLine line =
    (assignment [line]).elim p.error fun a => Parse.process { p with key := some a.1, value := p.value ++ a.2 } := by
  rw [keyLine_eq, assignment_single, keyAndValue]
  cases hs : strsep isEquals line with
  | mk key value =>
    cases value with
    | none => rfl
    | some value =>
      dsimp only [Option.bind_some]
      cases nameToValue keywords (trim key) with
      | none => rfl
      | some k =>
        dsimp only [map_some, elim_some]
        obtain ⟨d, -, rfl⟩ := strsep_some hs
        -- the value ends as the line does
        by_cases hnil : value = []
        · rw [hnil]
          exact addvalue_last rfl
        · have hlast : (key ++ d :: value).getLast? = value.getLast? := by
            rw [append_cons, getLast?_append_of_ne_nil _ hnil]
          obtain ⟨c, hc, hspace⟩ := htrim
          have hvalue : Trimmed value := ⟨c, hlast.symm.trans hc, hspace⟩
          rw [trim_trimmed hvalue]
          refine addvalue_last ?_
          obtain ⟨w, rfl⟩ := getLast?_eq_some_iff.mp (hlast.symm.trans hc)
          rw [isContinued, hc] at h
          rw [isContinued, dropWhile_concat hspace, getLast?_concat]
          exact h

end Line

/-! ### The loop -/

/-- A line that is left, in the loop. -/
def Parse.content (p : Parse) (line : CString) : Parse := if p.keyExpected then p.keyLine line else p.addvalue line

/-- What follows the loop. -/
def Parse.finish (p : Parse) : Bool × Config :=
  let p := if p.key.isSome then p.process else p
  (p.errors == 0, p.config)

/-- The assignments of logical lines, in their order. -/
def evaluate (c : Config) (lls : List (List CString)) : Option Config :=
  lls.foldlM (fun c ps => (assignment ps).bind (assign c)) c

/-- The same behind the start of an assignment. -/
def evaluateFrom (c : Config) (a : Assignment) : List (List CString) → Option Config
  | [] => assign c a
  | ps :: lls => (assign c (a.1, a.2 ++ ps.flatten)).bind fun c => evaluate c lls

/-- The loop and what follows it are right about the configuration. -/
def Reaches (p : Parse) (lines : List CString) (o : Option Config) : Prop :=
  ((lines.foldl Parse.content p).finish.1 = o.isSome) ∧ ∀ c ∈ o, (lines.foldl Parse.content p).finish.2 = c

section Loop

variable {p : Parse} {line : CString} {lines : List CString} {c : Config} {a : Assignment} {k : Key}

theorem errors_process (p : Parse) : p.errors ≤ p.process.errors := by
  rw [Parse.process]
  cases cfgParamProcess p.config p.key p.value with
  | none => exact Nat.le_succ _
  | some config => exact le_rfl

theorem errors_addvalue (p : Parse) (line : CString) : p.errors ≤ (p.addvalue line).errors := by
  rw [Parse.addvalue]
  split
  · exact le_rfl
  · exact errors_process { p with value := p.value ++ line }

theorem errors_content (p : Parse) (line : CString) : p.errors ≤ (p.content line).errors := by
  rw [Parse.content]
  split
  · rw [keyLine_eq]
    cases keyAndValue line with
    | none => exact Nat.le_succ _
    | some a => exact errors_addvalue { p with key := some a.1 } (trim a.2)
  · exact errors_addvalue p line

theorem errors_finish (h : 0 < p.errors) : p.finish.1 = false := by
  rw [Parse.finish]
  dsimp only
  split
  · exact beq_eq_false_iff_ne.mpr (Nat.ne_of_gt (lt_of_lt_of_le h (errors_process p)))
  · exact beq_eq_false_iff_ne.mpr (Nat.ne_of_gt h)

/-- An error is not forgotten. -/
theorem reaches_error (h : 0 < p.errors) (lines : List CString) : Reaches p lines none := by
  refine ⟨?_, fun c hc => by cases hc⟩
  induction lines generalizing p with
  | nil => exact errors_finish h
  | cons line lines ih => exact ih (lt_of_lt_of_le h (errors_content p line))

/-- The state in which a key is expected. -/
def Parse.fresh (c : Config) : Parse := ⟨c, none, [], true, 0⟩

/-- The state in which a value goes on. -/
def Parse.within (c : Config) (a : Assignment) : Parse := ⟨c, some a.1, a.2, false, 0⟩

/-- A complete assignment. -/
theorem process_cases (c : Config) (a : Assignment) (expected : Bool) (errors : ℕ) :
    (∃ c', assign c a = some c' ∧ Parse.process ⟨c, some a.1, a.2, expected, errors⟩ = ⟨c', none, [], true, errors⟩) ∨
      (assign c a = none ∧ 0 < (Parse.process ⟨c, some a.1, a.2, expected, errors⟩).errors) := by
  rw [Parse.process, assign]
  dsimp only
  cases cfgParamProcess c (some a.1) a.2 with
  | none => exact .inr ⟨rfl, Nat.succ_pos _⟩
  | some c' => exact .inl ⟨c', rfl, rfl⟩

/-- Behind a complete assignment the rest is evaluated in its configuration. -/
theorem reaches_process (expected : Bool) (h : ∀ c, Reaches (.fresh c) lines (evaluate c (logicalLines lines))) :
    Reaches (Parse.process ⟨c, some a.1, a.2, expected, 0⟩) lines
      ((assign c a).bind fun c => evaluate c (logicalLines lines)) := by
  rcases process_cases c a expected 0 with ⟨c', hassign, hprocess⟩ | ⟨hassign, herrors⟩
  · rw [hprocess, hassign]
    exact h c'
  · rw [hassign]
    exact reaches_error herrors lines

theorem evaluate_joinLine (c : Config) (first : CString) (lls : List (List CString)) :
    evaluate c (joinLine first lls) = (assignment [first]).bind fun a => evaluateFrom c a lls := by
  cases lls with
  | nil =>
    rw [joinLine, evaluate, foldlM_cons]
    cases assignment [first] with
    | none => rfl
    | some a => exact bind_fun_some (assign c a)
  | cons next rest =>
    rw [joinLine, evaluate, foldlM_cons, assignment_cons]
    cases assignment [first] <;> rfl

theorem evaluateFrom_joinLine (c : Config) (a : Assignment) (first : CString) (lls : List (List CString)) :
    evaluateFrom c a (joinLine first lls) = evaluateFrom c (a.1, a.2 ++ first) lls := by
  cases lls with
  | nil =>
    rw [joinLine, evaluateFrom, evaluateFrom, flatten_singleton]
    exact bind_fun_some _
  | cons next rest => rw [joinLine, evaluateFrom, evaluateFrom, flatten_cons, append_assoc]

/-- The loop makes the assignments of the logical lines, where a key is expected and where a value goes on. -/
theorem reaches_evaluate (hlines : ∀ line ∈ lines, Trimmed line) :
    (∀ c, Reaches (.fresh c) lines (evaluate c (logicalLines lines))) ∧
      ∀ c a, Reaches (.within c a) lines (evaluateFrom c a (logicalLines lines)) := by
  induction lines with
  | nil =>
    refine ⟨fun c => ⟨rfl, fun c' hc => some.inj hc⟩, fun c a => ?_⟩
    have hfinish : (Parse.within c a).finish =
        ((Parse.within c a).process.errors == 0, (Parse.within c a).process.config) := rfl
    rw [Reaches, foldl_nil, hfinish]
    rcases process_cases c a false 0 with ⟨c', hassign, hprocess⟩ | ⟨hassign, herrors⟩
    · have hwithin : (Parse.within c a).process = ⟨c', none, [], true, 0⟩ := hprocess
      rw [hwithin]
      have heval : evaluateFrom c a (logicalLines []) = some c' := hassign
      rw [heval]
      exact ⟨rfl, fun c hc => some.inj hc⟩
    · have heval : evaluateFrom c a (logicalLines []) = none := hassign
      rw [heval]
      exact ⟨beq_eq_false_iff_ne.mpr (Nat.ne_of_gt herrors), fun c hc => by cases hc⟩
  | cons line lines ih =>
    obtain ⟨hfresh, hwithin⟩ := ih fun l hl => hlines l (mem_cons_of_mem _ hl)
    have htrim := hlines line mem_cons_self
    rw [logicalLines]
    cases hcont : isContinued line with
    | true =>
      obtain ⟨w, x, rfl, hx⟩ := isContinued_iff.mp hcont
      rw [if_pos rfl, dropLast_concat]
      refine ⟨fun c => ?_, fun c a => ?_⟩
      · have hstep : (Parse.fresh c).content (w ++ [x]) = (Parse.fresh c).keyLine (w ++ [x]) := rfl
        rw [Reaches, foldl_cons, hstep, keyLine_continued _ w hx, evaluate_joinLine]
        cases assignment [w] with
        | none => exact reaches_error (Nat.succ_pos _) lines
        | some a => exact hwithin c a
      · have hstep : (Parse.within c a).content (w ++ [x]) = (Parse.within c a).addvalue (w ++ [x]) := rfl
        rw [Reaches, foldl_cons, hstep, addvalue_continued _ w hx, evaluateFrom_joinLine]
        exact hwithin c (a.1, a.2 ++ w)
    | false =>
      rw [if_neg Bool.false_ne_true]
      refine ⟨fun c => ?_, fun c a => ?_⟩
      · have hstep : (Parse.fresh c).content line = (Parse.fresh c).keyLine line := rfl
        rw [Reaches, foldl_cons, hstep, keyLine_last _ hcont htrim, evaluate, foldlM_cons]
        cases assignment [line] with
        | none => exact reaches_error (Nat.succ_pos _) lines
        | some a => exact reaches_process true hfresh
      · have hstep : (Parse.within c a).content line = (Parse.within c a).addvalue line := rfl
        rw [Reaches, foldl_cons, hstep, addvalue_last hcont, evaluateFrom, flatten_singleton]
        exact reaches_process (a := (a.1, a.2 ++ line)) false hfresh

end Loop

/-! ### The text -/

section Text

variable {p : Parse} {buf : List UInt8} {text : List UInt8}

/-- The buffer is in front of the line that it begins. -/
theorem length_le_beforeLines {b : UInt8} {n : ℕ} (lines : List (List UInt8))
    (h : ∀ line ∈ beforeLines (buf ++ [b]) lines, line.length < n) : (buf ++ [b]).length < n := by
  cases lines with
  | nil =>
    rw [beforeLines, if_neg (by simp)] at h
    exact h _ mem_cons_self
  | cons line lines =>
    have := h _ mem_cons_self
    rw [length_append] at this
    omega

/-- Where the lines are short, each call of `fgets` reads one. -/
theorem fgetsAll_eq (h : ∀ line ∈ beforeLines buf (textLines text), line.length < bufSize - 1) :
    fgetsAll text buf = beforeLines buf (textLines text) := by
  induction text generalizing buf with
  | nil => rfl
  | cons b text ih =>
    rw [fgetsAll]
    by_cases hb : b = 10
    · rw [hb, textLines_newline] at h ⊢
      rw [if_pos (.inl rfl), beforeLines, ih, beforeLines_nil]
      rw [beforeLines_nil]
      exact fun line hline => h line (mem_cons_of_mem _ hline)
    · rw [beforeLines_textLines hb] at h ⊢
      have hlen := length_le_beforeLines _ h
      rw [if_neg (by rintro (h10 | hfull); exacts [hb h10, absurd hfull (ne_of_lt hlen)]), ih h]

theorem isContent_eq_false {line : CString} :
    isContent line = false ↔ line = [] ∨ line.head?.map Subtype.val = some 35 := by
  rw [isContent, Bool.not_eq_false', Bool.or_eq_true, List.isEmpty_iff, decide_eq_true_iff]

/-- The body of the loop, on a line that is short. -/
theorem line_eq (p : Parse) (h : buf.length < bufSize - 1) : p.line buf =
    if isContent (trim (cString buf)) then p.content (trim (cString buf)) else p := by
  have hlen := length_cString_le buf
  rw [Parse.line, if_neg (by omega), stripWhitespaces_eq]
  dsimp only
  generalize trim (cString buf) = line
  by_cases hline : line = [] ∨ line.head?.map Subtype.val = some 35
  · rw [if_pos hline, isContent_eq_false.mpr hline, if_neg Bool.false_ne_true]
  · have hyes : isContent line = true := Bool.not_eq_false _ ▸ isContent_eq_false.not.mpr hline
    rw [if_neg hline, hyes, if_pos rfl, Parse.content]

theorem foldl_line (p : Parse) (bufs : List (List UInt8)) (h : ∀ buf ∈ bufs, buf.length < bufSize - 1) :
    bufs.foldl Parse.line p = ((bufs.map fun buf => trim (cString buf)).filter isContent).foldl Parse.content p := by
  induction bufs generalizing p with
  | nil => rfl
  | cons buf bufs ih =>
    have hbufs := fun b hb => h b (mem_cons_of_mem buf hb)
    rw [foldl_cons, line_eq p (h buf mem_cons_self), map_cons]
    cases hcont : isContent (trim (cString buf)) with
    | true =>
      rw [if_pos rfl, filter_cons_of_pos hcont, foldl_cons]
      exact ih _ hbufs
    | false =>
      rw [if_neg Bool.false_ne_true, filter_cons_of_neg (by simp [hcont])]
      exact ih p hbufs

theorem trimmed_contentLines (text : List UInt8) : ∀ line ∈ contentLines text, Trimmed line := by
  intro line hline
  obtain ⟨hmem, hcont⟩ := mem_filter.mp hline
  obtain ⟨buf, -, rfl⟩ := mem_map.mp hmem
  refine trimmed_trim fun hnil => ?_
  rw [hnil] at hcont
  cases hcont

theorem cfgParseFile_eq (h : ShortLines text) (c : Config) :
    cfgParseFile text c = ((contentLines text).foldl Parse.content (.fresh c)).finish := by
  have hread : fgetsAll text [] = textLines text := by
    have hread : fgetsAll text [] = beforeLines [] (textLines text) := fgetsAll_eq (by rw [beforeLines_nil]; exact h)
    rwa [beforeLines_nil] at hread
  have hfold : (textLines text).foldl Parse.line (.fresh c) = (contentLines text).foldl Parse.content (.fresh c) :=
    foldl_line _ _ h
  rw [← hfold, ← hread]
  rfl

theorem evaluate_eq (c : Config) (lls : List (List CString)) :
    evaluate c lls = (lls.mapM assignment).bind fun as => as.foldlM assign c := by
  induction lls generalizing c with
  | nil => rfl
  | cons ps lls ih =>
    rw [evaluate, foldlM_cons, mapM_cons]
    cases assignment ps with
    | none => rfl
    | some a =>
      have hleft : ((some a).bind (assign c) >>= fun c => evaluate c lls) =
          (assign c a).bind fun c => (lls.mapM assignment).bind fun as => as.foldlM assign c :=
        congrArg ((assign c a).bind ·) (funext fun c => ih c)
      refine hleft.trans ?_
      cases lls.mapM assignment with
      | none => cases assign c a <;> rfl
      | some as => exact (foldlM_cons (f := assign)).symm

/-- A file of short lines is accepted if and only if its logical lines are valid assignments, and then these are
    what the configuration gets. -/
theorem cfgParseFile_spec (h : ShortLines text) (c : Config) :
    ((cfgParseFile text c).1 = true ↔ ∃ as, assignments text = some as ∧ as.all Valid = true) ∧
      ∀ as, assignments text = some as → as.all Valid = true → (cfgParseFile text c).2 = collect c as := by
  have hreach := (reaches_evaluate (trimmed_contentLines text)).1 c
  rw [Reaches, ← cfgParseFile_eq h, evaluate_eq] at hreach
  obtain ⟨hok, hconfig⟩ := hreach
  have hassign : assignments text = (logicalLines (contentLines text)).mapM assignment := rfl
  rw [← hassign] at hok hconfig
  refine ⟨?_, fun as has hall => hconfig _ ?_⟩
  · rw [hok]
    cases assignments text with
    | none => simp
    | some as => simp [foldlM_assign]
  · rw [has, Option.bind_some, foldlM_assign, if_pos hall]
    rfl

end Text

end Anoubis.Cfg

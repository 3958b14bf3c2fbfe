import Anoubis.Apn.Grammar

/-! Parsing a policy (`apn_parse`, `apn_parse_iovec`).

    The current grammar is tried first; a text that it rejects and that declares version 0.42 is given
    to the old grammar. Each grammar has static variables of its own, of which the pushed back
    characters survive a parse.

        apn_parse_common --> apn_parse1 --> yyparse --> apn_assign_ids --> init_sfs_rule        -/

namespace Anoubis.Apn

open Anoubis.Lib Anoubis.Lib.Syn

/-- `pushback_buffer` of the two grammars. -/
structure Statics where
  current : Text
  v042 : Text
  deriving DecidableEq

def Statics.get (st : Statics) : Dialect → Text
  | .current => st.current
  | .v042 => st.v042

def Statics.set (st : Statics) (d : Dialect) (pb : Text) : Statics :=
  match d with
  | .current => { st with current := pb }
  | .v042 => { st with v042 := pb }

/-- A process that has not parsed anything. -/
def Statics.init : Statics := ⟨[], []⟩

/-! ### Input -/

/-- `u_iov`: the vectors, the current one and the position in it. -/
structure IovState where
  vec : List Text
  cvec : ℕ
  cidx : ℕ

/-- `llgetc` on an iovec, with at most `n` steps to the next vector. -/
def llgetcIovec : ℕ → IovState → Option Char × IovState
  | 0, f => (none, f)
  | n + 1, f =>
    match f.vec[f.cvec]? with
    | none => (none, f)
    | some iov =>
      match iov[f.cidx]? with
      | none => llgetcIovec n { f with cvec := f.cvec + 1, cidx := 0 }
      | some c => (some c, { f with cidx := f.cidx + 1 })

/-- All bytes that `llgetc` returns before EOF. -/
def readIovec : ℕ → IovState → Text
  | 0, _ => []
  | n + 1, f =>
    match llgetcIovec (f.vec.length + 1) f with
    | (none, _) => []
    | (some c, f) => c :: readIovec n f

/-- The text of an iovec as the lexer sees it. -/
def iovecText (vec : List Text) : Text := readIovec (vec.flatten.length + 1) ⟨vec, 0, 0⟩

/-! ### One grammar -/

/-- What `yyparse` leaves behind: the errors that were counted, the ruleset, the number of rules that
    were allocated, and `pushback_buffer`. -/
structure Parsed where
  errs : List Text
  rs : Ruleset
  next : ℕ
  pushback : Text

/-- The ruleset that `apn_parse1` allocates; the address does not matter before it is installed. -/
def emptyRuleset (flags : ℕ) : Ruleset :=
  { ptr := 0, flags := flags, version := 0, maxid := 1, idtree := [], alfQueue := [], sfsQueue := []
    sbQueue := [], ctxQueue := [] }

/-- The state of the lexer behind the last token that was read. -/
def leftover (toks : List (Tok × LexState)) (unread : List Tok) (pb : Text) : Text :=
  ((toks[toks.length - unread.length - 1]?).map (fun t => t.2.pushback)).getD pb

/-- `yyparse` with the characters `pb` pushed back. -/
def yyparse (e : Env) (pb text : Text) : Parsed :=
  let toks := lexText e.d ⟨pb, text⟩
  match (policy e).run ⟨emptyRuleset e.flags, 0⟩ (toks.map (·.1)) with
  | .ok _ s rest errs => ⟨errs, s.rs, s.next, leftover toks rest pb⟩
  | .fail s unread errs => ⟨errs, s.rs, s.next, leftover toks unread pb⟩

/-- What the caller of `apn_parse` gives and what the system adds. -/
structure Input where
  lc : Libc
  flags : ℕ
  addr : ℕ → ℕ
  text : Text

def Input.env (i : Input) (d : Dialect) : Env := ⟨i.lc, d, i.flags, i.addr⟩

/-- The queues are freed after an error. -/
def freeQueues (rs : Ruleset) : Ruleset :=
  { rs with idtree := [], alfQueue := [], sfsQueue := [], sbQueue := [], ctxQueue := [] }

/-- `if (ret == 0) ret = init_sfs_rule(rs)`, with the SFS block at address `ptr`. -/
def initIfOk (ok : Bool) (s : RsState) (ptr : ℕ) : Option (ℤ × RsState) :=
  if ok then initSfsRule s ptr else some (1, s)

/-- `apn_parse1` behind `yyparse`. -/
def finishParse (ok : Bool) (s : RsState) (ptr : ℕ) : Option (ℤ × RsState) := do
  let s ← apnAssignIds s
  let (ret, s) ← initIfOk ok s ptr
  some (ret, if ret = 0 then s else { s with rs := freeQueues s.rs })

/-! ### Both grammars -/

/-- A return value of `apn_parse` with the ruleset, the random numbers left and the static state. -/
structure ParseResult where
  ret : ℤ
  rs : Ruleset
  rnd : Rand
  statics : Statics

/-- `apn_parse1`. The SFS block of `init_sfs_rule` is allocated behind the rules of the text. -/
def apnParse1 (d : Dialect) (i : Input) (st : Statics) (rnd : Rand) : Option ParseResult := do
  let p := yyparse (i.env d) (st.get d) i.text
  let (ret, s) ← finishParse p.errs.isEmpty ⟨p.rs, rnd⟩ (i.addr p.next)
  some ⟨ret, s.rs, s.rnd, st.set d p.pushback⟩

/-- Successful parsing converts the ruleset to the current version. -/
def ParseResult.converted (r : ParseResult) : ParseResult :=
  if r.ret = 0 then { r with rs := { r.rs with version := apnVersion } } else r

/-- `apn_parse_common`. -/
def apnParse (i : Input) (st : Statics) (rnd : Rand) : Option ParseResult := do
  let r ← apnParse1 .current i st rnd
  if r.ret ≠ 0 ∧ r.rs.version ≠ 0 ∧ minVersion .v042 ≤ r.rs.version ∧
      r.rs.version ≤ maxVersion .v042 then
    let r ← apnParse1 .v042 i r.statics r.rnd
    some r.converted
  else some r.converted

/-- `apn_parse_iovec`. -/
def apnParseIovec (i : Input) (vec : List Text) (st : Statics) (rnd : Rand) : Option ParseResult :=
  apnParse { i with text := iovecText vec } st rnd

/-! ### Sample inputs -/

/-- A text for a system without addresses and services, flags 0. -/
def plain (text : String) : Input :=
  ⟨⟨fun _ => none, fun _ => none, fun _ => none, fun _ _ => none, fun _ => []⟩, 0, id, text.toList⟩

/-- `rand()` returns 0. -/
def zeros : Rand := ⟨fun _ => 0, 0⟩

end Anoubis.Apn

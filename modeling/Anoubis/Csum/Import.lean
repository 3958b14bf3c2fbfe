import Anoubis.Lib.CString
import Mathlib.Algebra.Group.Nat.Defs
import Mathlib.Data.List.Basic

/-! Reading checksums from a file (`fname.l`, `csum_import.y`).

    A line holds the name of a file, its checksum with a uid, and a signature with the ID of its key. A `-` stands
    where one of the two is missing.

        /bin/ls 0 9f…31 - ⏎              name -> csentry -> sigentry -> line
        /etc/my\ file - a0…11 17…e5 ⏎      1         2          3        1      symbols of a line on the stack

    The list of the lines is right recursive: all lines are on the parser's stack until the last one is read, and the
    records are linked while they are taken from it, the last one first.

    Memory is not exhausted, and no token is longer than an `int` can count. -/

namespace Anoubis.Csum

open Anoubis.Lib

/-- `struct sfs_entry` without its link and its lengths. -/
structure SfsEntry where
  name : CString
  uid : UInt32
  checksum : Option (List UInt8)
  keyid : Option (List UInt8)
  signature : Option (List UInt8)
  deriving DecidableEq

/-- `ANOUBIS_CS_LEN`. -/
def csLen : ℕ := 32

/-! ### Characters -/

/-- `{W}`. -/
def isW (c : UInt8) : Bool := c == 32 || c == 9 || c == 10

/-- `{H}`. -/
def isH (c : UInt8) : Bool := (48 ≤ c && c ≤ 57) || (97 ≤ c && c ≤ 102) || (65 ≤ c && c ≤ 70)

/-- `{O}`. -/
def isO (c : UInt8) : Bool := 48 ≤ c && c ≤ 55

/-- isprint(3) in the C locale. -/
def isprint (c : UInt8) : Bool := 32 ≤ c && c ≤ 126

def isDigit (c : UInt8) : Bool := 48 ≤ c && c ≤ 57

/-- `chartohex`. -/
def chartohex (c : UInt8) : Option UInt8 :=
  if 48 ≤ c ∧ c ≤ 57 then some (c - 48)
  else if 65 ≤ c ∧ c ≤ 70 then some (10 + c - 65)
  else if 97 ≤ c ∧ c ≤ 102 then some (10 + c - 97)
  else none

/-- The pairs of digits in `string2hex`. -/
def hexBytes : List UInt8 → Option (List UInt8)
  | [] => some []
  | [_] => some []
  | h :: l :: rest => do
    let high ← chartohex h
    let low ← chartohex l
    let bytes ← hexBytes rest
    pure ((high * 16 + low) :: bytes)

/-- `string2hex`. A slash behind an odd number of digits is left out. -/
def string2hex (hex : CString) : Option (List UInt8) :=
  let s := hex.map Subtype.val
  if s.length % 2 = 0 ∨ s.getLast? = some 47 then hexBytes s else none

/-- The bytes, if there are any. -/
def nonempty (bytes : List UInt8) : Option (List UInt8) := if bytes = [] then none else some bytes

/-- `sscanf(s, "%d%c", &uid, &test_char)` where it returns 1, for hex digits: the number is a `long` first. -/
def scanUid (uid : CString) : Option UInt32 :=
  let s := uid.map Subtype.val
  if s ≠ [] ∧ s.all isDigit then
    some (UInt32.ofNat (min (s.foldl (fun n c => 10 * n + (c.toNat - 48)) 0) (2 ^ 63 - 1)))
  else none

/-! ### The token buffer -/

/-- `sizeof(buf)`: `MAXLINE`. -/
def bufSize : ℕ := 4096 + csLen + 8192

/-- `buf` and `buflen`: what was copied, and how long it should be. -/
structure TokenBuf where
  bytes : List UInt8
  buflen : ℕ
  deriving DecidableEq

def TokenBuf.empty : TokenBuf := ⟨[], 0⟩

/-- `APPEND`. With a full buffer the length that is left wraps around: the copy is `none`, outside of the buffer. -/
def TokenBuf.append (b : TokenBuf) (s : List UInt8) : Option TokenBuf :=
  if s.length + b.buflen < bufSize then some ⟨b.bytes ++ s, b.buflen + s.length⟩
  else if b.buflen < bufSize then some ⟨b.bytes ++ s.take (bufSize - b.buflen - 1), b.buflen + s.length⟩
  else none

/-- `PRODUCE` for a token with a string. Its NUL is outside of the buffer if the string is too long. -/
def TokenBuf.produce (b : TokenBuf) : Option CString := if b.buflen < bufSize then some (cString b.bytes) else none

/-! ### The lexer -/

/-- What a call of `yylex` ends with: a token, or a write outside of `buf`. The end of the file is the end of the list
    of tokens. -/
inductive Tok where
  | badchar
  | minus
  | hex (s : CString)
  | newline
  | filename (s : CString)
  | overflow
  deriving DecidableEq

/-- The start condition, and the buffer in a file name. -/
inductive Mode where
  | initial
  | filename (b : TokenBuf)
  deriving DecidableEq

/-- The action of a rule: its tokens, the start condition behind it, and how many more characters matched. -/
structure Action where
  toks : List Tok
  mode : Mode
  skip : ℕ
  deriving DecidableEq

/-- Characters for the file name. -/
def Action.name (b : Option TokenBuf) (skip : ℕ) : Action :=
  b.elim ⟨[.overflow], .initial, 0⟩ fun b => ⟨[], .filename b, skip⟩

/-- `yyless(0)`: the file name ends, and the character is matched again. -/
def Action.again (b : TokenBuf) (a : Action) : Action := { a with toks := b.produce.elim .overflow .filename :: a.toks }

/-- The rules without a start condition, for the next character and what is behind it. -/
def initialRule (c : UInt8) (rest : List UInt8) : Action :=
  let digits := rest.takeWhile isH
  if c = 45 ∧ rest.head?.any isW then ⟨[.minus], .initial, 0⟩
  else if c = 47 then .name (TokenBuf.empty.append [c]) 0
  else if isH c ∧ (rest.dropWhile isH).head?.any isW then
    ⟨[((TokenBuf.empty.append (c :: digits)).bind TokenBuf.produce).elim .overflow .hex], .initial, digits.length⟩
  else if c = 10 then ⟨[.newline], .initial, 0⟩
  else if isW c then ⟨[], .initial, 0⟩
  else ⟨[.badchar], .initial, 0⟩

/-- The character of three octal digits; a `char` holds it modulo 256. -/
def octal (digits : List UInt8) : UInt8 := digits.foldl (fun n d => n * 8 + (d - 48)) 0

/-- The rules of a file name. -/
def filenameRule (b : TokenBuf) (c : UInt8) (rest : List UInt8) : Action :=
  let digits := (rest.takeWhile isO).take 3
  if c = 92 ∧ rest.head? = some 92 then .name (b.append [92]) 1
  else if c = 92 ∧ rest.head?.any (fun d => isW d && d != 10) then .name (b.append (rest.take 1)) 1
  else if c = 92 ∧ digits.length = 3 then .name (b.append [octal digits]) 3
  else if c ≠ 92 ∧ isprint c ∧ isW c = false then .name (b.append [c]) 0
  else .again b (initialRule c rest)

def rule : Mode → UInt8 → List UInt8 → Action
  | .initial => initialRule
  | .filename b => filenameRule b

/-- All calls of `yylex` on a text. The number counts the characters that have matched already. -/
def lex : ℕ → Mode → List UInt8 → List Tok
  | _, _, [] => []
  | n + 1, m, _ :: text => lex n m text
  | 0, m, c :: text => (rule m c text).toks ++ lex (rule m c text).skip (rule m c text).mode text

/-- The tokens of a text. -/
def tokens (text : List UInt8) : List Tok := lex 0 .initial text

/-! ### The parser -/

/-- A checksum with its uid. -/
abbrev CsumEntry := UInt32 × List UInt8

/-- A key ID and a signature. -/
abbrev SigEntry := List UInt8 × List UInt8

/-- `csentry` for two strings of digits. -/
def csentry (uid csum : CString) : Option CsumEntry := do
  let uid ← scanUid uid
  let csum ← string2hex csum
  if csum.length = csLen then pure (uid, csum) else none

/-- `sigentry` for two strings of digits. -/
def sigentry (keyid sign : CString) : Option SigEntry := do
  let keyid ← (string2hex keyid).bind nonempty
  let sign ← (string2hex sign).bind nonempty
  pure (keyid, sign)

/-- The entry of a line. -/
def lineEntry (name : CString) (cs : Option CsumEntry) (sig : Option SigEntry) : SfsEntry where
  name := name
  uid := cs.elim 0 Prod.fst
  checksum := cs.map Prod.snd
  keyid := sig.map Prod.fst
  signature := sig.map Prod.snd

/-- The symbols of the line so far. -/
inductive Item where
  | start
  | name (n : CString)
  | uid (n uid : CString)
  | cs (n : CString) (cs : Option CsumEntry)
  | keyid (n : CString) (cs : Option CsumEntry) (keyid : CString)
  | sig (n : CString) (cs : Option CsumEntry) (sig : Option SigEntry)
  deriving DecidableEq

/-- How many of them are on the stack. -/
def Item.height : Item → ℕ
  | .start => 0
  | .name _ => 1
  | .uid _ _ => 2
  | .cs _ _ => 2
  | .keyid _ _ _ => 3
  | .sig _ _ _ => 3

/-- What the parser does with a token: it is shifted, and then a symbol of the line, the line or nothing can be
    reduced; or it cannot be part of the line; or no other line begins with it. -/
inductive Next where
  | shift (i : Item)
  | line (e : Option SfsEntry)
  | abort
  | reject
  | close
  | overflow
  deriving DecidableEq

def Item.next : Item → Tok → Next
  | _, .overflow => .overflow
  | .start, .newline => .line none
  | .start, .filename n => .shift (.name n)
  | .start, _ => .close
  | .name n, .minus => .shift (.cs n none)
  | .name n, .hex u => .shift (.uid n u)
  | .uid n u, .hex h => (csentry u h).elim .abort fun e => .shift (.cs n (some e))
  | .cs n c, .minus => .shift (.sig n c none)
  | .cs n c, .hex k => .shift (.keyid n c k)
  | .keyid n c k, .hex h => (sigentry k h).elim .abort fun e => .shift (.sig n c (some e))
  | .sig n c s, .newline => .line (some (lineEntry n c s))
  | _, _ => .reject

/-- The end of `import_csum`: a write outside of the token buffer, a missing record of which the link is set, the
    parser's stack exhausted, NULL after a syntax error, or the records. -/
inductive Outcome where
  | overflow
  | nullDeref
  | exhausted
  | syntaxError
  | records (rs : List SfsEntry)
  deriving DecidableEq

/-- The symbols that fit on the stack: `YYMAXDEPTH` states, the first one and room for one more are not symbols. -/
def stackRoom : ℕ := 9998

/-- `$1->next = result; result = $1;` -/
def linkLine (result : Option (List SfsEntry)) (line : Option SfsEntry) : Option (List SfsEntry) :=
  result.bind fun rs => line.map fun e => e :: rs

/-- `file` reduced for the lines on the stack, the last one on top, and then the token behind them. -/
def reduceFile (lines : List (Option SfsEntry)) (eof : Bool) : Outcome :=
  if lines.length + 1 ≤ stackRoom then
    (lines.foldl linkLine (some [])).elim .nullDeref fun rs => if eof then .records rs else .syntaxError
  else .exhausted

/-- `yyparse` with the lines on the stack. A new line needs no lookahead, a token that cannot begin one reduces
    `file`. -/
def yyparse (lines : List (Option SfsEntry)) : Item → List Tok → Outcome
  | i, [] => if i = .start then reduceFile lines true else .syntaxError
  | i, t :: ts =>
    let room := lines.length + i.height + 1 ≤ stackRoom
    match i.next t with
    | .shift j => if room then yyparse lines j ts else .exhausted
    | .line e => if room then yyparse (e :: lines) .start ts else .exhausted
    | .abort => if room then .syntaxError else .exhausted
    | .reject => .syntaxError
    | .close => reduceFile lines false
    | .overflow => .overflow

/-- `import_csum`. -/
def importCsum (text : List UInt8) : Outcome := yyparse [] .start (tokens text)

end Anoubis.Csum

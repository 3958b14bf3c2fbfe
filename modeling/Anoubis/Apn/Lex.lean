import Anoubis.Apn.Types

/-! The lexer of the policy language (`yylex` of `parse.y` and `parse_v042.y`).

    A text is a list of bytes. Characters that were read too far go to `pushback_buffer`, a static
    buffer of type `char` that holds at most 127 of them; a byte from 0x80 on comes back from it as a
    negative number, 0xFF as EOF. yacc takes a token that is not positive for the end of the text.

        text -- lgetc --> yylex --> token            pushback <-- lungetc

    Both grammars share the lexer up to the keywords and the escapes in quoted strings. -/

namespace Anoubis.Apn

/-- `parse.y` and `parse_v042.y`. -/
inductive Dialect where
  | current
  | v042
  deriving DecidableEq

/-- Tokens that have no value. -/
inductive Kw where
  | colon | accept | alert | alf | all | allow | any | apnversion | application | ask | borrow | both
  | cap | chmod | connect | context | continue | default | deny | exec | file | fromKw | host | inet
  | inet6 | invalid | key | log | new | nosfs | openKw | other | path | pgforce | pgonly | port | raw
  | read | receive | rule | sb | sctp | self | send | sfs | signedSelf | task | tcp | to | udp | uid
  | unknown | until | valid | write
  deriving DecidableEq

/-- How the text ended: at its end, inside a quoted string, or at a byte that reads as end. -/
inductive Eof where
  | endOfInput
  | inString
  | byte
  deriving DecidableEq

/-- What `yylex` returns; `error` is ERROR with the message that was reported. -/
inductive Tok where
  | kw (k : Kw)
  | str (s : Text)
  | num (n : ℤ)
  | ch (c : Char)
  | error (msg : Text)
  | eof (e : Eof)
  deriving DecidableEq

def Tok.isEof : Tok → Bool
  | .eof _ => true
  | _ => false

/-- The keywords that both grammars have. -/
def commonKeywords : List (String × Kw) :=
  [(":", .colon), ("accept", .accept), ("alert", .alert), ("all", .all), ("allow", .allow),
    ("any", .any), ("apnversion", .apnversion), ("application", .application), ("ask", .ask),
    ("borrow", .borrow), ("both", .both), ("cap", .cap), ("chmod", .chmod), ("connect", .connect),
    ("continue", .continue), ("default", .default), ("deny", .deny), ("exec", .exec), ("file", .file),
    ("from", .fromKw), ("host", .host), ("inet", .inet), ("inet6", .inet6), ("invalid", .invalid),
    ("key", .key), ("log", .log), ("new", .new), ("open", .openKw), ("other", .other), ("path", .path),
    ("port", .port), ("raw", .raw), ("read", .read), ("receive", .receive), ("rule", .rule),
    ("self", .self), ("send", .send), ("signed-self", .signedSelf), ("task", .task), ("tcp", .tcp),
    ("to", .to), ("udp", .udp), ("uid", .uid), ("unknown", .unknown), ("until", .until),
    ("valid", .valid), ("write", .write)]

/-- `keywords` of one grammar. -/
def keywords : Dialect → List (String × Kw)
  | .current => commonKeywords ++ [("alf", .alf), ("context", .context), ("nosfs", .nosfs),
      ("pgforce", .pgforce), ("pgonly", .pgonly), ("sandbox", .sb), ("sb", .sb), ("sctp", .sctp),
      ("sfs", .sfs)]
  | .v042 => commonKeywords ++ [("arthur", .alf), ("ford", .sb), ("marvin", .context),
      ("trillian", .sfs), ("zaphod", .sb)]

/-- `lookup`. -/
def lookup (d : Dialect) (s : Text) : Tok :=
  match (keywords d).find? (fun k => k.1.toList = s) with
  | some k => .kw k.2
  | none => .str s

/-! ### Characters -/

/-- What `lgetc` returns: EOF, a byte, or a byte from 0x80 on that was pushed back. -/
inductive In where
  | eof
  | byte (c : Char)
  | neg (c : Char)
  deriving DecidableEq

/-- `c == EOF`. -/
def In.isEof : In → Bool
  | .eof => true
  | .byte _ => false
  | .neg c => c.toNat = 255

/-- The static state of a lexer: `pushback_buffer`, last character first, and the text to come. -/
structure LexState where
  pushback : Text
  input : Text
  deriving DecidableEq

def LexState.size (s : LexState) : ℕ := s.pushback.length + s.input.length

/-- MAXPUSHBACK. -/
def maxPushback : ℕ := 128

/-- `pushback_buffer[--pushback_index]`. -/
def popped (c : Char) : In := if 128 ≤ c.toNat then .neg c else .byte c

/-- The input with its backslashes: an escaped newline is skipped, another escaped character is taken
    as it is. -/
def readInput : Text → In × Text
  | [] => (.eof, [])
  | ['\\'] => (.eof, [])
  | '\\' :: '\n' :: rest => readInput rest
  | '\\' :: c :: rest => (.byte c, rest)
  | c :: rest => (.byte c, rest)

/-- `lgetc(0)`. -/
def lgetc (s : LexState) : In × LexState :=
  match s.pushback with
  | c :: pb => (popped c, ⟨pb, s.input⟩)
  | [] => ((readInput s.input).1, ⟨[], (readInput s.input).2⟩)

/-- `lgetc(quotec)`. -/
def lgetcQuoted (s : LexState) : In × LexState :=
  match s.pushback, s.input with
  | c :: pb, input => (popped c, ⟨pb, input⟩)
  | [], c :: input => (.byte c, ⟨[], input⟩)
  | [], [] => (.eof, s)

/-- `lungetc`. -/
def lungetc (i : In) (s : LexState) : LexState :=
  match i with
  | .eof => s
  | .byte c =>
    if s.pushback.length < maxPushback - 1 then { s with pushback := c :: s.pushback } else s
  | .neg c =>
    if c.toNat ≠ 255 ∧ s.pushback.length < maxPushback - 1 then { s with pushback := c :: s.pushback }
    else s

/-- `isspace` in the C locale. -/
def isspace (c : Char) : Bool :=
  c = ' ' || c = '\t' || c = '\n' || c = '\x0b' || c = '\x0c' || c = '\r'

/-- `ispunct` in the C locale. -/
def ispunct (c : Char) : Bool := 33 ≤ c.toNat && c.toNat ≤ 126 && !c.isAlphanum

/-- `allowed_to_end_number`. -/
def allowedToEndNumber (c : Char) : Bool :=
  isspace c || c = ')' || c = ',' || c = '/' || c = '}' || c = ':' || c = '='

/-- `c == EOF || allowed_to_end_number(c)`. -/
def In.endsNumber : In → Bool
  | .eof => true
  | .byte c => allowedToEndNumber c
  | .neg c => c.toNat = 255

/-- `allowed_in_string`. -/
def allowedInString (c : Char) : Bool :=
  c.isAlphanum || (ispunct c && c ≠ '(' && c ≠ ')' && c ≠ '\x7b' && c ≠ '\x7d' && c ≠ '<' && c ≠ '>' &&
    c ≠ '!' && c ≠ '=' && c ≠ '#' && c ≠ ',')

/-- `isalnum(c) || c == ':' || c == '/'`. -/
def startsString (c : Char) : Bool := c.isAlphanum || c = ':' || c = '/'

/-! ### Loops -/

/-- Skip blanks; the first other character. The bound on the rounds is the size of the state. -/
def skipBlanks : ℕ → LexState → In × LexState
  | 0, s => (.eof, s)
  | n + 1, s =>
    match lgetc s with
    | (.byte c, s') => if c = ' ' ∨ c = '\t' then skipBlanks n s' else (.byte c, s')
    | r => r

/-- Read to the end of the line. -/
def skipLine : ℕ → LexState → In × LexState
  | 0, s => (.eof, s)
  | n + 1, s =>
    match lgetc s with
    | (i, s') => if i = .byte '\n' ∨ i.isEof then (i, s') else skipLine n s'

/-- `findeol`: drop what was pushed back and read to the end of the line. -/
def findeol (s : LexState) : LexState := (skipLine (s.input.length + 1) ⟨[], s.input⟩).2

/-- The messages that the two grammars spell differently. -/
def spell (d : Dialect) (first : Char) (rest : String) : Text :=
  match d with
  | .current => first.toUpper :: rest.toList
  | .v042 => first :: rest.toList

/-- `sizeof(buf)` in `yylex`. -/
def bufSize : ℕ := 8096

/-- Is `next` taken for itself after a backslash in a string quoted by `q`? -/
def escapes (d : Dialect) (q next : Char) : Bool :=
  match d with
  | .current => next = q || next = '\\' || next = ' ' || next = '\t'
  | .v042 => next = q

/-- The end of the text inside a quoted string. -/
def eofQuoted (i : In) : Tok := .eof (if i = .eof then .inString else .byte)

/-- The character that is not EOF. -/
def In.char : In → Char
  | .eof => '\x00'
  | .byte c => c
  | .neg c => c

/-- The loop over a quoted string; `acc` is `buf` in reverse order. -/
def quoted (d : Dialect) (q : Char) : ℕ → Text → LexState → Tok × LexState
  | 0, _, s => (.eof .inString, s)
  | n + 1, acc, s =>
    let store (c : Char) (s : LexState) : Tok × LexState :=
      if bufSize ≤ acc.length + 2 then (.error (spell d 's' "tring too long"), findeol s)
      else quoted d q n (c :: acc) s
    match lgetcQuoted s with
    | (i, s) =>
      if i.isEof then (eofQuoted i, s)
      else if i.char = '\n' then quoted d q n acc s
      else if i.char = '\\' then
        match lgetcQuoted s with
        | (j, s) =>
          if j.isEof then (eofQuoted j, s)
          else if escapes d q j.char then store j.char s
          else if j.char = '\n' then quoted d q n acc s
          else store '\\' (lungetc j s)
      else if i.char = q then (.str (acc.reverse.takeWhile (fun c => c ≠ '\x00')), s)
      else store i.char s

/-- The `do … while` loops over digits and strings: the characters read, in reverse order, the first
    other one, and whether the buffer is full. -/
def collect (p : Char → Bool) : ℕ → Text → LexState → Bool × Text × In × LexState
  | 0, acc, s => (false, acc, .eof, s)
  | n + 1, acc, s =>
    if bufSize ≤ acc.length then (true, acc, .eof, s)
    else match lgetc s with
      | (.byte c, s') => if p c then collect p n (c :: acc) s' else (false, acc, .byte c, s')
      | (i, s') => (false, acc, i, s')

/-- The value of a string of digits. -/
def decimal (ds : Text) : ℕ := ds.foldl (fun n c => 10 * n + (c.toNat - '0'.toNat)) 0

/-- LLONG_MIN and LLONG_MAX. -/
def llongMin : ℤ := -2 ^ 63
def llongMax : ℤ := 2 ^ 63 - 1

/-- `strtonum(buf, LLONG_MIN, LLONG_MAX, &errstr)` for an optional minus sign and digits. -/
def strtonum (buf : Text) : ℤ ⊕ String :=
  let v : ℤ := match buf with
    | '-' :: ds => -(decimal ds : ℤ)
    | ds => decimal ds
  if v < llongMin then .inr "too small" else if llongMax < v then .inr "too large" else .inl v

/-! ### Tokens -/

/-- The part of `yylex` for strings and single characters. -/
def lexWord (d : Dialect) (i : In) (s : LexState) : Tok × LexState :=
  match i with
  | .eof => (.eof .endOfInput, s)
  | .neg _ => (.eof .byte, s)
  | .byte c =>
    if startsString c then
      match collect allowedInString (s.size + 1) [c] s with
      | (true, _, _, s) => (.error (spell d 's' "tring too long"), findeol s)
      | (false, acc, i, s) => (lookup d acc.reverse, lungetc i s)
    else if c = '\x00' then (.eof .byte, s)
    else (.ch c, s)

/-- The part of `yylex` for numbers, which goes on with the first digit if there is no number. -/
def lexNumber (d : Dialect) (c : Char) (s : LexState) : Tok × LexState :=
  match collect Char.isDigit (s.size + 1) [c] s with
  | (true, _, _, s) => (.error (spell d 's' "tring too long"), findeol s)
  | (false, acc, i, s) =>
    let s := lungetc i s
    if acc ≠ ['-'] ∧ i.endsNumber then
      match strtonum acc.reverse with
      | .inl v => (.num v, s)
      | .inr errstr =>
        (.error ('"' :: acc.reverse ++ "\" invalid number: ".toList ++ errstr.toList), findeol s)
    else
      let s := acc.dropLast.foldl (fun s c => lungetc (.byte c) s) s
      if c = '-' then (.ch '-', s) else lexWord d (.byte c) s

/-- `yylex`. -/
def yylex (d : Dialect) (s : LexState) : Tok × LexState :=
  match skipBlanks (s.size + 1) s with
  | (i, s) =>
    match if i = .byte '#' then skipLine (s.size + 1) s else (i, s) with
    | (.byte c, s) =>
      if c = '\'' ∨ c = '"' then quoted d c (s.size + 1) [] s
      else if c = '-' ∨ c.isDigit then lexNumber d c s
      else lexWord d (.byte c) s
    | (i, s) => lexWord d i s

/-- The tokens of a text, each with the state of the lexer behind it. -/
def lexAll (d : Dialect) : ℕ → LexState → List (Tok × LexState)
  | 0, s => [(.eof .byte, s)]
  | n + 1, s =>
    match yylex d s with
    | (t, s') => if t.isEof then [(t, s')] else (t, s') :: lexAll d n s'

def lexText (d : Dialect) (s : LexState) : List (Tok × LexState) := lexAll d (s.size + 1) s

end Anoubis.Apn

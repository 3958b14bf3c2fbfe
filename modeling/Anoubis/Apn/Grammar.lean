import Anoubis.Apn.Index
import Anoubis.Apn.Lex
import Anoubis.Apn.Path
import Anoubis.Apn.Print
import Anoubis.Lib.Syn

/-! The grammar of the policy language (`parse.y` and `parse_v042.y`).

    One definition for each nonterminal that has a value or an action, under its name in the yacc file.
    Both grammars are in one text: `v042` marks where they differ. The state is the ruleset that is
    built; blocks are added to it when they are complete, everything else is a value.

        policy ─┬─ version                     module ── block ── rule, rule, …
                └─ module, module, …                       └─▶ __apn_add_block_common

    `check` and `act` take a flag that tells whether yacc has read the next token when the action runs
    (a rule that is complete in every case is reduced without it). -/

namespace Anoubis.Apn

open Anoubis.Lib Anoubis.Lib.Syn

/-- What the parser reads besides the text. -/
structure Env where
  lc : Libc
  d : Dialect
  flags : ℕ
  /-- The addresses that `calloc` returns. -/
  addr : ℕ → ℕ

/-- The ruleset under construction and the number of rules allocated so far. -/
structure PState where
  rs : Ruleset
  next : ℕ

/-- A piece of the grammar. -/
abbrev G (α : Type) := Syn PState Tok Text α

/-- What `yyerror` is called with by yacc. -/
def syntaxError : Text := "syntax error".toList

/-- The messages of the lexer that come with a token. -/
def lexErrors (d : Dialect) : Tok → List Text
  | .error msg => [msg]
  | .eof .inString => [spell d 'r' "eached end of file while parsing quoted string"]
  | _ => []

section

variable (e : Env)

def tok {α : Type} (f : Tok → Option α) : G α := token (lexErrors e.d) syntaxError f

def kw (k : Kw) : G Unit := tok e (fun t => if t = .kw k then some () else none)

def char (c : Char) : G Unit := tok e (fun t => if t = .ch c then some () else none)

def string : G Text := tok e (fun t => match t with | .str s => some s | _ => none)

def number : G ℤ := tok e (fun t => match t with | .num n => some n | _ => none)

def isKw (k : Kw) (t : Tok) : Bool := t = .kw k

def isCh (c : Char) (t : Tok) : Bool := t = .ch c

def isNum : Tok → Bool
  | .num _ => true
  | _ => false

/-! ### Common elements -/

def optnl : G Unit := do
  let _ ← many (isCh '\n') syntaxError (char e '\n')
  pure ()

def nl : G Unit := do
  char e '\n'
  optnl e

/-- A number in a 64 bit unsigned field. -/
def toUlong (n : ℤ) : ℕ := (n % 2 ^ 64).toNat

def ruleid : G ℕ :=
  choose isNum
    (do
      let n ← number e
      kw e .colon
      pure (toUlong n))
    (pure 0)

def action : G Action := do
  let a ← tok e (fun t => match t with
    | .kw .allow => some Action.allow
    | .kw .deny => some .deny
    | .kw .ask => some .ask
    | _ => none)
  check false (a ≠ .ask || e.flags &&& flagNoask = 0) ["Action ``ASK'' not permitted".toList]
  pure a

def isLog (t : Tok) : Bool := t = .kw .log || t = .kw .alert

def log : G Log :=
  choose isLog
    (tok e (fun t => match t with
      | .kw .log => some Log.normal
      | .kw .alert => some .alert
      | _ => none))
    (pure .none)

def defaultrule : G Default := do
  kw e .default
  let l ← log e
  let a ← action e
  pure ⟨a, l⟩

/-- APN_FLAG_NOSCOPE is not set. -/
def scopePermitted : Bool := e.flags &&& flagNoscope = 0

def scopeError : List Text := ["Scopes not permitted".toList]

def scope : G (Option Scope) :=
  choose (isKw .task)
    (do
      kw e .task
      let task ← number e
      choose (isKw .until)
        (do
          kw e .until
          let timeout ← number e
          check false (scopePermitted e) scopeError
          pure (some ⟨toUlong timeout, toUlong task⟩))
        (do
          check true (scopePermitted e) scopeError
          pure (some ⟨0, toUlong task⟩)))
    (choose (isKw .until)
      (do
        kw e .until
        let timeout ← number e
        choose (isKw .task)
          (do
            kw e .task
            let task ← number e
            check false (scopePermitted e) scopeError
            pure (some ⟨toUlong timeout, toUlong task⟩))
          (do
            check true (scopePermitted e) scopeError
            pure (some ⟨toUlong timeout, 0⟩)))
      (pure none))

/-- A path that goes through `normalize_path`; the error does not stop the parser. -/
def normalized (s : Text) : G (Option Text) := do
  note (normalizePath s).isSome ("Invalid path ".toList ++ s)
  pure (normalizePath s)

def isSubject (t : Tok) : Bool :=
  t = .kw .self || t = .kw .signedSelf || t = .kw .uid || t = .kw .key

/-- A number in a `uid_t`. -/
def toUid (n : ℤ) : ℕ := (n % 2 ^ 32).toNat

def sfssubject : G Subject :=
  choose (isKw .uid)
    (do
      kw e .uid
      let n ← number e
      pure (.uid (toUid n)))
    (choose (isKw .key)
      (do
        kw e .key
        let s ← string e
        pure (.key s))
      (tok e (fun t => match t with
        | .kw .self => some Subject.uidSelf
        | .kw .signedSelf => some .keySelf
        | _ => none)))

def app : G App := do
  let s ← string e
  let subject ← choose isSubject (sfssubject e) (pure .none)
  let name ← normalized s
  pure ⟨name, subject⟩

/-- One or more, separated by what `sep` reads. -/
def commaList {α : Type} (sep : G Unit) (p : G α) : G (List α) := do
  let a ← p
  let as ← many (isCh ',') syntaxError (do
    sep
    p)
  pure (a :: as)

def apps : G (List App) :=
  choose (isCh '\x7b')
    (do
      char e '\x7b'
      let as ← commaList (do
        char e ','
        optnl e) (app e)
      char e '\x7d'
      pure as)
    (choose (isKw .any)
      (do
        kw e .any
        pure [])
      (do
        let a ← app e
        pure [a]))

/-! ### ALF -/

/-- The text behind the last slash and the text before it. -/
def splitLast (s : Text) : Option (Text × Text) :=
  if '/' ∈ s then
    some (((s.reverse.dropWhile (fun c => c ≠ '/')).tail).reverse,
      (s.reverse.takeWhile (fun c => c ≠ '/')).reverse)
  else none

/-- `strtonum(p + 1, 0, 128, &errstr)`. -/
def strtonumPrefix (s : Text) : ℕ ⊕ String :=
  let t := s.dropWhile isspace
  let ds := match t with
    | '-' :: ds | '+' :: ds => ds
    | ds => ds
  if ds = [] ∨ ¬ ds.all Char.isDigit then .inr "invalid"
  else if t.head? = some '-' ∧ decimal ds ≠ 0 then .inr "too small"
  else if 128 < decimal ds then .inr "too large"
  else .inl (decimal ds)

/-- What `host` finds: an address, nothing, or a bad prefix length, which counts as success. -/
inductive HostResult where
  | addr (a : Addr)
  | unknown
  | badPrefix (msg : Text)

/-- `host_v4`. -/
def hostV4 (lc : Libc) (s : Text) : Option Addr :=
  if '/' ∈ s then (lc.inetNetPton s).map (fun r => ⟨.v4 r.1, r.2⟩)
  else (lc.inetPton s).map (fun a => ⟨.v4 a, 32⟩)

/-- `host_v6`. -/
def hostV6 (lc : Libc) (d : Dialect) (s : Text) : HostResult :=
  match splitLast s with
  | none =>
    match lc.getaddrinfo s with
    | some a => .addr ⟨.v6 a, 128⟩
    | none => .unknown
  | some (ps, p) =>
    match strtonumPrefix p with
    | .inr errstr =>
      .badPrefix (spell d 'p' "refixlen is " ++ errstr.toList ++ ": ".toList ++ p)
    | .inl bits =>
      match lc.getaddrinfo ps with
      | some a => .addr ⟨.v6 a, bits⟩
      | none => .unknown

/-- `host`. -/
def hostAddr (lc : Libc) (d : Dialect) (s : Text) : HostResult :=
  match hostV4 lc s with
  | some a => .addr a
  | none => hostV6 lc d s

/-- An address; a bad prefix length leaves one without address family. -/
def address : G (Option Addr) := do
  let s ← string e
  match hostAddr e.lc e.d s with
  | .addr a => pure (some a)
  | .badPrefix msg => do
    note false msg
    pure none
  | .unknown => do
    check false false [spell e.d 'c' "ould not parse address"]
    pure none

def host : G (Option Host) := do
  let negate ← choose (isCh '!')
    (do
      char e '!'
      pure true)
    (pure false)
  let a ← address e
  pure (a.map (fun a => ⟨a, negate⟩))

def hostspec : G (List (Option Host)) :=
  choose (isCh '\x7b')
    (do
      char e '\x7b'
      let hs ← commaList (char e ',') (host e)
      char e '\x7d'
      pure hs)
    (choose (isKw .any)
      (do
        kw e .any
        pure [])
      (do
        let h ← host e
        pure [h]))

/-- `portbynumber` fails; the current grammar adds a message of its own. -/
def portErrors (n : ℤ) : List Text :=
  (spell e.d 'p' "ort out of range: " ++ showInt n) ::
    (if e.d = .current then ["Invalid port".toList] else [])

def portRange (n : ℤ) : Bool := 0 ≤ n && n ≤ 65535

/-- `portbynumber`. -/
def toPort (n : ℤ) : ℕ := swap16 n.toNat

/-- `portbyname`. -/
def portbyname (lc : Libc) (s : Text) : Option ℕ :=
  match lc.getservbyname s "tcp".toList with
  | some p => some p
  | none => lc.getservbyname s "udp".toList

/-- A port, and whether the next token has been read. -/
def port : G (Port × Bool) :=
  choose isNum
    (do
      let n ← number e
      choose (isCh '-')
        (do
          char e '-'
          let m ← number e
          check false (portRange n) (portErrors e n)
          check false (portRange m) (portErrors e m)
          check false (decide (n ≤ m))
            [spell e.d 'p' "ortrange invalid: " ++ showInt n ++ '-' :: showInt m]
          pure (⟨toPort n, toPort m⟩, false))
        (do
          check true (portRange n) (portErrors e n)
          pure (⟨toPort n, 0⟩, true)))
    (do
      let s ← string e
      check false (portbyname e.lc s).isSome
        ((spell e.d 'c' "ould not parse port: " ++ s) ::
          (if e.d = .current then ["Invalid port".toList] else []))
      pure (⟨(portbyname e.lc s).getD 0, 0⟩, false))

def ports : G (List Port × Bool) :=
  choose (isCh '\x7b')
    (do
      char e '\x7b'
      let ps ← commaList (char e ',') (port e)
      char e '\x7d'
      pure (ps.map (·.1), false))
    (do
      let p ← port e
      pure ([p.1], p.2))

def portspec : G (List Port × Bool) :=
  choose (isKw .port)
    (do
      kw e .port
      ports e)
    (pure ([], true))

def netaccess : G NetAccess :=
  tok e (fun t => match t with
    | .kw .connect => some NetAccess.connect
    | .kw .accept => some .accept
    | .kw .send => some .send
    | .kw .receive => some .receive
    | .kw .both => some .both
    | _ => none)

def isNetaccess (t : Tok) : Bool :=
  t = .kw .connect || t = .kw .accept || t = .kw .send || t = .kw .receive || t = .kw .both

def proto : G Proto :=
  tok e (fun t => match t with
    | .kw .udp => some Proto.udp
    | .kw .tcp => some .tcp
    | .kw .sctp => some .sctp
    | _ => none)

/-- Hosts and ports of a filter rule, and whether the next token has been read. -/
structure Hosts where
  fromhost : List (Option Host)
  fromport : List Port
  tohost : List (Option Host)
  toport : List Port
  looked : Bool

def hosts : G Hosts :=
  choose (isKw .all)
    (do
      kw e .all
      pure ⟨[], [], [], [], false⟩)
    (do
      kw e .fromKw
      let fromhost ← hostspec e
      let fromport ← portspec e
      kw e .to
      let tohost ← hostspec e
      let toport ← portspec e
      pure ⟨fromhost, fromport.1, tohost, toport.1, toport.2⟩)

/-- `validate_host`. -/
def validateHost : Option Host → Bool
  | none => false
  | some h =>
    match h.addr.ip with
    | .v4 _ => h.addr.len ≤ 32
    | .v6 _ => h.addr.len ≤ 128

/-- Which access goes with which protocol in `validate_alffilterspec`. -/
def validateAccess : Proto → NetAccess → Bool
  | .udp, a => a = .send || a = .receive || a = .both
  | _, a => a = .connect || a = .accept || a = .both

/-- The current grammar adds a message to those of `validate_alffilterspec`. -/
def filterErrors (msg : Text) : List Text :=
  msg :: (if e.d = .current then ["Invalid filter specification".toList] else [])

def alffilterspec : G AfiltSpec := do
  let a ← netaccess e
  let l ← log e
  let p ← proto e
  let h ← hosts e
  check h.looked (validateAccess p a) (filterErrors e (spell e.d 'i' "nvalid connection state"))
  check h.looked (h.fromhost.all validateHost) (filterErrors e (spell e.d 'i' "nvalid source host"))
  check h.looked (h.tohost.all validateHost) (filterErrors e (spell e.d 'i' "nvalid destination host"))
  pure ⟨l, p, a, h.fromhost.filterMap id, h.fromport, h.tohost.filterMap id, h.toport⟩

def capability : G Capability :=
  tok e (fun t => match t with
    | .kw .raw => some Capability.raw
    | .kw .other => some .other
    | .kw .all => some .all
    | _ => none)

/-- `alffilterrule`, `alfcaprule` and `alfdefault`. -/
def alfbody : G Body :=
  choose (isKw .default)
    (do
      let d ← defaultrule e
      pure (.default d))
    (do
      let a ← action e
      choose isNetaccess
        (do
          let f ← alffilterspec e
          pure (.alfFilter a f))
        (do
          let l ← log e
          let c ← capability e
          pure (.alfCapability a l c)))

/-! ### SFS -/

def sfspath : G (Option Text) :=
  choose (isKw .any)
    (do
      kw e .any
      pure none)
    (do
      kw e .path
      let s ← string e
      normalized s)

def sfsaction : G Action :=
  choose (isKw .continue)
    (do
      kw e .continue
      pure .continue)
    (action e)

/-- `sfsvalid`, `sfsinvalid` and `sfsunknown` with the keyword and the default. -/
def sfsdefault (k : Kw) (dflt : Default) : G Default :=
  choose (isKw k)
    (do
      kw e k
      let l ← log e
      let a ← sfsaction e
      pure ⟨a, l⟩)
    (pure dflt)

def sfsvalid : G Default := sfsdefault e .valid ⟨.allow, .none⟩

def sfsinvalid : G Default := sfsdefault e .invalid ⟨.deny, .normal⟩

def sfsunknown : G Default := sfsdefault e .unknown ⟨.continue, .none⟩

/-- `sfsaccessrule` and `sfsdefaultrule`. -/
def sfsbody : G Body :=
  choose (isKw .default)
    (do
      kw e .default
      let p ← sfspath e
      let l ← log e
      let a ← action e
      pure (.sfsDefault p l a))
    (do
      let p ← sfspath e
      let s ← sfssubject e
      let valid ← sfsvalid e
      let invalid ← sfsinvalid e
      let unknown ← sfsunknown e
      pure (.sfsAccess p s valid invalid unknown))

/-! ### Sandbox -/

/-- `sbuid` and `sbkey` of the 0.42 grammar check the uid, `sfssubject` of the current one does not. -/
def sbsubject : G Subject :=
  match e.d with
  | .current => sfssubject e
  | .v042 =>
    choose (isKw .uid)
      (do
        kw e .uid
        let n ← number e
        check false (decide (0 ≤ n)) ["Invalid uid ".toList ++ showInt n]
        pure (.uid (toUid n)))
      (sfssubject e)

def sbpred : G (Option Text × Subject) :=
  choose (isKw .any)
    (do
      kw e .any
      pure (none, .none))
    (choose (isKw .path)
      (do
        kw e .path
        let s ← string e
        let p ← normalized s
        let subject ← choose isSubject (sbsubject e) (pure .none)
        pure (p, subject))
      (do
        let subject ← sbsubject e
        pure (none, subject)))

/-- One letter of a permission string. -/
def sbLetter (c : Char) : Option ℕ :=
  if c = 'r' ∨ c = 'R' then some sbaRead
  else if c = 'w' ∨ c = 'W' then some sbaWrite
  else if c = 'x' ∨ c = 'X' then some sbaExec
  else none

/-- The loop of `sbrwx`: the access mask or an error. -/
def sbMask : ℕ → Text → ℕ ⊕ Text
  | mask, [] => .inl mask
  | mask, c :: s =>
    match sbLetter c with
    | none => .inr ("Bad character ".toList ++ c :: " in permission string".toList)
    | some nm =>
      if mask &&& nm ≠ 0 then
        .inr ("Duplicate character ".toList ++ c :: " in permission string".toList)
      else sbMask (mask ||| nm) s

def sbrwx : G ℕ := do
  let s ← string e
  match sbMask 0 s with
  | .inl mask => pure mask
  | .inr msg => do
    check false false [msg]
    pure 0

/-- `sbaccess` and `sbdefault`. -/
def sbbody : G Body :=
  choose (isKw .default)
    (do
      let d ← defaultrule e
      pure (.default d))
    (do
      let a ← action e
      let l ← log e
      let p ← sbpred e
      let mask ← sbrwx e
      pure (.sbAccess p.1 p.2 mask l a))

/-! ### Context -/

def ctxbody : G Body := do
  kw e .context
  let t ← tok e (fun t => match t with
    | .kw .new => some CtxType.new
    | .kw .openKw => some .openFile
    | .kw .borrow => some .borrow
    | _ => none)
  let as ← apps e
  pure (.ctxRule as t)

/-! ### Blocks -/

/-- `alfrule`, `sfsrule`, `sbrule` and `ctxrule`. -/
def rule (body : G Body) : G Rule := do
  let id ← ruleid e
  let b ← body
  let sc ← scope e
  pure ⟨0, id, sc, b⟩

def isNot (c : Char) (t : Tok) : Bool := t ≠ .ch c

/-- `alfrule_l` and its siblings, up to the closing brace. -/
def rules (body : G Body) : G (List Rule) :=
  many (isNot '\x7d') syntaxError (do
    let r ← rule e body
    nl e
    pure r)

/-- The messages of a flag that needs a later version. -/
def flagError (flag pfx least : String) (version : ℕ) : Text :=
  "The flag ".toList ++ flag.toList ++ " is not supported in ".toList ++ pfx.toList ++
    showNat (version / 2 ^ 16 % 2 ^ 15) ++ '.' :: showNat (version % 2 ^ 15) ++ "! At least ".toList ++
    least.toList ++ " expected.".toList

/-- `flagnosfs`, `flagpgforce` and `flagpgonly`. -/
def versionFlag (k : Kw) (least : ℕ) (msg : ℕ → Text) : G Unit := do
  kw e k
  act false (fun s => if s.rs.version < least then .error (s, [msg s.rs.version]) else .ok ((), s))

def flagnosfs : G Unit := versionFlag e .nosfs (mkVersion 1 1) (flagError "nosfs" "v" "v1.1")

def flagpgforce : G Unit := versionFlag e .pgforce (mkVersion 1 3) (flagError "PGFORCE" "v" "v1.3")

def flagpgonly : G Unit := versionFlag e .pgonly (mkVersion 1 3) (flagError "PGONLY" "" "v1.3")

def duplicateFlag : List Text := ["Duplicate flag in flag list".toList]

/-- One flag of `ctxflags`: a second time is an error. -/
def ctxflag (f : Flags) : G Flags :=
  choose (isKw .nosfs)
    (do
      flagnosfs e
      check false (!f.nosfs) duplicateFlag
      pure { f with nosfs := true })
    (do
      flagpgforce e
      check false (!f.pgforce) duplicateFlag
      pure { f with pgforce := true })

def isCtxflag (t : Tok) : Bool := t = .kw .nosfs || t = .kw .pgforce

/-- `ctxflags`: a third flag would be a second one of its kind. -/
def ctxflags : G Flags :=
  choose isCtxflag
    (do
      let f ← ctxflag e Flags.none
      choose isCtxflag
        (do
          let f ← ctxflag e f
          choose isCtxflag (ctxflag e f) (pure f))
        (pure f))
    (pure Flags.none)

/-- `nonctxflags`: duplicates are found when the list is complete. -/
def nonctxflags : G Flags := do
  let fs ← many (isKw .pgonly) syntaxError (flagpgonly e)
  check true (decide (fs.length ≤ 1)) duplicateFlag
  pure { Flags.none with pgonly := decide (fs.length = 1) }

/-- The flags of a block; the 0.42 grammar has none. -/
def blockflags (k : Kind) : G Flags :=
  match e.d with
  | .v042 => pure Flags.none
  | .current => if k = .ctx then ctxflags e else nonctxflags e

/-- The block of the rules and the application list that were read. -/
def newBlock (s : PState) (k : Kind) (id : ℕ) (as : List App) (f : Flags) (chain : List Rule) : Block :=
  ⟨e.addr (s.next + chain.length), id, k, as, f, copyChain e.addr s.next chain⟩

/-- What is counted as an error when a block cannot be added. In the 0.42 grammar an SFS block that is
    refused leaves a message but does not count; an error that only counts has no text. -/
def addErrors (k : Kind) (msg : List Text) : List Text :=
  match e.d with
  | .current => msg
  | .v042 => if k = .sfs then [] else if msg = [] then [[]] else msg

/-- `apn_add_alfblock`, `apn_add_sfsblock`, `apn_add_sbblock` and `apn_add_ctxblock`. -/
def addBlock (look : Bool) (k : Kind) (id : ℕ) (as : List App) (f : Flags) (chain : List Rule) :
    G Block :=
  act look (fun s =>
    let b := newBlock e s k id as f chain
    match apnAddBlockCommon (fun b => (apnPrintRule e.lc b).isSome) s.rs b with
    | .added rs => .ok (b, ⟨rs, s.next + chain.length + 1⟩)
    | .duplicate => .error (s, addErrors e k ["Duplicate rule IDs".toList])
    | .unprintable rs => .error (⟨rs, s.next + chain.length + 1⟩, addErrors e k []))

/-- `alfruleset`, `sbruleset` and `ctxruleset`. -/
def ruleset (k : Kind) (body : G Body) : G Block := do
  let id ← ruleid e
  let as ← apps e
  let f ← blockflags e k
  optnl e
  char e '\x7b'
  optnl e
  let chain ← rules e body
  char e '\x7d'
  match e.d with
  | .current => optnl e
  | .v042 => nl e
  addBlock e true k id as f chain

/-- `alfmodule`, `sbmodule` and `ctxmodule`. -/
def blockmodule (name : Kw) (k : Kind) (body : G Body) : G (List Block) := do
  kw e name
  optnl e
  char e '\x7b'
  optnl e
  let bs ← many (isNot '\x7d') syntaxError (ruleset e k body)
  char e '\x7d'
  pure bs

def alfmodule : G (List Block) := blockmodule e .alf .alf (alfbody e)

def sbmodule : G (List Block) := blockmodule e .sb .sb (sbbody e)

def ctxmodule : G (List Block) := blockmodule e .context .ctx (ctxbody e)

def sfsmodule : G (List Block) := do
  kw e .sfs
  optnl e
  char e '\x7b'
  optnl e
  let chain ← rules e (sfsbody e)
  char e '\x7d'
  let b ← addBlock e false .sfs 0 [] Flags.none chain
  pure [b]

/-- `module`. -/
def apnmodule : G (List Block) := do
  let bs ← choose (isKw .alf) (alfmodule e)
    (choose (isKw .sfs) (sfsmodule e) (choose (isKw .sb) (sbmodule e) (ctxmodule e)))
  optnl e
  pure bs

/-! ### Version -/

/-- `%d` of `sscanf`: the number and the rest. -/
def scanInt (s : Text) : Option (ℤ × Text) :=
  let t := s.dropWhile isspace
  let (neg, t) := match t with
    | '-' :: t => (true, t)
    | '+' :: t => (false, t)
    | t => (false, t)
  let ds := t.takeWhile Char.isDigit
  if ds = [] then none
  else some (if neg then -(decimal ds : ℤ) else decimal ds, t.dropWhile Char.isDigit)

/-- `sscanf($2, "%d.%d%c", &major, &minor, &ch) == 2`. -/
def scanVersion (s : Text) : Option (ℤ × ℤ) :=
  match scanInt s with
  | some (major, '.' :: t) =>
    match scanInt t with
    | some (minor, []) => some (major, minor)
    | _ => none
  | _ => none

/-- PARSER_MINVERSION and PARSER_MAXVERSION. -/
def minVersion : Dialect → ℕ
  | .current => mkVersion 1 0
  | .v042 => mkVersion 0 42

def maxVersion : Dialect → ℕ
  | .current => mkVersion 1 3
  | .v042 => mkVersion 0 42

/-- The action of `version`. -/
def setVersion (s : Text) (st : PState) : Except (PState × List Text) (Unit × PState) :=
  match scanVersion s with
  | none => .error (st, ["Invalid version number ".toList ++ s])
  | some (major, minor) =>
    if major < 0 ∨ 2 ^ 15 ≤ major then .error (st, ["Major number is invalid".toList])
    else if minor < 0 ∨ 2 ^ 15 ≤ minor then .error (st, ["Minor number is invalid".toList])
    else
      let v := mkVersion major.toNat minor.toNat
      let st := { st with rs := { st.rs with version := v } }
      if v < minVersion e.d ∨ maxVersion e.d < v then
        .error (st, ["APN Version ".toList ++ showNat major.toNat ++ '.' :: showNat minor.toNat ++
          " not supported by parser".toList])
      else .ok ((), st)

def version : G Unit := do
  kw e .apnversion
  let s ← string e
  nl e
  act true (setVersion e s)

/-! ### Texts -/

def isNotEof (t : Tok) : Bool := !t.isEof

/-- The end of the text. -/
def endOfText : G Unit := do
  let t ← tok e (fun t => if t.isEof then some t else none)
  note (lexErrors e.d t = []) ((lexErrors e.d t).headD [])

/-- `grammar`: the blocks of a policy in the order of the text. -/
def policy : G (List Block) := do
  optnl e
  choose (isKw .apnversion) (version e) (pure ())
  let bs ← many isNotEof syntaxError (apnmodule e)
  endOfText e
  pure bs.flatten

end

end Anoubis.Apn

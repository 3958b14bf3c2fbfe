import Anoubis.Lib.CString
import Anoubis.Lib.Run
import Mathlib.Algebra.Order.Ring.Int

/-! The configuration of the daemon (`cfg.c`, `reconfigure` in `main.c`).

    The master reads its file again at a SIGHUP, in place, and sends what the other processes need in a message to
    each of them.

        text --cfg_reread--> master --cfg_msg_create--> m2s --cfg_msg_parse--> session
                                   └──cfg_msg_create──▶ m2p ──cfg_msg_parse──▶ policy

    A byte above 127 is no blank. Log messages, memory that cannot be allocated, and what else a SIGHUP reloads are
    left out. -/

namespace Anoubis.Cfg

open Anoubis.Lib

/-! ### The configuration -/

/-- ANOUBISD_UPGRADE_MODE_*. -/
inductive UpgradeMode where
  | off
  | strictLock
  | looseLock
  | process
  deriving DecidableEq

/-- The value of the enumeration, as it stands in a message. -/
def UpgradeMode.code : UpgradeMode → ℕ
  | .off => 0
  | .strictLock => 1
  | .looseLock => 2
  | .process => 3

def UpgradeMode.ofCode : ℕ → Option UpgradeMode
  | 0 => some .off
  | 1 => some .strictLock
  | 2 => some .looseLock
  | 3 => some .process
  | _ => none

/-- ANOUBISD_AUTH_MODE_*. -/
inductive AuthMode where
  | enabled
  | optional
  | off
  deriving DecidableEq

/-- struct anoubisd_pg_scanner. -/
structure Scanner where
  required : Bool
  path : CString
  description : CString
  deriving DecidableEq

/-- struct anoubisd_config. A string may be a null pointer; the triggers stand in the order of the list. -/
structure Config where
  unixsocket : Option CString
  rootkey : Option CString
  rootkeyRequired : Bool
  upgradeMode : UpgradeMode
  upgradeTrigger : List CString
  authMode : AuthMode
  allowCoredumps : Bool
  policysize : ℤ
  pgScanner : List Scanner
  scannerTimeout : ℤ
  deriving DecidableEq

/-- ANOUBISD_MAX_POLICYSIZE and INT_MAX. -/
def maxPolicysize : ℤ := 0x1400000
def intMax : ℤ := 2147483647

/-- What does not change: PACKAGE_SOCKET of the build, and the option -s. -/
structure Cmdline where
  packageSocket : CString
  optsocket : Option CString

/-! ### Strings -/

/-- `isspace`. -/
def isspace (c : CChar) : Bool := decide (c.1 = 32 ∨ 9 ≤ c.1 ∧ c.1 ≤ 13)

/-- A blank between words. -/
def isblank (c : CChar) : Bool := decide (c.1 = 32 ∨ c.1 = 9)

def isdigit (c : CChar) : Bool := decide (48 ≤ c.1 ∧ c.1 ≤ 57)

/-- `tolower`. -/
def lower (c : CChar) : UInt8 := if 65 ≤ c.1 ∧ c.1 ≤ 90 then c.1 + 32 else c.1

/-- `strcasecmp` finds no difference. -/
def sameName (a b : CString) : Bool := decide (a.map lower = b.map lower)

/-- `strip_whitespaces`; at the end the first byte stays. -/
def stripWhitespaces : CString → CString
  | [] => []
  | c :: s => (c :: (s.reverse.dropWhile isspace).reverse).dropWhile isspace

/-- `name_to_value`. -/
def nameToValue {α : Type} (keys : List (CString × α)) (key : CString) : Option α :=
  (keys.find? fun k => sameName key k.1).map Prod.snd

/-- `strsep`: what stands before a delimiter, and the rest of the string if there is one. -/
def strsep (delim : CChar → Bool) : CString → CString × Option CString
  | [] => ([], none)
  | c :: s => if delim c then ([], some s) else (c :: (strsep delim s).1, (strsep delim s).2)

/-- `strsep` until a word is not empty. -/
def nextWord : CString → Option (CString × Option CString)
  | [] => none
  | c :: s => if isblank c then nextWord s else some (strsep isblank (c :: s))

/-! ### Values -/

inductive Key where
  | unixsocket
  | upgradeMode
  | upgradeTrigger
  | rootkey
  | rootkeyRequired
  | authMode
  | coredumps
  | policysize
  | commit
  | scantimeout
  deriving DecidableEq

def keywords : List (CString × Key) :=
  [(cLit "unixsocket", .unixsocket), (cLit "upgrade_mode", .upgradeMode), (cLit "upgrade_trigger", .upgradeTrigger),
    (cLit "rootkey", .rootkey), (cLit "rootkey_required", .rootkeyRequired), (cLit "auth_mode", .authMode),
    (cLit "allow_coredumps", .coredumps), (cLit "policysize", .policysize), (cLit "commit", .commit),
    (cLit "scanner_timeout", .scantimeout)]

def upgrademodes : List (CString × UpgradeMode) :=
  [(cLit "off", .off), (cLit "strictlock", .strictLock), (cLit "looselock", .looseLock), (cLit "process", .process)]

def authmodes : List (CString × AuthMode) :=
  [(cLit "enabled", .enabled), (cLit "optional", .optional), (cLit "off", .off)]

def boolvalues : List (CString × Bool) :=
  [(cLit "yes", true), (cLit "true", true), (cLit "1", true), (cLit "no", false), (cLit "false", false),
    (cLit "0", false), (cLit "off", false)]

/-- `cfg_parse_upgrade_trigger`: words between commas and blanks, each one inserted at the head. -/
def cfgParseUpgradeTrigger (triggers : List CString) (value : CString) : List CString :=
  ((value.splitOnP fun c => isblank c || decide (c.1 = 44)).filter (· ≠ [])).foldl (fun ts t => t :: ts) triggers

/-- `cfg_parse_commit`: required or recommended, a path, and the description, which is the rest of the string. A path
    that does not exist is only logged. -/
def cfgParseCommit (value : CString) : Option Scanner := do
  let (kind, rest) ← nextWord value
  let required ← if kind = cLit "required" then some true else if kind = cLit "recommended" then some false else none
  let (path, rest) ← nextWord (← rest)
  let description := stripWhitespaces (← rest)
  if description = [] then none else some ⟨required, path, description⟩

/-- The digits of a number. -/
def digitsValue (ds : CString) : ℤ := ds.foldl (fun n c => 10 * n + (c.1.toNat - 48 : ℤ)) 0

/-- `strtol` with base 10 and the rest of the string, unless there are no digits. A number that it cuts off is out
    of the range below in any case. -/
def strtol (s : CString) : Option (ℤ × CString) :=
  let s := s.dropWhile isspace
  let sign : ℤ := if s.head?.map Subtype.val = some 45 then -1 else 1
  let s := if s.head?.map Subtype.val = some 45 ∨ s.head?.map Subtype.val = some 43 then s.tail else s
  if s.takeWhile isdigit = [] then none else some (sign * digitsValue (s.takeWhile isdigit), s.dropWhile isdigit)

/-- `cfg_parse_int` between 0 and INT_MAX. -/
def cfgParseInt (value : CString) : Option ℤ :=
  match strtol value with
  | some (n, []) => if n < 0 ∨ n > intMax then none else some n
  | _ => none

/-- `cfg_param_process`: the new configuration, or an error that changes nothing. -/
def cfgParamProcess (c : Config) (key : Option Key) (value : CString) : Option Config :=
  match key with
  | some .unixsocket => some { c with unixsocket := some value }
  | some .upgradeMode => (nameToValue upgrademodes value).map fun v => { c with upgradeMode := v }
  | some .upgradeTrigger => some { c with upgradeTrigger := cfgParseUpgradeTrigger c.upgradeTrigger value }
  | some .rootkey => some { c with rootkey := some value }
  | some .rootkeyRequired => (nameToValue boolvalues value).map fun v => { c with rootkeyRequired := v }
  | some .authMode => (nameToValue authmodes value).map fun v => { c with authMode := v }
  | some .coredumps => (nameToValue boolvalues value).map fun v => { c with allowCoredumps := v }
  | some .policysize => (cfgParseInt value).map fun v => { c with policysize := v }
  | some .commit => (cfgParseCommit value).map fun v => { c with pgScanner := c.pgScanner ++ [v] }
  | some .scantimeout => (cfgParseInt value).map fun v => { c with scannerTimeout := v }
  | none => none

/-! ### The file -/

/-- The sizeof of the buffer of `cfg_parse_file`. -/
def bufSize : ℕ := 1024

/-- `fgets` until the end of the file: up to a newline, or as much as the buffer holds. -/
def fgetsAll : List UInt8 → List UInt8 → List (List UInt8)
  | [], buf => if buf = [] then [] else [buf]
  | b :: text, buf =>
    if b = 10 ∨ (buf ++ [b]).length = bufSize - 1 then (buf ++ [b]) :: fgetsAll text []
    else fgetsAll text (buf ++ [b])

/-- The state of the loop in `cfg_parse_file`: `key` is none for key_bad, and key and value are those of `param`. -/
structure Parse where
  config : Config
  key : Option Key
  value : CString
  keyExpected : Bool
  errors : ℕ

/-- An error, and `cfg_param_reset`. -/
def Parse.error (p : Parse) : Parse := { p with key := none, value := [], errors := p.errors + 1 }

/-- `cfg_param_process` and what follows it. -/
def Parse.process (p : Parse) : Parse :=
  match cfgParamProcess p.config p.key p.value with
  | some config => { p with config := config, key := none, value := [], keyExpected := true }
  | none => { p.error with keyExpected := true }

/-- The value on a line; a backslash at its end continues it. -/
def Parse.addvalue (p : Parse) (line : CString) : Parse :=
  if line.getLast?.map Subtype.val = some 92 then { p with value := p.value ++ line.dropLast, keyExpected := false }
  else Parse.process { p with value := p.value ++ line }

/-- A line that begins with a key. -/
def Parse.keyLine (p : Parse) (line : CString) : Parse :=
  match strsep (fun c => decide (c.1 = 61)) line with
  | (_, none) => p.error
  | (key, some value) =>
    match nameToValue keywords (stripWhitespaces key) with
    | none => p.error
    | some k => Parse.addvalue { p with key := some k } (stripWhitespaces value)

/-- The body of the loop. -/
def Parse.line (p : Parse) (buf : List UInt8) : Parse :=
  if (cString buf).length ≥ bufSize - 1 then p.error
  else
    let line := stripWhitespaces (cString buf)
    if line = [] ∨ line.head?.map Subtype.val = some 35 then p
    else if p.keyExpected then p.keyLine line
    else p.addvalue line

/-- `cfg_parse_file`. A parameter whose last line is continued is processed at the end. -/
def cfgParseFile (text : List UInt8) (c : Config) : Bool × Config :=
  let p := (fgetsAll text []).foldl Parse.line ⟨c, none, [], true, 0⟩
  let p := if p.key.isSome then p.process else p
  (p.errors == 0, p.config)

/-- `cfg_read_file`; without a file that can be read, the configuration stays. -/
def cfgReadFile (file : Option (List UInt8)) (c : Config) : Bool × Config :=
  match file with
  | none => (true, c)
  | some text => cfgParseFile text c

/-! ### Reading -/

/-- `cfg_clear`. -/
def cfgClear (c : Config) : Config :=
  { c with unixsocket := none, upgradeTrigger := [], rootkey := none, rootkeyRequired := false, allowCoredumps := false,
           pgScanner := [] }

/-- `cfg_defaults`. -/
def cfgDefaults (cmd : Cmdline) (c : Config) : Config :=
  { c with unixsocket := some (c.unixsocket.getD cmd.packageSocket), upgradeMode := .off, authMode := .optional,
           policysize := maxPolicysize, scannerTimeout := 5 * 60 }

/-- `cfg_verify`. -/
def cfgVerify (c : Config) : Bool :=
  !(c.rootkeyRequired && (c.rootkey.isNone || decide (c.upgradeMode = .process)))

/-- `cfg_read`. -/
def cfgRead (cmd : Cmdline) (file : Option (List UInt8)) (c : Config) : Bool × Config :=
  let r := cfgReadFile file c
  if r.1 = false then (false, r.2)
  else if cfgVerify r.2 = false then (false, r.2)
  else match cmd.optsocket with
    | none => (true, r.2)
    | some optsocket => (true, { r.2 with unixsocket := some optsocket })

/-- `cfg_reread`. -/
def cfgReread (cmd : Cmdline) (file : Option (List UInt8)) (c : Config) : Bool × Config :=
  cfgRead cmd file (cfgDefaults cmd (cfgClear c))

/-- The memory that `cfg_initialize` sets to zero. -/
def zeroConfig : Config := ⟨none, none, false, .off, [], .enabled, false, 0, [], 0⟩

/-! ### Messages -/

/-- struct anoubisd_msg_config. -/
structure Msg where
  triggercount : ℕ
  policysize : ℕ
  upgradeMode : ℕ
  chunk : List UInt8
  deriving DecidableEq

/-- MSG_SIZE_LIMIT, and the size of the two structures in front of the strings. -/
def msgSizeLimit : ℕ := 100000
def msgHeader : ℕ := 20

/-- `cfg_msg_create`; a message that is too large terminates the daemon. Only a socket that is a null pointer, which
    it never is here, would be read without being there. -/
def cfgMsgCreate (c : Config) : Option Msg :=
  let strings := (c.unixsocket.getD []) :: c.upgradeTrigger
  if msgHeader + (strings.flatMap cBytes).length > msgSizeLimit then none
  else some ⟨c.upgradeTrigger.length, (c.policysize % 4294967296).toNat, c.upgradeMode.code % 256, strings.flatMap cBytes⟩

/-- An u32n as an int. -/
def toInt (n : ℕ) : ℤ := if n < 2147483648 then n else n - 4294967296

/-- `cfg_msg_parse`; a mode that is none does not occur. -/
def cfgMsgParse (c : Config) (m : Msg) : Config :=
  let socket := cString m.chunk
  { cfgClear c with
    upgradeMode := (UpgradeMode.ofCode m.upgradeMode).getD .off, unixsocket := some socket,
    policysize := toInt m.policysize,
    upgradeTrigger := (cStrings m.triggercount (m.chunk.drop (socket.length + 1))).reverse }

/-! ### The processes -/

/-- The configurations of the three processes and the messages on their way; `accepted` remembers the file that was
    accepted last. -/
structure State where
  master : Config
  session : Config
  policy : Config
  m2s : List Msg
  m2p : List Msg
  accepted : Option (List UInt8)
  deriving DecidableEq

/-- The daemon starts, and forks. -/
def start (cmd : Cmdline) (file : Option (List UInt8)) : Option State :=
  let r := cfgRead cmd file (cfgDefaults cmd zeroConfig)
  if r.1 then some ⟨r.2, r.2, r.2, [], [], file⟩ else none

/-- `reconfigure`. -/
def reconfigure (cmd : Cmdline) (s : State) (file : Option (List UInt8)) : Option State :=
  let r := cfgReread cmd file s.master
  if r.1 = false then some { s with master := r.2 }
  else (cfgMsgCreate r.2).map fun msg =>
    { s with master := r.2, m2s := s.m2s ++ [msg], m2p := s.m2p ++ [msg], accepted := file }

/-- A SIGHUP, with the file as it is then, or a process takes its next message. -/
inductive Event where
  | reload (file : Option (List UInt8))
  | session
  | policy
  deriving DecidableEq

def step (cmd : Cmdline) (s : State) : Event → Option State
  | .reload file => reconfigure cmd s file
  | .session => match s.m2s with
    | [] => none
    | m :: ms => some { s with session := cfgMsgParse s.session m, m2s := ms }
  | .policy => match s.m2p with
    | [] => none
    | m :: ms => some { s with policy := cfgMsgParse s.policy m, m2p := ms }

end Anoubis.Cfg

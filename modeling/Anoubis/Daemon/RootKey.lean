import Anoubis.Daemon.Cert

/-! The private key of root in the master (`init_root_key`, `reconfigure` and `dispatch_passphrase` in `main.c`,
    `cert_load_priv_key` in `cert.c`).

    The key is loaded into the certificate of root, and the policy process is told if upgrades may be tracked. A
    reconfiguration reads the certificates anew, and they have no private keys.

        SIGHUP ───────▶ certificates, configuration ─┐
                                                     ├──init_root_key──▶ private key, ANOUBISD_UPGRADE_OK
        passphrase ──────────────────────────────────┘

    The files of the system are an argument of each step. Log messages and memory that cannot be allocated are left
    out. -/

namespace Anoubis.RootKey

open Anoubis.Lib
open Anoubis.Cfg (Config Cmdline)
open Anoubis.Certs

variable {X K : Type}

/-- Opens a file and reads it. -/
abbrev Files := CString → Option (List UInt8)

/-- What the master sends to the policy process: a configuration, or ANOUBISD_UPGRADE_OK with its byte. -/
inductive Msg where
  | config (msg : Cfg.Msg)
  | upgradeOk (value : Bool)
  deriving DecidableEq

/-- The master: `anoubisd_config`, the certificates, and all messages that it has sent. -/
structure State (X K : Type) where
  config : Config
  certs : List (Cert X K)
  m2s : List Cfg.Msg
  m2p : List Msg
  deriving DecidableEq

/-- `send_upgrade_ok`. -/
def sendUpgradeOk (value : Bool) (s : State X K) : State X K := { s with m2p := s.m2p ++ [.upgradeOk value] }

/-- `cert_load_priv_key`, with a certificate. -/
def certLoadPrivKey (ssl : Ssl X K) (files : Files) (cert : Cert X K) (path passphrase : Option CString) : Cert X K :=
  let cert := { cert with privkey := none }
  match path with
  | none => cert
  | some path => match files path with
    | none => cert
    | some file => match ssl.pemReadPrivateKey file (passphrase.getD []) with
      | none => cert
      | some priv => { cert with privkey := some priv }

/-- The certificate that the search for a user ID finds is changed in place. -/
def setCert (uid : ℕ) (cert : Cert X K) (certs : List (Cert X K)) : List (Cert X K) :=
  certs.lookmap fun p => if p.uid = uid then some cert else none

/-- `init_root_key`. It is the public key that is looked at behind `cert_load_priv_key`. -/
def initRootKey (ssl : Ssl X K) (files : Files) (passphrase : Option CString) (s : State X K) : State X K :=
  match s.config.rootkey, certGetByUid s.certs 0 with
  | none, none => sendUpgradeOk true s
  | none, some cert =>
    sendUpgradeOk true { s with certs := setCert 0 (certLoadPrivKey ssl files cert none none) s.certs }
  | some _, none => sendUpgradeOk true s
  | some rootkey, some cert =>
    let cert := certLoadPrivKey ssl files cert (some rootkey) passphrase
    let s := { s with certs := setCert 0 cert s.certs }
    if s.config.rootkeyRequired && cert.pubkey.isNone then sendUpgradeOk false s else sendUpgradeOk true s

/-- `reconfigure`, with the text of the configuration and the certificates as they are then. A message that is too
    large terminates the daemon. -/
def reconfigure (cmd : Cmdline) (ssl : Ssl X K) (text : Option (List UInt8)) (dir : Option (List Dirent))
    (files : Files) (s : State X K) : Option (State X K) :=
  let r := Cfg.cfgReread cmd text s.config
  let s := { s with config := r.2, certs := certLoadDb ssl dir }
  if r.1 = false then some s
  else (Cfg.cfgMsgCreate r.2).map fun msg =>
    initRootKey ssl files none { s with m2s := s.m2s ++ [msg], m2p := s.m2p ++ [.config msg] }

/-- `dispatch_passphrase`; the last byte of the message gives way to a NUL. -/
def dispatchPassphrase (ssl : Ssl X K) (files : Files) (payload : List UInt8) (s : State X K) : State X K :=
  if payload.length < 1 then s
  else initRootKey ssl files (some (cString (payload.dropLast ++ [0]))) s

/-- The master starts. -/
def start (cmd : Cmdline) (ssl : Ssl X K) (text : Option (List UInt8)) (dir : Option (List Dirent)) (files : Files) :
    Option (State X K) :=
  let r := Cfg.cfgRead cmd text (Cfg.cfgDefaults cmd Cfg.zeroConfig)
  if r.1 then some (initRootKey ssl files none ⟨r.2, certLoadDb ssl dir, [], []⟩) else none

/-- A SIGHUP, or a passphrase from the session engine, and the files that can be read then. -/
inductive Event where
  | reload (text : Option (List UInt8)) (dir : Option (List Dirent)) (files : Files)
  | passphrase (payload : List UInt8) (files : Files)

def step (cmd : Cmdline) (ssl : Ssl X K) (s : State X K) : Event → Option (State X K)
  | .reload text dir files => reconfigure cmd ssl text dir files s
  | .passphrase payload files => some (dispatchPassphrase ssl files payload s)

end Anoubis.RootKey

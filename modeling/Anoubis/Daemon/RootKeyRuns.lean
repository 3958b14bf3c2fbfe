import Anoubis.Daemon.RootKey
import Anoubis.Daemon.CfgRuns
import Anoubis.Daemon.CertLookup

/-! Upgrades are allowed with or without the key.

    `init_root_key` looks at the public key, which each certificate has, so all values that are ever sent are 1. They
    are right just as long as the private key is there, at the end of each step. -/

namespace Anoubis.RootKey

open Anoubis.Lib Option
open Anoubis.Cfg (Config Cmdline)
open Anoubis.Certs

variable {X K : Type}

/-! ### The property -/

/-- The value that was sent last. -/
def lastUpgradeOk (msgs : List Msg) : Option Bool :=
  msgs.reverse.findSome? fun
    | .upgradeOk value => some value
    | .config _ => none

/-- A certificate of root is loaded, and the configuration requires its private key. -/
def Required (config : Config) (certs : List (Cert X K)) : Prop :=
  config.rootkey.isSome ∧ config.rootkeyRequired = true ∧ (certFindUid certs 0 false).isSome

/-- If the private key is required, upgrades are allowed if and only if it is there. -/
def Gated (s : State X K) : Prop :=
  Required s.config s.certs → ∀ cert, certFindUid s.certs 0 false = some cert →
    lastUpgradeOk s.m2p = some cert.privkey.isSome

/-- The certificate of root is not ignored, and the passphrase opens the file with its key. -/
def KeyLoads (ssl : Ssl X K) (files : Files) (config : Config) (certs : List (Cert X K)) (passphrase : CString) :
    Prop :=
  (certGetByUid certs 0).isSome ∧ ∃ path file, config.rootkey = some path ∧ files path = some file ∧
    (ssl.pemReadPrivateKey file passphrase).isSome

/-- The key is loaded if it is required; a configuration that is refused does not load it. -/
def Meets (cmd : Cmdline) (ssl : Ssl X K) (s : State X K) : Event → Prop
  | .reload text dir files =>
    Required (Cfg.cfgReread cmd text s.config).2 (certLoadDb ssl dir) →
      Cfg.Accepted cmd text ∧ (Cfg.cfgMsgCreate (Cfg.fileConfig cmd text) = none ∨
        KeyLoads ssl files (Cfg.fileConfig cmd text) (certLoadDb ssl dir) [])
  | .passphrase payload files =>
    payload ≠ [] → Required s.config s.certs →
      KeyLoads ssl files s.config s.certs (cString (payload.dropLast ++ [0]))

/-- The same for the start. -/
def MeetsStart (cmd : Cmdline) (ssl : Ssl X K) (text : Option (List UInt8)) (dir : Option (List Dirent))
    (files : Files) : Prop :=
  Required (Cfg.fileConfig cmd text) (certLoadDb ssl dir) →
    KeyLoads ssl files (Cfg.fileConfig cmd text) (certLoadDb ssl dir) []

/-! ### One certificate -/

section Certs

variable {ssl : Ssl X K} {files : Files} {cert p : Cert X K} {certs : List (Cert X K)} {uid : ℕ}

theorem certFindUid_eq (certs : List (Cert X K)) (uid : ℕ) :
    certFindUid certs uid false = certs.find? (hasUid uid) := by
  have hhas : (fun p : Cert X K => decide (p.uid = uid)) = hasUid uid := rfl
  rw [certFindUid, hhas]
  cases certs.find? (hasUid uid) <;> rfl

variable {c : Cert X K}

theorem setCert_cons : setCert uid cert (c :: certs) =
    if c.uid = uid then cert :: certs else c :: setCert uid cert certs := by
  split
  · rename_i hc
    exact List.lookmap_cons_some _ _ (if_pos hc)
  · rename_i hc
    exact List.lookmap_cons_none _ _ (if_neg hc)

theorem certFindUid_setCert (hcert : cert.uid = uid) :
    certFindUid (setCert uid cert certs) uid false = (certFindUid certs uid false).map fun _ => cert := by
  rw [certFindUid_eq, certFindUid_eq]
  induction certs with
  | nil => rfl
  | cons c certs ih =>
    rw [setCert_cons]
    by_cases hc : c.uid = uid
    · rw [if_pos hc, List.find?_cons_of_pos (by simpa [hasUid] using hcert),
        List.find?_cons_of_pos (by simpa [hasUid] using hc), map_some]
    · rw [if_neg hc, List.find?_cons_of_neg (by simpa [hasUid] using hc),
        List.find?_cons_of_neg (by simpa [hasUid] using hc), ih]

theorem mem_setCert (h : c ∈ setCert uid cert certs) : c ∈ certs ∨ c = cert := by
  induction certs with
  | nil => cases h
  | cons d certs ih =>
    rw [setCert_cons] at h
    split at h
    · rcases List.mem_cons.mp h with rfl | h
      · exact .inr rfl
      · exact .inl (List.mem_cons_of_mem d h)
    · rcases List.mem_cons.mp h with rfl | h
      · exact .inl List.mem_cons_self
      · exact (ih h).imp_left (List.mem_cons_of_mem d)

theorem certLoadPrivKey_eq (path passphrase : Option CString) :
    certLoadPrivKey ssl files cert path passphrase = { cert with
      privkey := (path.bind files).bind fun file => ssl.pemReadPrivateKey file (passphrase.getD []) } := by
  rcases path with _ | path
  · rfl
  · rw [certLoadPrivKey, bind_some]
    dsimp only
    cases files path with
    | none => rfl
    | some file =>
      dsimp only [bind_some]
      cases ssl.pemReadPrivateKey file (passphrase.getD []) <;> rfl

theorem certGetByUid_find (certs : List (Cert X K)) (uid : ℕ) :
    certGetByUid certs uid = (certFindUid certs uid false).filter fun p => !p.ignore := by
  rw [certGetByUid_eq, certFindUid_eq]

theorem certFindUid_some (h : certFindUid certs uid false = some c) : c ∈ certs ∧ c.uid = uid := by
  rw [certFindUid_eq] at h
  exact ⟨List.mem_of_find?_eq_some h, by simpa [hasUid] using List.find?_some h⟩

/-- The certificates that the master has: only one that is not ignored has a private key. -/
structure Stored (certs : List (Cert X K)) : Prop where
  pubkey : ∀ c ∈ certs, c.pubkey.isSome
  ignored : ∀ c ∈ certs, c.ignore = true → c.privkey = none

theorem certRead_keys {dp : Dirent} (h : certRead ssl dp = some c) : c.pubkey.isSome ∧ c.privkey = none := by
  obtain ⟨uid, pubkey, req, -, rfl⟩ := certRead_spec h
  exact ⟨rfl, rfl⟩

/-- A certificate that was just loaded has its public key and no private one. -/
theorem certLoadDb_keys {dir : Option (List Dirent)} (h : c ∈ certLoadDb ssl dir) :
    c.pubkey.isSome ∧ c.privkey = none := by
  rcases dir with _ | dir
  · cases h
  · rw [certLoadDb_eq] at h
    obtain ⟨c, hc, rfl⟩ := List.mem_map.mp h
    obtain ⟨dp, -, hread⟩ := List.mem_filterMap.mp hc
    exact certRead_keys (c := c) hread

theorem stored_certLoadDb (ssl : Ssl X K) (dir : Option (List Dirent)) : Stored (certLoadDb ssl dir) :=
  ⟨fun _ hc => (certLoadDb_keys hc).1, fun _ hc _ => (certLoadDb_keys hc).2⟩

theorem stored_setCert (h : Stored certs) (hp : p ∈ certs) (hkeep : p.ignore = false)
    (path passphrase : Option CString) :
    Stored (setCert uid (certLoadPrivKey ssl files p path passphrase) certs) := by
  rw [certLoadPrivKey_eq]
  constructor
  · intro c hc
    rcases mem_setCert hc with hc | rfl
    · exact h.pubkey c hc
    · exact h.pubkey p hp
  · intro c hc hi
    rcases mem_setCert hc with hc | rfl
    · exact h.ignored c hc hi
    · exact absurd hi (by simpa using hkeep)

end Certs

/-! ### One step -/

section Steps

variable {cmd : Cmdline} {ssl : Ssl X K} {files : Files} {s s' : State X K} {passphrase : Option CString}

theorem lastUpgradeOk_append (msgs : List Msg) (value : Bool) :
    lastUpgradeOk (msgs ++ [.upgradeOk value]) = some value := by
  rw [lastUpgradeOk, List.reverse_append]
  rfl

/-- What `initRootKey` does: it allows upgrades, and the key is there if it can be loaded. -/
theorem initRootKey_spec (h : Stored s.certs) : ∃ certs,
    initRootKey ssl files passphrase s = sendUpgradeOk true { s with certs := certs } ∧ Stored certs ∧
    ((certFindUid certs 0 false).isSome ↔ (certFindUid s.certs 0 false).isSome) ∧
    (s.config.rootkey.isSome → ∀ cert, certFindUid certs 0 false = some cert →
      (cert.privkey.isSome ↔ KeyLoads ssl files s.config s.certs (passphrase.getD []))) := by
  have hget := certGetByUid_find s.certs 0
  cases hroot : certGetByUid s.certs 0 with
  | none =>
    have heq : initRootKey ssl files passphrase s = sendUpgradeOk true s := by
      rw [initRootKey, hroot]
      cases s.config.rootkey <;> rfl
    refine ⟨s.certs, heq, h, .rfl, fun _ cert hcert => ?_⟩
    rw [hroot, hcert, eq_comm, filter_eq_none_iff] at hget
    have hignore : cert.ignore = true := by simpa using hget cert rfl
    rw [h.ignored cert (certFindUid_some hcert).1 hignore]
    simp [KeyLoads, hroot]
  | some p =>
    rw [hroot, eq_comm, filter_eq_some_iff] at hget
    obtain ⟨hfind, hkeep⟩ := hget
    obtain ⟨hp, huid⟩ := certFindUid_some hfind
    have hset : ∀ path pass, certFindUid (setCert 0 (certLoadPrivKey ssl files p path pass) s.certs) 0 false =
        (certFindUid s.certs 0 false).map fun _ => certLoadPrivKey ssl files p path pass :=
      fun path pass => certFindUid_setCert (by rw [certLoadPrivKey_eq]; exact huid)
    cases hkey : s.config.rootkey with
    | none =>
      refine ⟨setCert 0 (certLoadPrivKey ssl files p none none) s.certs, ?_, ?_, ?_, fun hsome => nomatch hsome⟩
      · rw [initRootKey, hroot, hkey]
      · exact stored_setCert h hp (by simpa using hkeep) none none
      · rw [hset, isSome_map]
    | some path =>
      refine ⟨setCert 0 (certLoadPrivKey ssl files p (some path) passphrase) s.certs, ?_, ?_, ?_, ?_⟩
      · have hpub : (certLoadPrivKey ssl files p (some path) passphrase).pubkey.isNone = false := by
          rw [certLoadPrivKey_eq, isNone_eq_false_iff]
          exact h.pubkey p hp
        rw [initRootKey, hroot, hkey]
        dsimp only
        rw [hpub, Bool.and_false]
        rfl
      · exact stored_setCert h hp (by simpa using hkeep) (some path) passphrase
      · rw [hset, isSome_map]
      · intro _ cert hcert
        rw [hset, hfind, map_some] at hcert
        rw [← some.inj hcert, certLoadPrivKey_eq, KeyLoads, hroot, hkey, bind_some]
        simp [isSome_bind, any_eq_true]

/-- What holds behind each step: upgrades are allowed. -/
structure Inv (s : State X K) : Prop where
  stored : Stored s.certs
  sent : lastUpgradeOk s.m2p = some true

theorem inv_initRootKey (h : Stored s.certs) : Inv (initRootKey ssl files passphrase s) := by
  obtain ⟨certs, heq, hstored, -, -⟩ := @initRootKey_spec X K ssl files s passphrase h
  rw [heq]
  exact ⟨hstored, lastUpgradeOk_append _ true⟩

theorem gated_initRootKey (h : Stored s.certs) : Gated (initRootKey ssl files passphrase s) ↔
    (Required s.config s.certs → KeyLoads ssl files s.config s.certs (passphrase.getD [])) := by
  obtain ⟨certs, heq, -, hroot, hkey⟩ := @initRootKey_spec X K ssl files s passphrase h
  have hreq : Required s.config certs ↔ Required s.config s.certs := by
    rw [Required, Required, hroot]
  have hlast : lastUpgradeOk (sendUpgradeOk true { s with certs := certs }).m2p = some true :=
    lastUpgradeOk_append _ true
  rw [heq, Gated, hlast]
  show (Required s.config certs → ∀ cert, certFindUid certs 0 false = some cert →
    some true = some cert.privkey.isSome) ↔ _
  rw [hreq]
  refine forall_congr' fun hrequired => ?_
  obtain ⟨cert, hcert⟩ := isSome_iff_exists.mp (hroot.mpr hrequired.2.2)
  rw [← hkey hrequired.1 cert hcert, hcert]
  simp only [Option.some.injEq, forall_eq']
  exact eq_comm

/-- A configuration that is refused takes the key away. -/
theorem gated_refused {config : Config} {dir : Option (List Dirent)} (h : Inv s) :
    Gated { s with config := config, certs := certLoadDb ssl dir } ↔ ¬ Required config (certLoadDb ssl dir) := by
  rw [Gated]
  dsimp only
  rw [h.sent]
  refine forall_congr' fun hrequired => ?_
  obtain ⟨cert, hcert⟩ := isSome_iff_exists.mp hrequired.2.2
  rw [hcert]
  simp [(certLoadDb_keys (certFindUid_some hcert).1).2]

theorem reconfigure_refused {text : Option (List UInt8)} {dir : Option (List Dirent)} (h : ¬ Cfg.Accepted cmd text) :
    reconfigure cmd ssl text dir files s =
      some { s with config := (Cfg.cfgReread cmd text s.config).2, certs := certLoadDb ssl dir } :=
  if_pos (by simpa [Cfg.Accepted, Cfg.cfgReread_eq] using h)

theorem reconfigure_accepted {text : Option (List UInt8)} {dir : Option (List Dirent)} (h : Cfg.Accepted cmd text) :
    reconfigure cmd ssl text dir files s = (Cfg.cfgMsgCreate (Cfg.fileConfig cmd text)).map fun msg =>
      initRootKey ssl files none
        ⟨Cfg.fileConfig cmd text, certLoadDb ssl dir, s.m2s ++ [msg], s.m2p ++ [.config msg]⟩ :=
  if_neg (by simpa [Cfg.Accepted, Cfg.cfgReread_eq] using h)

theorem inv_step {e : Event} (h : Inv s) (hs : step cmd ssl s e = some s') : Inv s' := by
  cases e with
  | reload text dir files =>
    rw [step] at hs
    by_cases hacc : Cfg.Accepted cmd text
    · rw [reconfigure_accepted hacc] at hs
      obtain ⟨msg, -, rfl⟩ := map_eq_some_iff.mp hs
      exact inv_initRootKey (stored_certLoadDb ssl dir)
    · rw [reconfigure_refused hacc] at hs
      cases hs
      exact ⟨stored_certLoadDb ssl dir, h.sent⟩
  | passphrase payload files =>
    cases hs
    rw [dispatchPassphrase]
    split
    · exact h
    · exact inv_initRootKey h.stored

/-- The property holds behind a step if and only if the step meets the condition. -/
theorem gated_step_iff {e : Event} (h : Inv s) (hg : Gated s) :
    (∀ s', step cmd ssl s e = some s' → Gated s') ↔ Meets cmd ssl s e := by
  cases e with
  | reload text dir files =>
    rw [step, Meets]
    by_cases hacc : Cfg.Accepted cmd text
    · rw [reconfigure_accepted hacc, Cfg.cfgReread_eq]
      show _ ↔ (Required (Cfg.fileConfig cmd text) (certLoadDb ssl dir) → _)
      cases hmsg : Cfg.cfgMsgCreate (Cfg.fileConfig cmd text) with
      | none => simp [hacc]
      | some msg =>
        simp only [map_some, Option.some.injEq, forall_eq']
        rw [gated_initRootKey (stored_certLoadDb ssl dir)]
        simp [hacc]
    · rw [reconfigure_refused hacc]
      simp only [Option.some.injEq, forall_eq']
      rw [gated_refused h]
      simp [hacc]
  | passphrase payload files =>
    simp only [step, Option.some.injEq, forall_eq', Meets, dispatchPassphrase]
    by_cases hnil : payload = []
    · simpa [hnil] using hg
    · have hlen : ¬ payload.length < 1 := by
        rwa [Nat.lt_one_iff, List.length_eq_zero_iff]
      rw [if_neg hlen, gated_initRootKey h.stored]
      simp [hnil]

end Steps

/-! ### Runs -/

section Runs

variable {cmd : Cmdline} {ssl : Ssl X K} {text : Option (List UInt8)} {dir : Option (List Dirent)} {files : Files}

theorem start_spec {s₀ : State X K} (h : start cmd ssl text dir files = some s₀) :
    Inv s₀ ∧ (Gated s₀ ↔ MeetsStart cmd ssl text dir files) := by
  rw [start, Cfg.cfgDefaults_zeroConfig] at h
  split at h
  · rw [← some.inj h]
    exact ⟨inv_initRootKey (stored_certLoadDb ssl dir), gated_initRootKey (stored_certLoadDb ssl dir)⟩
  · cases h

/-- Upgrades wait for the key of root, from the start and behind each step of a run, if and only if the key can be
    loaded whenever it is required. -/
theorem upgrade_gated_iff {s₀ : State X K} (h0 : start cmd ssl text dir files = some s₀) (es : List Event) :
    (Gated s₀ ∧ Along (step cmd ssl) (fun s e => ∀ s', step cmd ssl s e = some s' → Gated s') s₀ es) ↔
      MeetsStart cmd ssl text dir files ∧ Along (step cmd ssl) (Meets cmd ssl) s₀ es := by
  obtain ⟨hinv, hstart⟩ := start_spec h0
  rw [← hstart]
  refine and_congr_right fun hg => ?_
  exact along_iff (I := fun s => Inv s ∧ Gated s) (fun s e h => gated_step_iff h.1 h.2)
    (fun s e s' h hp hs => ⟨inv_step h.1 hs, hp s' hs⟩) ⟨hinv, hg⟩ es

/-- The configuration requires the key in the file /key. -/
def requiredText : List UInt8 := Cfg.sampleText "rootkey = /key\nrootkey_required = yes\n"

def rootDir : List Dirent := [⟨cLit "0", .reg, some true, some [1]⟩]

def keyFiles : Files := fun path => if path = cLit "/key" then some [7] else none

/-- The key has no passphrase, so it is loaded at the start and at a SIGHUP. -/
theorem upgrade_gated_open : ∃ s₀,
    start Cfg.sampleCmdline sampleSsl (some requiredText) (some rootDir) keyFiles = some s₀ ∧
    Gated s₀ ∧ Along (step Cfg.sampleCmdline sampleSsl)
      (fun s e => ∀ s', step Cfg.sampleCmdline sampleSsl s e = some s' → Gated s') s₀
      [.reload (some requiredText) (some rootDir) keyFiles] := by
  have hkey : KeyLoads sampleSsl keyFiles (Cfg.fileConfig Cfg.sampleCmdline (some requiredText))
      (certLoadDb sampleSsl (some rootDir)) [] := by
    refine ⟨by decide +kernel, cLit "/key", [7], by decide +kernel, by decide +kernel, rfl⟩
  have hsome : (start Cfg.sampleCmdline sampleSsl (some requiredText) (some rootDir) keyFiles).isSome := by
    decide +kernel
  obtain ⟨s₀, h0⟩ := Option.isSome_iff_exists.mp hsome
  refine ⟨s₀, h0, (upgrade_gated_iff h0 _).mpr ⟨fun _ => hkey, ?_⟩⟩
  exact ⟨fun _ => ⟨by rw [Cfg.Accepted]; decide +kernel, .inr hkey⟩, fun _ _ => trivial⟩

/-- Only the passphrase x opens the key. -/
def lockedSsl : Ssl (List UInt8) (List UInt8) :=
  { sampleSsl with pemReadPrivateKey := fun file passphrase => if passphrase = cLit "x" then some file else none }

/-- What `Gated` looks at. -/
def gateOf (s : State X K) : Bool × Bool × Option Bool × Option Bool :=
  (s.config.rootkey.isSome, s.config.rootkeyRequired, (certFindUid s.certs 0 false).map fun c => c.privkey.isSome,
    lastUpgradeOk s.m2p)

theorem not_gated {s : State X K} (h : gateOf s = (true, true, some false, some true)) : ¬ Gated s := by
  simp only [gateOf, Prod.mk.injEq, map_eq_some_iff] at h
  obtain ⟨hkey, hrequired, ⟨cert, hcert, hnone⟩, hlast⟩ := h
  intro hg
  have hgate := hg ⟨hkey, hrequired, by rw [hcert, isSome_some]⟩ cert hcert
  rw [hlast, hnone] at hgate
  cases hgate

/-- Without the passphrase upgrades are allowed all the same, at the start and behind a SIGHUP. -/
theorem not_gated_locked : ∃ s₀ s,
    start Cfg.sampleCmdline lockedSsl (some requiredText) (some rootDir) keyFiles = some s₀ ∧
    step Cfg.sampleCmdline lockedSsl s₀ (.reload (some requiredText) (some rootDir) keyFiles) = some s ∧
    ¬ Gated s₀ ∧ ¬ Gated s := by
  have hgates : ((start Cfg.sampleCmdline lockedSsl (some requiredText) (some rootDir) keyFiles).bind fun s₀ =>
      (step Cfg.sampleCmdline lockedSsl s₀ (.reload (some requiredText) (some rootDir) keyFiles)).map fun s =>
        (gateOf s₀, gateOf s)) = some ((true, true, some false, some true), (true, true, some false, some true)) := by
    decide +kernel
  obtain ⟨s₀, h0, hs⟩ := Option.bind_eq_some_iff.mp hgates
  obtain ⟨s, hs, hgate⟩ := Option.map_eq_some_iff.mp hs
  exact ⟨s₀, s, h0, hs, not_gated (Prod.mk.inj hgate).1, not_gated (Prod.mk.inj hgate).2⟩

end Runs

end Anoubis.RootKey

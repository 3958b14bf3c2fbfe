import Anoubis.Daemon.Cfg

/-! The processes agree on the configuration.

    What the master sent is what it has, so once the messages are processed all three have the configuration of the
    file that was accepted last. A file that is refused has already replaced the configuration of the master, by the
    defaults and its own valid lines. -/

namespace Anoubis.Cfg

open List

open Anoubis.Lib Option

/-! ### The property -/

/-- What the processes have to agree on. -/
structure Agree (a b : Config) : Prop where
  upgradeMode : a.upgradeMode = b.upgradeMode
  policysize : a.policysize = b.policysize
  unixsocket : a.unixsocket = b.unixsocket
  upgradeTrigger : ∀ t, t ∈ a.upgradeTrigger ↔ t ∈ b.upgradeTrigger

theorem Agree.refl (c : Config) : Agree c c := ⟨rfl, rfl, rfl, fun _ => .rfl⟩

/-- The defaults. -/
def base (cmd : Cmdline) : Config := cfgDefaults cmd (cfgClear zeroConfig)

/-- The defaults with the valid lines of a file. -/
def linesOf (cmd : Cmdline) (file : Option (List UInt8)) : Config := (cfgReadFile file (base cmd)).2

/-- A file is accepted. -/
def Accepted (cmd : Cmdline) (file : Option (List UInt8)) : Prop := (cfgRead cmd file (base cmd)).1 = true

/-- The configuration of a file. -/
def fileConfig (cmd : Cmdline) (file : Option (List UInt8)) : Config := (cfgRead cmd file (base cmd)).2

/-- A file that is refused has nothing but what the master has already. -/
def Meets (cmd : Cmdline) (s : State) : Event → Prop
  | .reload file => Accepted cmd file ∨ linesOf cmd file = s.master
  | _ => True

/-! ### Reading a file -/

section Reading

variable {cmd : Cmdline} {file : Option (List UInt8)} {c : Config}

theorem cfgDefaults_zeroConfig (cmd : Cmdline) : cfgDefaults cmd zeroConfig = base cmd := rfl

theorem cfgReread_eq (cmd : Cmdline) (file : Option (List UInt8)) (c : Config) :
    cfgReread cmd file c = cfgRead cmd file (base cmd) := rfl

theorem refused_config (h : ¬ Accepted cmd file) : (cfgRead cmd file (base cmd)).2 = linesOf cmd file := by
  rw [Accepted, cfgRead] at h
  rw [cfgRead, linesOf]
  dsimp only at h ⊢
  split
  · rfl
  · rename_i hread
    rw [if_neg hread] at h
    split
    · rfl
    · rename_i hverify
      rw [if_neg hverify] at h
      split at h <;> exact absurd rfl h

/-- The size is one that an int holds, and there is a socket. -/
structure Sane (c : Config) : Prop where
  policysize : 0 ≤ c.policysize ∧ c.policysize ≤ intMax
  unixsocket : c.unixsocket.isSome

theorem cfgParseInt_range {value : CString} {n : ℤ} (h : cfgParseInt value = some n) : 0 ≤ n ∧ n ≤ intMax := by
  rw [cfgParseInt] at h
  split at h
  · split at h
    · cases h
    · rename_i hrange
      cases h
      omega
  · cases h

theorem sane_cfgParamProcess {key : Option Key} {value : CString} {c' : Config} (h : Sane c)
    (hp : cfgParamProcess c key value = some c') : Sane c' := by
  cases key with
  | none => cases hp
  | some k =>
    cases k with
    | unixsocket =>
      cases hp
      exact ⟨h.policysize, rfl⟩
    | upgradeTrigger | rootkey =>
      cases hp
      exact ⟨h.policysize, h.unixsocket⟩
    | policysize =>
      obtain ⟨n, hn, rfl⟩ := map_eq_some_iff.mp hp
      exact ⟨cfgParseInt_range hn, h.unixsocket⟩
    | upgradeMode | rootkeyRequired | authMode | coredumps | commit | scantimeout =>
      obtain ⟨v, -, rfl⟩ := map_eq_some_iff.mp hp
      exact ⟨h.policysize, h.unixsocket⟩

theorem sane_process {p : Parse} (h : Sane p.config) : Sane p.process.config := by
  rw [Parse.process]
  split
  · rename_i config hconfig
    exact sane_cfgParamProcess h hconfig
  · exact h

theorem sane_addvalue {p : Parse} (h : Sane p.config) (line : CString) : Sane (p.addvalue line).config := by
  rw [Parse.addvalue]
  split
  · exact h
  · exact sane_process (p := { p with value := p.value ++ line }) h

theorem sane_line {p : Parse} (h : Sane p.config) (buf : List UInt8) : Sane (p.line buf).config := by
  rw [Parse.line]
  split
  · exact h
  dsimp only
  split
  · exact h
  split
  · rw [Parse.keyLine]
    split
    · exact h
    split
    · exact h
    · exact sane_addvalue (p := { p with key := some _ }) h _
  · exact sane_addvalue h _

theorem sane_cfgParseFile (h : Sane c) (text : List UInt8) : Sane (cfgParseFile text c).2 := by
  have hfold : ∀ (bufs : List (List UInt8)) (p : Parse), Sane p.config → Sane (bufs.foldl Parse.line p).config := by
    intro bufs
    induction bufs with
    | nil => exact fun _ hp => hp
    | cons buf bufs ih => exact fun p hp => ih (p.line buf) (sane_line hp buf)
  rw [cfgParseFile]
  dsimp only
  split
  · exact sane_process (hfold _ _ h)
  · exact hfold _ _ h

theorem sane_base (cmd : Cmdline) : Sane (base cmd) := by
  refine ⟨?_, rfl⟩
  show 0 ≤ maxPolicysize ∧ maxPolicysize ≤ intMax
  decide

theorem sane_fileConfig (cmd : Cmdline) (file : Option (List UInt8)) : Sane (fileConfig cmd file) := by
  have hlines : Sane (cfgReadFile file (base cmd)).2 := by
    cases file with
    | none => exact sane_base cmd
    | some text => exact sane_cfgParseFile (sane_base cmd) text
  rw [fileConfig, cfgRead]
  dsimp only
  split
  · exact hlines
  split
  · exact hlines
  split
  · exact hlines
  · exact ⟨hlines.policysize, rfl⟩

end Reading

/-! ### Messages -/

section Messages

variable {c : Config} {m : Msg}

theorem ofCode_code (mode : UpgradeMode) : UpgradeMode.ofCode (mode.code % 256) = some mode := by
  cases mode <;> decide

theorem toInt_toNat {n : ℤ} (h : 0 ≤ n ∧ n ≤ intMax) : toInt (n % 4294967296).toNat = n := by
  unfold intMax at h
  have hnat : ((n % 4294967296).toNat : ℤ) = n := by
    rw [Int.emod_eq_of_lt h.1 (by omega), Int.toNat_of_nonneg h.1]
  rw [toInt, if_pos (by omega), hnat]

/-- A process that gets the message agrees with the one that made it. -/
theorem agree_cfgMsgParse (h : Sane c) (hm : cfgMsgCreate c = some m) (c' : Config) : Agree (cfgMsgParse c' m) c := by
  rw [cfgMsgCreate] at hm
  split at hm
  · cases hm
  cases hm
  obtain ⟨socket, hsocket⟩ := isSome_iff_exists.mp h.unixsocket
  have hchunk : (((c.unixsocket.getD []) :: c.upgradeTrigger).flatMap cBytes) =
      cBytes socket ++ (c.upgradeTrigger.flatMap cBytes ++ []) := by
    rw [hsocket, append_nil, flatMap_cons]
    rfl
  refine ⟨?_, ?_, ?_, fun t => ?_⟩
  · rw [cfgMsgParse]
    dsimp only
    rw [ofCode_code]
    rfl
  · exact toInt_toNat h.policysize
  · rw [cfgMsgParse]
    dsimp only
    rw [hchunk, cString_cBytes, hsocket]
  · rw [cfgMsgParse]
    dsimp only
    rw [hchunk, cString_cBytes, drop_cBytes, cStrings_flatMap, mem_reverse]

end Messages

/-! ### Runs -/

/-- The messages on their way bring a process to agree with the master, which has the file that was accepted. -/
structure Inv (cmd : Cmdline) (s : State) : Prop where
  accepted : Accepted cmd s.accepted
  master : s.master = fileConfig cmd s.accepted
  session : Agree (s.m2s.foldl cfgMsgParse s.session) s.master
  policy : Agree (s.m2p.foldl cfgMsgParse s.policy) s.master

section Runs

variable {cmd : Cmdline} {s s' : State}

theorem inv_start {file : Option (List UInt8)} (h : start cmd file = some s) : Inv cmd s := by
  rw [start, cfgDefaults_zeroConfig] at h
  split at h
  · rename_i haccepted
    cases h
    exact ⟨haccepted, rfl, .refl _, .refl _⟩
  · cases h

theorem inv_step {e : Event} (h : Inv cmd s) (hm : Meets cmd s e) (hs : step cmd s e = some s') : Inv cmd s' := by
  cases e with
  | reload file =>
    rw [step, reconfigure, cfgReread_eq] at hs
    by_cases hacc : Accepted cmd file
    · rw [if_neg (by rw [hacc]; simp)] at hs
      obtain ⟨msg, hmsg, rfl⟩ := map_eq_some_iff.mp hs
      have hagree := agree_cfgMsgParse (sane_fileConfig cmd file) hmsg
      refine ⟨hacc, rfl, ?_, ?_⟩
      · rw [foldl_append]
        exact hagree _
      · rw [foldl_append]
        exact hagree _
    · rw [if_pos (by simpa [Accepted] using hacc), refused_config hacc, hm.resolve_left hacc] at hs
      cases hs
      exact h
  | session =>
    rw [step] at hs
    cases hq : s.m2s with
    | nil =>
      rw [hq] at hs
      cases hs
    | cons m ms =>
      rw [hq] at hs
      cases hs
      refine ⟨h.accepted, h.master, ?_, h.policy⟩
      have := h.session
      rwa [hq] at this
  | policy =>
    rw [step] at hs
    cases hq : s.m2p with
    | nil =>
      rw [hq] at hs
      cases hs
    | cons m ms =>
      rw [hq] at hs
      cases hs
      refine ⟨h.accepted, h.master, h.session, ?_⟩
      have := h.policy
      rwa [hq] at this

/-- A file that is refused leaves everything as it was in just that case. -/
theorem refused_keeps_iff {file : Option (List UInt8)} (hrefused : ¬ Accepted cmd file) :
    step cmd s (.reload file) = some s ↔ linesOf cmd file = s.master := by
  have hstep : step cmd s (.reload file) = some { s with master := linesOf cmd file } := by
    rw [step, reconfigure, cfgReread_eq]
    rw [if_pos (by simpa [Accepted] using hrefused), refused_config hrefused]
  rw [hstep]
  constructor
  · intro h
    exact congrArg State.master (some.inj h)
  · intro h
    rw [h]

/-- In every run that meets the condition, the processes agree on the file that was accepted last as soon as all
    messages are processed, and a file that is refused leaves all three as they were; in any state, it does so only
    under the condition. -/
theorem configuration_agrees {file : Option (List UInt8)} {s₀ : State} (h0 : start cmd file = some s₀)
    {es : List Event} (ha : Along (step cmd) (Meets cmd) s₀ es) (hr : runs (step cmd) s₀ es = some s) :
    (s.m2s = [] → s.m2p = [] → s.master = fileConfig cmd s.accepted ∧ Agree s.session s.master ∧
      Agree s.policy s.master) ∧
    ∀ file, ¬ Accepted cmd file → (step cmd s (.reload file) = some s ↔ Meets cmd s (.reload file)) := by
  have hinv : Inv cmd s := runs_invariant (fun _ _ _ h hm hs => inv_step h hm hs) (inv_start h0) ha hr
  refine ⟨fun hs hp => ⟨hinv.master, ?_, ?_⟩, fun file hrefused => ?_⟩
  · have := hinv.session
    rwa [hs] at this
  · have := hinv.policy
    rwa [hp] at this
  · rw [refused_keeps_iff hrefused]
    exact (or_iff_right hrefused).symm

/-- Bytes of a text. -/
def sampleText (s : String) : List UInt8 := s.toList.map fun c => UInt8.ofNat c.toNat

def sampleCmdline : Cmdline := ⟨cLit "/var/run/anoubisd.sock", none⟩

/-- The mode changes, and the two messages are processed. -/
theorem configuration_agrees_mode : ∃ s,
    runs (step sampleCmdline) ⟨base sampleCmdline, base sampleCmdline, base sampleCmdline, [], [], none⟩
      [.reload (some (sampleText "upgrade_mode = process")), .session, .policy] = some s ∧
    s.session.upgradeMode = .process ∧ (s.m2s = [] → s.m2p = [] →
      s.master = fileConfig sampleCmdline s.accepted ∧ Agree s.session s.master ∧ Agree s.policy s.master) := by
  have hrun : (runs (step sampleCmdline) ⟨base sampleCmdline, base sampleCmdline, base sampleCmdline, [], [], none⟩
      [.reload (some (sampleText "upgrade_mode = process")), .session, .policy]).map (fun s => s.session.upgradeMode) =
        some .process := by decide +kernel
  obtain ⟨s, hs, hmode⟩ := Option.map_eq_some_iff.mp hrun
  have hmeets : Along (step sampleCmdline) (Meets sampleCmdline)
      ⟨base sampleCmdline, base sampleCmdline, base sampleCmdline, [], [], none⟩
      [.reload (some (sampleText "upgrade_mode = process")), .session, .policy] :=
    ⟨Or.inl (by rw [Accepted]; decide +kernel), fun _ _ => ⟨trivial, fun _ _ => ⟨trivial, fun _ _ => trivial⟩⟩⟩
  have h0 : start sampleCmdline none =
      some ⟨base sampleCmdline, base sampleCmdline, base sampleCmdline, [], [], none⟩ := by decide +kernel
  exact ⟨s, hs, hmode, (configuration_agrees h0 hmeets hs).1⟩

/-- The file is refused for a line without a key: the master falls back to the defaults, and no message is on its
    way. -/
theorem configuration_differs : ((start sampleCmdline (some (sampleText "upgrade_mode = process"))).bind fun s =>
    step sampleCmdline s (.reload (some (sampleText "x")))).map (fun s =>
      (s.master.upgradeMode, s.session.upgradeMode, s.policy.upgradeMode, s.m2s, s.m2p)) =
        some (.off, .process, .process, [], []) := by
  decide +kernel

end Runs

end Anoubis.Cfg
